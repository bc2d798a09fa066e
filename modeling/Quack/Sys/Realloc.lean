/-
  Quack.Sys.Realloc
  **WHAT `krealloc` AND `laihost_realloc` KEEP OF A BLOCK.**

  `krealloc` allocates the new block, copies as many bytes as the header of the
  OLD block says and frees the old one.  A smaller new block ends before the
  copy does, and the copy faults on the clear page after it.  A larger one holds
  the data; the old block is freed whole under the condition of `kfree` alone.
  `laihost_realloc` then clears the new block, and with it the data.

    • `realloc_preserves_iff`   — in every state the kernel reaches.
-/
import Quack.Sys.HeapUndo

namespace Quack.Sys

open Lib Mm Arch

/-! ## §1. Bytes of the heap. -/

section Bytes

variable {k a : Nat} {m m' m0 : Machine} {G G' : Ledger Owner} {b : HeapBlock}
  {blocks : List HeapBlock} {n p : U64}

theorem Confined.kernelByte {W : Use Owner → Prop} (h : Confined W k m G m' G')
    (hpage : HeapPage k m G (a / 4096)) (hW : ¬ W (.data (.heap (a / 4096))))
    (hen : m'.entry k (a / 4096) = m.entry k (a / 4096)) :
    HeapPage k m' G' (a / 4096) ∧ kernelByte m' k a = kernelByte m k a := by
  obtain ⟨f, hchild, hf⟩ := hpage
  refine ⟨⟨f, by rw [hen, hchild], h.ext f _ hf hW⟩, ?_⟩
  unfold Sys.kernelByte
  rw [hen, frameOf_eq_of_child hchild]
  refine Machine.byte_congr ?_
  rw [show (4096 * f + a % 4096) / 4096 = f by omega]
  exact h.slots f _ _ hf hW (fun _ hu => by cases hu) (by omega)

theorem Released.kernelByte {lo hi : Nat} (h : Released k lo hi m G m' G')
    (ha : a / 4096 < 2 ^ 35) (hpage : HeapPage k m G (a / 4096))
    (hout : ¬ (lo ≤ a / 4096 ∧ a / 4096 < hi)) : kernelByte m' k a = kernelByte m k a := by
  refine (h.confined.kernelByte hpage ?_ ((h.entries _ ha).trans (if_neg hout))).2
  rintro ⟨v, h1, h2, he⟩
  injection he with he
  injection he with he
  exact hout (by omega)

theorem HeapInv.copy_block (h : HeapInv k m G blocks) {c : HeapBlock} (hc : c ∈ blocks)
    (hb : b ∈ blocks) (habove : b.stop ≤ c.first) (hfit : b.payload ≤ c.payload) :
    ∃ m', memcpyVirt c.ptr b.ptr b.payload m = some ((), m') ∧ HeapInv k m' G blocks
      ∧ HeapWrites (fun a => c.ptr.toNat ≤ a ∧ a < c.ptr.toNat + b.payload) k m G m'
      ∧ ∀ i, i < b.payload →
          Sys.kernelByte m' k (c.ptr.toNat + i) = Sys.kernelByte m k (b.ptr.toNat + i) := by
  have hok := h.ok b hb
  have hokc := h.ok c hc
  have hend := hok.data_end
  have hendc := hokc.data_end
  have hge := hokc.ptr_ge
  have hstop := h.stop_lt hc
  have hlt := hokc.first_lt_stop
  obtain ⟨m', hcopy, hw, hbytes⟩ := memcpy_heap b.payload c.ptr b.ptr m h.toHeapTop (by omega)
    (by omega) (by omega) (fun a h1 h2 => hokc.heapPage (by omega) (by omega))
    (fun a h1 h2 => hok.heapPage (by omega) h2)
  exact ⟨m', hcopy, h.writes_data hc hw (fun a ha => ⟨ha.1, by omega⟩), hw, hbytes⟩

theorem HeapInv.kmalloc_new (h : HeapInv k m G blocks) (hrun : kmalloc n m = some (p, m'))
    (hp : p ≠ 0) :
    ∃ G', HeapInv k m' G' (⟨p, n⟩ :: blocks) ∧ Confined (fun _ => False) k m G m' G'
      ∧ (⟨p, n⟩ : HeapBlock).first = pageOf m.top
      ∧ ∀ v, v < pageOf m.top → m'.entry k v = m.entry k v := by
  obtain ⟨_, m1, G', -, -, hgrew, hc, ⟨-, rfl, -⟩ | ⟨-, hinv, hplaced⟩⟩ := kmalloc_cases h hrun
  · exact absurd rfl hp
  · have hle := h.le
    refine ⟨G', hinv, hc, hplaced.first, fun v hv => ?_⟩
    rw [hplaced.entries v (by omega), hgrew.entries v hv]

theorem HeapTop.page_lt_top (h : HeapTop k m G) {v : Nat} (hv : v < 2 ^ 35)
    (hpage : HeapPage k m G v) : v < pageOf m.top := by
  by_contra hge
  obtain ⟨f, hchild, -⟩ := hpage
  rw [h.clear v (by omega) hv] at hchild
  cases hchild

end Bytes

/-! ## §2. The call. -/

section Call

variable {k : Nat} {m m0 : Machine} {G : Ledger Owner} {b : HeapBlock} {blocks : List HeapBlock}
  {n p : U64}

theorem krealloc_apply {old : U64} (hnew : kmalloc n m = some (p, m0)) (hold : old ≠ 0) :
    krealloc old n m = (loadVirt64 (old - 16) >>= fun size =>
      memcpyVirt p old size.toNat >>= fun _ => kfree old >>= fun _ => pure p) m0 := by
  unfold krealloc
  rw [Prog.bind_apply hnew]
  show (if old ≠ 0 then _ else _ : Prog Machine U64) m0 = _
  rw [if_pos hold]

theorem HeapInv.krealloc_copy {G0 : Ledger Owner} (h : HeapInv k m0 G0 (⟨p, n⟩ :: blocks))
    (hb : b ∈ blocks) (hnew : kmalloc n m = some (p, m0)) :
    krealloc b.ptr n m = (memcpyVirt p b.ptr b.payload >>= fun _ =>
      kfree b.ptr >>= fun _ => pure p) m0 := by
  have hmem : b ∈ (⟨p, n⟩ : HeapBlock) :: blocks := List.mem_cons_of_mem _ hb
  rw [krealloc_apply hnew (h.ok b hmem).ptr_ne_zero, Prog.bind_apply (h.load_size hmem),
    payload_eq b (h.ok b hmem).header]

/-- The pages `kfree` of a block goes through. -/
def HeapBlock.Frees (b : HeapBlock) (v : Nat) : Prop :=
  pageOf b.ptr ≤ v ∧ v < pageOf b.ptr + b.pages

instance (b : HeapBlock) (v : Nat) : Decidable (b.Frees v) := inferInstanceAs (Decidable (_ ∧ _))

/-- From `m` to `m'` the data of block `b` has moved to `p`, and the block was freed. -/
structure Moved (k : Nat) (G : Ledger Owner) (b : HeapBlock) (p : U64) (m m' : Machine) :
    Prop where
  copied : ∀ i, i < b.payload → kernelByte m' k (p.toNat + i) = kernelByte m k (b.ptr.toNat + i)
  kept : ∀ a, a / 4096 < 2 ^ 35 → HeapPage k m G (a / 4096) → ¬ b.Frees (a / 4096) →
    kernelByte m' k a = kernelByte m k a
  entries : ∀ v, v < pageOf m.top → m'.entry k v = if b.Frees v then 0 else m.entry k v
  freed : ∀ v, b.Frees v → frameOf (m.entry k v) < m.pmm_bitmap_len →
    m'.bit (frameOf (m.entry k v)) = false

section

variable (h : HeapInv k m G blocks) (hb : b ∈ blocks) (hnew : kmalloc n m = some (p, m0))
  (hp : p ≠ 0)

include h hb hnew hp

theorem HeapInv.krealloc_returns
    (hfit : b.payload ≤ (⟨p, n⟩ : HeapBlock).payload) :
    ∃ m' G' blocks', krealloc b.ptr n m = some (p, m') ∧ HeapInv k m' G' blocks'
      ∧ ⟨p, n⟩ ∈ blocks' ∧ Moved k G b p m m' := by
  obtain ⟨G0, h0, hc0, hfirst, hen0⟩ := h.kmalloc_new hnew hp
  have hmem : b ∈ (⟨p, n⟩ : HeapBlock) :: blocks := List.mem_cons_of_mem _ hb
  have hok := h0.ok b hmem
  have hoknew := h0.ok _ List.mem_cons_self
  have hstop := h0.stop_lt List.mem_cons_self
  have hbelow := h.high b hb
  have hlt := hoknew.first_lt_stop
  obtain ⟨-, hpage⟩ := hok.page_bounds
  have hrange := hok.first_add_pages
  -- the old block ends below the new one: it is copied, and then freed
  obtain ⟨m1, hcopy, h1, hw, hbytes⟩ := h0.copy_block List.mem_cons_self hmem (by omega) hfit
  obtain ⟨m2, G2, before, after, hsplit, hfree, hrel, hfreed, h2⟩ := h1.kfree_mem hmem
  have hentries : ∀ v, v < pageOf m.top → m1.entry k v = m.entry k v := by
    intro v hv
    rw [hw.entries v (by omega), hen0 v hv]
  have hlive : (⟨p, n⟩ : HeapBlock) ∈ before ++ after := by
    have hin : (⟨p, n⟩ : HeapBlock) ∈ before ++ b :: after := by
      rw [← hsplit]
      exact List.mem_cons_self
    simp only [List.mem_append, List.mem_cons] at hin ⊢
    rcases hin with hin | rfl | hin
    · exact Or.inl hin
    · omega
    · exact Or.inr hin
  refine ⟨m2, G2, before ++ after, ?_, h2, hlive, ?_, ?_, ?_, ?_⟩
  · rw [h0.krealloc_copy hb hnew, Prog.bind_apply hcopy, Prog.bind_apply hfree]
    rfl
  · intro i hi
    obtain ⟨h3, h4⟩ := hoknew.page_of (a := p.toNat + i) (by show p.toNat - 16 ≤ _; omega)
      (by show p.toNat + i < p.toNat + _; omega)
    obtain ⟨h5, h6⟩ := hok.page_of (a := b.ptr.toNat + i) (by omega) (by omega)
    rw [hrel.kernelByte (by omega) (hw.page (by omega) (hoknew.mapped _ h3 h4)) (by omega)]
    refine (hbytes i hi).trans ?_
    exact (hc0.kernelByte ((h.ok b hb).mapped _ h5 h6) id (hen0 _ (by omega))).2
  · intro a ha hmapped hout
    have hlow := h.page_lt_top ha hmapped
    obtain ⟨hmapped0, hbyte⟩ := hc0.kernelByte hmapped id (hen0 _ hlow)
    have hge : 4096 * (⟨p, n⟩ : HeapBlock).first + 16 ≤ p.toNat := hoknew.ptr_ge
    rw [hrel.kernelByte ha (hw.page ha hmapped0) hout,
      hw.bytes a ha hmapped0 (fun hin => by have : p.toNat ≤ a := hin.1; omega), hbyte]
  · intro v hv
    rw [hrel.entries v (by omega), hentries v hv]
    rfl
  · intro v hv hlen
    have hlow : v < pageOf m.top := by
      have := hv.2
      omega
    rw [← hentries v hlow] at hlen ⊢
    exact hfreed.bit hv.1 hv.2 (by rw [hw.writes.vars.len, hc0.len]; exact hlen)

theorem HeapInv.krealloc_faults
    (hshort : (⟨p, n⟩ : HeapBlock).payload < b.payload) : krealloc b.ptr n m = none := by
  obtain ⟨G0, h0, -, -, -⟩ := h.kmalloc_new hnew hp
  have hmem : b ∈ (⟨p, n⟩ : HeapBlock) :: blocks := List.mem_cons_of_mem _ hb
  have hok := h0.ok b hmem
  have hoknew := h0.ok _ List.mem_cons_self
  have hend := hok.data_end
  have hendnew : p.toNat + (⟨p, n⟩ : HeapBlock).payload = 4096 * (⟨p, n⟩ : HeapBlock).stop :=
    hoknew.data_end
  have hstop := h0.stop_lt hmem
  have hstopnew := h0.stop_lt List.mem_cons_self
  rw [h0.krealloc_copy hb hnew]
  refine Prog.bind_none (memcpy_faults b.payload (⟨p, n⟩ : HeapBlock).payload p b.ptr m0
    h0.toHeapTop hshort (by omega) (by omega) (fun a h1 h2 => hoknew.heapPage
      (by show p.toNat - 16 ≤ a; omega) h2) (fun a h1 h2 => hok.heapPage (by omega) h2) ?_)
  rw [hendnew, Nat.mul_div_cancel_left _ (by decide)]
  exact hoknew.guard

end

end Call

/-! ## §3. What is kept. -/

/-- The `n` bytes at `q` in `m'` are those at `p` in `m`. -/
def SameBytes (m : Machine) (p : U64) (m' : Machine) (q : U64) (n : Nat) : Prop :=
  ∀ i, i < n → ∃ x, loadVirt8 (p + BitVec.ofNat 64 i) m = some (x, m)
    ∧ loadVirt8 (q + BitVec.ofNat 64 i) m' = some (x, m')

/-- Block `b` of `m` has become a block of `n` bytes at `p` in `m'`. -/
structure Reallocated (b : HeapBlock) (n : U64) (m : Machine) (p : U64) (m' : Machine) :
    Prop where
  usable : Usable m' p n.toNat
  same : SameBytes m b.ptr m' p (min b.payload n.toNat)
  /-- What was mapped before the call, and so is not in the new block, is not written. -/
  others : ∀ a : U64, a.toNat < 2 ^ 47 → ∀ x y, loadVirt8 a m = some (x, m) →
    loadVirt8 a m' = some (y, m') → x = y
  /-- The old block is unmapped, and its frames are free. -/
  gone : ∀ v, b.first ≤ v → v < b.stop →
    kernelFrame m' v = none ∧ ∀ f, kernelFrame m v = some f → m'.bit f = false

section Kept

variable {k : Nat} {m m0 m' : Machine} {G G' : Ledger Owner} {b : HeapBlock}
  {blocks blocks' : List HeapBlock} {n p : U64}

theorem Moved.same (h : Moved k G b p m m') (hm : HeapInv k m G blocks) (hb : b ∈ blocks)
    (hm' : HeapInv k m' G' blocks') (hnew : ⟨p, n⟩ ∈ blocks')
    (hfit : b.payload ≤ (⟨p, n⟩ : HeapBlock).payload) : SameBytes m b.ptr m' p b.payload := by
  intro i hi
  refine ⟨_, hm.load_data hb hi, ?_⟩
  rw [← h.copied i hi]
  exact hm'.load_data hnew (Nat.lt_of_lt_of_le hi hfit)

theorem Moved.others (h : Moved k G b p m m') (hm : HeapTop k m G) (honly : OnlyHeap k m G)
    (hm' : HeapTop k m' G') {a : U64} (ha : a.toNat < 2 ^ 47) {x y : BitVec 8}
    (hx : loadVirt8 a m = some (x, m)) (hy : loadVirt8 a m' = some (y, m')) : x = y := by
  obtain ⟨hmapped, rfl⟩ := loadVirt8_lower hm ha hx
  obtain ⟨hmapped', rfl⟩ := loadVirt8_lower hm' ha hy
  have hv : a.toNat / 4096 < 2 ^ 35 := by omega
  obtain hclear | ⟨-, hpage⟩ := honly _ hv
  · exact absurd hclear hmapped
  · rw [h.entries _ (hm.page_lt_top hv hpage)] at hmapped'
    refine (h.kept _ hv hpage fun hin => ?_).symm
    rw [if_pos hin] at hmapped'
    exact hmapped' rfl

theorem Moved.gone_iff (h : Moved k G b p m m') (hm : HeapInv k m G blocks) (hb : b ∈ blocks)
    (hm' : HeapTop k m' G') :
    (∀ v, b.first ≤ v → v < b.stop →
      kernelFrame m' v = none ∧ ∀ f, kernelFrame m v = some f → m'.bit f = false)
      ↔ pageOf b.ptr = b.first := by
  have hok := hm.ok b hb
  have hhigh := hm.high b hb
  have hstop := hm.stop_lt hb
  have hrange := hok.first_add_pages
  have hlt := hok.first_lt_stop
  obtain ⟨hlo, -⟩ := hok.page_bounds
  constructor
  · intro hgone
    by_contra hne
    -- the first page is still there
    obtain ⟨hnone, -⟩ := hgone b.first (Nat.le_refl _) hlt
    obtain ⟨f, hchild, -⟩ := hok.mapped b.first (Nat.le_refl _) hlt
    rw [hm'.kernelFrame_eq (by omega), h.entries _ (by omega),
      if_neg (by unfold HeapBlock.Frees; omega), hchild] at hnone
    cases hnone
  · intro hfirst v h1 h2
    have hin : b.Frees v := ⟨by omega, by omega⟩
    refine ⟨?_, fun f hf => ?_⟩
    · rw [hm'.kernelFrame_eq (by omega), h.entries v (by omega), if_pos hin]
      rfl
    · rw [hm.kernelFrame_eq (by omega)] at hf
      have hframe := frameOf_eq_of_child hf
      have hlen := (hm.accounted.managed _ _ (hok.mapped v h1 h2).frame).len
      rw [← hframe]
      exact h.freed v hin hlen

theorem HeapInv.kmalloc_payload (h : HeapInv k m G blocks) (hnew : kmalloc n m = some (p, m0))
    (hp : p ≠ 0) : (n.toNat ≤ (⟨p, n⟩ : HeapBlock).payload ↔ n.toNat + 7 < 2 ^ 64)
      ∧ (n.toNat + 7 < 2 ^ 64 → (⟨p, n⟩ : HeapBlock).payload = 8 * ((n.toNat + 7) / 8)) := by
  obtain ⟨_, h0, -, -, -⟩ := h.kmalloc_new hnew hp
  have hheader := (h0.ok _ List.mem_cons_self).header
  exact ⟨size_le_payload_iff hheader, payload_eq_round_up hheader⟩

theorem HeapInv.krealloc_iff (h : HeapInv k m G blocks) (honly : OnlyHeap k m G) (hb : b ∈ blocks)
    (hnew : kmalloc n m = some (p, m0)) (hp : p ≠ 0) :
    (∃ p' m', krealloc b.ptr n m = some (p', m') ∧ p' ≠ 0 ∧ Reallocated b n m p' m')
      ↔ n.toNat + 7 < 2 ^ 64 ∧ b.payload ≤ 8 * ((n.toNat + 7) / 8)
        ∧ b.payload % 4096 ≠ 0 ∧ b.payload % 4096 ≠ 4088 := by
  obtain ⟨hholds, hround⟩ := h.kmalloc_payload hnew hp
  rw [← (h.ok b hb).page_eq_first_iff]
  constructor
  · rintro ⟨p', m', hrun, -, hre⟩
    by_cases hfit : b.payload ≤ (⟨p, n⟩ : HeapBlock).payload
    · obtain ⟨m1, G1, blocks1, hrun1, h1, hlive, hmoved⟩ := h.krealloc_returns hb hnew hp hfit
      rw [hrun1] at hrun
      simp only [Option.some.injEq, Prod.mk.injEq] at hrun
      obtain ⟨rfl, rfl⟩ := hrun
      have hsize : n.toNat + 7 < 2 ^ 64 := hholds.mp
        ((h1.usable_iff hlive n.toNat).mp hre.usable)
      rw [hround hsize] at hfit
      exact ⟨hsize, hfit, (hmoved.gone_iff h hb h1.toHeapTop).mp hre.gone⟩
    · rw [h.krealloc_faults hb hnew hp (by omega)] at hrun
      cases hrun
  · rintro ⟨hsize, hfit, hfirst⟩
    rw [← hround hsize] at hfit
    obtain ⟨m1, G1, blocks1, hrun1, h1, hlive, hmoved⟩ := h.krealloc_returns hb hnew hp hfit
    have hsame := hmoved.same h hb h1 hlive hfit
    exact ⟨p, m1, hrun1, hp, (h1.usable_iff hlive n.toNat).mpr (hholds.mpr hsize),
      fun i hi => hsame i (by omega), fun a ha x y hx hy => hmoved.others h.toHeapTop honly
        h1.toHeapTop ha hx hy, (hmoved.gone_iff h hb h1.toHeapTop).mpr hfirst⟩

theorem HeapInv.laihost_iff (h : HeapInv k m G blocks) (hb : b ∈ blocks)
    (hnew : kmalloc n m = some (p, m0)) (hp : p ≠ 0) :
    (∃ p' m', laihost_realloc b.ptr n m = some (p', m')
        ∧ SameBytes m b.ptr m' p' (min b.payload n.toNat))
      ↔ n.toNat + 7 < 2 ^ 64 ∧ b.payload ≤ 8 * ((n.toNat + 7) / 8)
        ∧ Zeroed m b.ptr (min b.payload n.toNat) := by
  obtain ⟨hholds, hround⟩ := h.kmalloc_payload hnew hp
  -- the call, once `krealloc` has returned
  have hcall : b.payload ≤ (⟨p, n⟩ : HeapBlock).payload → n.toNat ≤ (⟨p, n⟩ : HeapBlock).payload →
      ∃ m', laihost_realloc b.ptr n m = some (p, m')
        ∧ ∀ i, i < n.toNat → loadVirt8 (p + BitVec.ofNat 64 i) m' = some (0, m') := by
    intro hfit hsize
    obtain ⟨m1, G1, blocks1, hrun1, h1, hlive, -⟩ := h.krealloc_returns hb hnew hp hfit
    obtain ⟨m2, hset, h2, -, hzero⟩ := h1.memset_block hlive 0 hsize
    refine ⟨m2, ?_, fun i hi => ?_⟩
    · unfold laihost_realloc
      rw [Prog.bind_apply hrun1, Prog.bind_apply hset]
      rfl
    · rw [← hzero i hi]
      exact h2.load_data hlive (by omega)
  constructor
  · rintro ⟨p', m', hrun, hsame⟩
    by_cases hfit : b.payload ≤ (⟨p, n⟩ : HeapBlock).payload
    · by_cases hsize : n.toNat ≤ (⟨p, n⟩ : HeapBlock).payload
      · obtain ⟨m1, hrun1, hzero⟩ := hcall hfit hsize
        rw [hrun1] at hrun
        simp only [Option.some.injEq, Prod.mk.injEq] at hrun
        obtain ⟨rfl, rfl⟩ := hrun
        have hwrap : n.toNat + 7 < 2 ^ 64 := hholds.mp hsize
        refine ⟨hwrap, by rw [hround hwrap] at hfit; exact hfit, fun i hi => ?_⟩
        obtain ⟨x, hold, hx⟩ := hsame i hi
        rw [hzero i (by omega)] at hx
        simp only [Option.some.injEq, Prod.mk.injEq, and_true] at hx
        rw [hold, hx]
      · obtain ⟨m1, G1, blocks1, hrun1, h1, hlive, -⟩ := h.krealloc_returns hb hnew hp hfit
        unfold laihost_realloc at hrun
        rw [Prog.bind_apply hrun1,
          Prog.bind_none (h1.memset_block_faults hlive 0 (by omega))] at hrun
        cases hrun
    · unfold laihost_realloc at hrun
      rw [Prog.bind_none (h.krealloc_faults hb hnew hp (by omega))] at hrun
      cases hrun
  · rintro ⟨hwrap, hfit, hold⟩
    rw [← hround hwrap] at hfit
    obtain ⟨m1, hrun1, hzero⟩ := hcall hfit (hholds.mpr hwrap)
    exact ⟨p, m1, hrun1, fun i hi => ⟨0, hold i hi, hzero i (by omega)⟩⟩

end Kept

/-- **Reallocation**, in every state the kernel reaches and for every live block:
`krealloc` keeps the data and frees the old block iff the new block is not
smaller and `kfree` finds the first page of the old one; `laihost_realloc` keeps
the data iff the new block is not smaller and the data is 0. -/
theorem realloc_preserves_iff (ehdr : Option (List Elf64Phdr)) (s : System)
    (hs : Reachable ehdr s) (b : HeapBlock) (hb : b ∈ s.blocks) (n p : U64) (m0 : Machine)
    (hnew : kmalloc n s.machine = some (p, m0)) (hp : p ≠ 0) :
    (loadVirt64 (b.ptr - 16) s.machine).map (fun r => r.1.toNat) = some b.payload
    ∧ ((∃ p' m', krealloc b.ptr n s.machine = some (p', m') ∧ p' ≠ 0
          ∧ Reallocated b n s.machine p' m')
        ↔ n.toNat + 7 < 2 ^ 64 ∧ b.payload ≤ 8 * ((n.toNat + 7) / 8)
          ∧ b.payload % 4096 ≠ 0 ∧ b.payload % 4096 ≠ 4088)
    ∧ ((∃ p' m', laihost_realloc b.ptr n s.machine = some (p', m')
          ∧ SameBytes s.machine b.ptr m' p' (min b.payload n.toNat))
        ↔ n.toNat + 7 < 2 ^ 64 ∧ b.payload ≤ 8 * ((n.toNat + 7) / 8)
          ∧ Zeroed s.machine b.ptr (min b.payload n.toNat)) := by
  obtain ⟨k, G, h⟩ := KernelInv.reachable hs
  refine ⟨?_, h.sys.heap.krealloc_iff h.only hb hnew hp, h.sys.heap.laihost_iff hb hnew hp⟩
  rw [h.sys.heap.load_size hb]
  exact congrArg some (payload_eq b (h.sys.heap.ok b hb).header)

/-- A block of 16 bytes, the first of them 7. -/
def sevenOps : List KernelOp := [.sys (.heap (.kmalloc 16)), .store 0 0 7]

theorem reachable_seven {s : System}
    (hrun : run (kernelStep none) (System.init bootMachine) sevenOps = some s) :
    Reachable none s := by
  refine ⟨bootMachine, sevenOps, bootMachine_booted, ⟨trivial, fun s' hs' => ⟨?_, ?_⟩⟩, hrun⟩
  · intro c hc
    have hblocks : (kernelStep none (System.init bootMachine) (.sys (.heap (.kmalloc 16)))).map
        System.blocks = some [⟨0x200000FF0, 16⟩] := by decide +kernel
    rw [hs', Option.map_some] at hblocks
    injection hblocks with hblocks
    rw [hblocks] at hc
    injection hc with hc
    subst hc
    decide
  · intro _ _
    trivial

/-- It grows to 24 bytes, and the 7 is kept. -/
theorem realloc_preserves_grown :
    ∃ s p m', run (kernelStep none) (System.init bootMachine) sevenOps = some s
      ∧ krealloc 0x200000FF0 24 s.machine = some (p, m') ∧ p ≠ 0
      ∧ Reallocated ⟨0x200000FF0, 16⟩ 24 s.machine p m' := by
  have hruns : (run (kernelStep none) (System.init bootMachine) sevenOps).map
      (fun s => (s.blocks, (kmalloc 24 s.machine).map Prod.fst))
      = some ([⟨0x200000FF0, 16⟩], some 0x200002FE8) := by decide +kernel
  obtain ⟨s, hrun, hout⟩ := Option.map_eq_some_iff.mp hruns
  simp only [Prod.mk.injEq] at hout
  obtain ⟨⟨p, m0⟩, hnew, hp⟩ := Option.map_eq_some_iff.mp hout.2
  obtain rfl : p = 0x200002FE8 := hp
  obtain ⟨-, hkrealloc, -⟩ := realloc_preserves_iff none s (reachable_seven hrun)
    ⟨0x200000FF0, 16⟩ (by rw [hout.1]; exact List.mem_singleton_self _) 24 _ m0 hnew (by decide)
  obtain ⟨p, m', hre⟩ := hkrealloc.mpr (by decide)
  exact ⟨s, p, m', hrun, hre⟩

/-- **It shrinks, or the ACPI interpreter asks**: `krealloc` to 8 bytes faults,
though there is memory, and after `laihost_realloc` to 24 bytes the 7 is a 0. -/
theorem realloc_loses_data :
    ∃ s, Reachable none s ∧ ⟨0x200000FF0, 16⟩ ∈ s.blocks
      ∧ (∃ p m0, kmalloc 8 s.machine = some (p, m0) ∧ p ≠ 0)
      ∧ krealloc 0x200000FF0 8 s.machine = none
      ∧ ∃ p m', laihost_realloc 0x200000FF0 24 s.machine = some (p, m') ∧ p ≠ 0
        ∧ ¬ SameBytes s.machine 0x200000FF0 m' p 16 := by
  have hruns : (run (kernelStep none) (System.init bootMachine) sevenOps).map
      (fun s => (s.blocks, (kmalloc 8 s.machine).map Prod.fst,
        (krealloc 0x200000FF0 8 s.machine).map Prod.fst))
      = some ([⟨0x200000FF0, 16⟩], some 0x200002FF8, none) := by decide +kernel
  have hlai : (run (kernelStep none) (System.init bootMachine) sevenOps).bind
      (fun s => (laihost_realloc 0x200000FF0 24 s.machine).map fun r =>
        (r.1, (loadVirt8 (0x200000FF0 + 0) s.machine).map Prod.fst,
          (loadVirt8 (r.1 + 0) r.2).map Prod.fst))
      = some (0x200002FE8, some 7, some 0) := by decide +kernel
  obtain ⟨s, hrun, hout⟩ := Option.map_eq_some_iff.mp hruns
  simp only [Prod.mk.injEq, Option.map_eq_none_iff] at hout
  obtain ⟨hblocks, hmalloc, hshrink⟩ := hout
  obtain ⟨⟨q, m0⟩, hnew, hq⟩ := Option.map_eq_some_iff.mp hmalloc
  rw [hrun, Option.bind_some] at hlai
  obtain ⟨⟨p, m'⟩, hgrow, hbytes⟩ := Option.map_eq_some_iff.mp hlai
  simp only [Prod.mk.injEq] at hbytes
  refine ⟨s, reachable_seven hrun, by rw [hblocks]; exact List.mem_singleton_self _,
    ⟨q, m0, hnew, by rw [show q = 0x200002FF8 from hq]; decide⟩, hshrink,
    p, m', hgrow, by rw [hbytes.1]; decide, fun hsame => ?_⟩
  obtain ⟨x, hold, hnow⟩ := hsame 0 (by decide)
  rw [show BitVec.ofNat 64 0 = 0 from rfl] at hold hnow
  rw [hold, hnow] at hbytes
  simp only [Option.map_some, Option.some.injEq] at hbytes
  rw [hbytes.2.1] at hbytes
  exact absurd hbytes.2.2 (by decide)

end Quack.Sys
