/-
  Quack.Sys.HeapFree
  **WHAT `kfree` GIVES BACK.**

  `kfree` reads the size and the number of pages from the header and goes through
  that many pages from the one the pointer lies in.  For a block whose data
  starts on a page boundary, or a word before one, these begin one page late: the
  first page is lost, and the clear page after the block is freed, which frees
  frame 0.
-/
import Quack.Arch.Translation
import Quack.Sys.HeapBytes

namespace Quack.Sys

open Lib Mm Arch

/-! ## §1. Pages given back. -/

section Pages

variable {k : Nat} {m m' m'' : Machine} {G G' : Ledger Owner}

/-- Pages `lo … hi - 1` of the heap are given back. -/
structure Released (k lo hi : Nat) (m : Machine) (G : Ledger Owner) (m' : Machine)
    (G' : Ledger Owner) : Prop where
  confined : Confined (fun u => ∃ v, lo ≤ v ∧ v < hi ∧ u = .data (.heap v)) k m G m' G'
  top : m'.top = m.top
  entries : ∀ v, v < 2 ^ 35 → m'.entry k v = if lo ≤ v ∧ v < hi then 0 else m.entry k v
  tables : ∀ v f, v < 2 ^ 35 → m.table k v = some f → m'.table k v = some f

theorem Released.refl (hA : Accounted k m G) (lo : Nat) : Released k lo lo m G m G where
  confined := Confined.refl _ hA
  top := rfl
  entries v _ := by rw [if_neg (by omega)]
  tables _ _ _ hf := hf

variable {hi lo mid v : Nat}

theorem Released.trans {m'' : Machine} {G'' : Ledger Owner}
    (h₁ : Released k lo mid m G m' G') (h₂ : Released k mid hi m' G' m'' G'') (hlo : lo ≤ mid)
    (hhi : mid ≤ hi) : Released k lo hi m G m'' G'' where
  confined := by
    refine (h₁.confined.mono ?_).trans (h₂.confined.mono ?_)
    · rintro u ⟨v, h1, h2, hu⟩
      exact ⟨v, h1, by omega, hu⟩
    · rintro u ⟨v, h1, h2, hu⟩
      exact ⟨v, by omega, h2, hu⟩
  top := h₂.top.trans h₁.top
  entries v hv := by
    rw [h₂.entries v hv, h₁.entries v hv]
    by_cases hlate : mid ≤ v ∧ v < hi
    · rw [if_pos hlate, if_pos (by omega)]
    · rw [if_neg hlate]
      exact if_congr (by omega) rfl rfl
  tables v f hv hf := h₂.tables v f hv (h₁.tables v f hv hf)

theorem Released.heapTop (hr : Released k lo hi m G m' G') (h : HeapTop k m G)
    (hhi : hi ≤ pageOf m.top) : HeapTop k m' G' := by
  refine h.keep hr.confined.accounted hr.confined.kernel hr.top hr.tables ?_
  intro v hlo hv
  rw [hr.entries v hv, if_neg (by omega)]

theorem Released.page (hr : Released k lo hi m G m' G') (hv : v < 2 ^ 35)
    (hpage : HeapPage k m G v) (hout : ¬ (lo ≤ v ∧ v < hi)) : HeapPage k m' G' v := by
  obtain ⟨f, hchild, hf⟩ := hpage
  refine ⟨f, by rw [hr.entries v hv, if_neg hout]; exact hchild, hr.confined.ext f _ hf ?_⟩
  rintro ⟨w, h1, h2, he⟩
  injection he with he
  injection he with he
  exact hout (by omega)

theorem Released.blockOk {b : HeapBlock} (hr : Released k lo hi m G m' G')
    (hb : BlockOk k m G b) (hstop : b.stop < 2 ^ 35) (hout : hi ≤ b.first ∨ b.stop < lo) :
    BlockOk k m' G' b := by
  have haway : ∀ v, b.first ≤ v → v < b.stop →
      ¬ ∃ w, lo ≤ w ∧ w < hi ∧ (Use.data (Owner.heap v) : Use Owner) = .data (.heap w) := by
    rintro v h1 h2 ⟨w, h3, h4, he⟩
    injection he with he
    injection he with he
    omega
  refine hb.keep ?_ ?_ ?_
  · intro v h1 h2
    rw [hr.entries v (by omega), if_neg (by omega)]
  · intro f v h1 h2 hf
    exact hr.confined.ext f _ hf (haway v h1 h2)
  · intro f v j h1 h2 hf hj
    exact hr.confined.slots f _ j hf (haway v h1 h2) (by simp) hj

theorem Released.give (hA : Accounted k m G) {m1 : Machine}
    (hpage : HeapPage k m G v ∨ m.entry k v = 0) (ht : Touches k m G m1 G)
    (hA1 : Accounted k m1 G)
    (hen : ∀ w, w < 2 ^ 35 → m1.entry k w = if w = v then 0 else m.entry k w) :
    ∃ G', Released k v (v + 1) m G (m1.give (frameOf (m.entry k v))) G' := by
  obtain ⟨G', hlen, hacc, hext⟩ : ∃ G', frameOf (m.entry k v) < m1.pmm_bitmap_len
      ∧ Accounted k (m1.give (frameOf (m.entry k v))) G'
      ∧ ∀ g u, G g = some u → u ≠ .data (.heap v) → G' g = some u := by
    rcases hpage with hpage | hzero
    · -- a frame of the heap leaves the ledger
      have hf := hpage.frame
      have hman := hA1.managed _ _ hf
      refine ⟨_, hman.len, (hA1.drop_data hf).give (Function.update_self ..) hman.len hman.bitmap, ?_⟩
      intro g u hg hu
      rw [Function.update_of_ne]
      · exact hg
      · rintro rfl
        rw [hf] at hg
        injection hg with hg
        exact hu hg.symm
    · -- frame 0 was never in it: only its bit is cleared
      have hframe : frameOf (m.entry k v) = 0 := by
        rw [hzero]
        rfl
      have hnone : G 0 = none := by
        rw [← Option.not_isSome_iff_eq_none, Option.isSome_iff_exists]
        rintro ⟨u, hu⟩
        have := (hA.managed 0 u hu).low
        omega
      have hlen : 0 < m1.pmm_bitmap_len := Nat.zero_lt_of_lt (hA1.managed _ _ hA1.kernel).len
      rw [hframe]
      exact ⟨G, hlen, hA1.give hnone hlen (fun hb => absurd hb.1 (by omega)), fun _ _ hg _ => hg⟩
  have hslot : ∀ g u j, G g = some u → j < 512 →
      (m1.give (frameOf (m.entry k v))).slot g j = m1.slot g j :=
    fun g u j hg hj => m1.give_slot hlen hj (hA1.managed g u hg).bitmap
  refine ⟨G', ⟨hacc, ht.vars.len, ht.vars.kernel, ?_, ?_⟩, ht.vars.top, ?_, ?_⟩
  · intro g u hg hu
    exact hext g u hg (fun he => hu ⟨v, Nat.le_refl _, Nat.lt_succ_self _, he⟩)
  · intro g u j hg _ hk hj
    rw [hslot g u j hg hj, ht.slots g u j hg hk hj]
  · intro w hw
    rw [hA1.entry_congr hA1.kernel hw (fun g p j hg hj => hslot g _ j hg hj), hen w hw]
    exact if_congr (by omega) rfl rfl
  · intro w f hw hf
    rw [hA1.table_congr hA1.kernel hw (fun g p j hg hj => hslot g _ j hg hj)]
    exact ht.tables w f hw hf

/-- The frames of the pages from `lo` to `hi` are freed, each by a call of its own. -/
structure Freed (k lo hi : Nat) (m m' : Machine) : Prop where
  len : m'.pmm_bitmap_len = m.pmm_bitmap_len
  bits : ∀ f, f < m.pmm_bitmap_len → (m'.bit f = true
    ↔ m.bit f = true ∧ ∀ v, lo ≤ v → v < hi → frameOf (m.entry k v) ≠ f)
  count : m'.pmm_free_pages = m.pmm_free_pages + BitVec.ofNat 64 (hi - lo)

theorem Freed.refl (k lo : Nat) (m : Machine) : Freed k lo lo m m where
  len := rfl
  bits f _ := ⟨fun h => ⟨h, fun v h1 h2 => by omega⟩, fun h => h.1⟩
  count := by
    rw [Nat.sub_self]
    exact (BitVec.add_zero _).symm

theorem Freed.trans (h₁ : Freed k lo mid m m') (h₂ : Freed k mid hi m' m'')
    (hlo : lo ≤ mid) (hhi : mid ≤ hi)
    (hen : ∀ v, mid ≤ v → v < hi → m'.entry k v = m.entry k v) : Freed k lo hi m m'' where
  len := by rw [h₂.len, h₁.len]
  bits f hf := by
    rw [h₂.bits f (by rw [h₁.len]; exact hf), h₁.bits f hf]
    constructor
    · rintro ⟨⟨hbit, hfirst⟩, hlast⟩
      refine ⟨hbit, fun v h1 h2 => ?_⟩
      by_cases hv : v < mid
      · exact hfirst v h1 hv
      · rw [← hen v (by omega) h2]
        exact hlast v (by omega) h2
    · rintro ⟨hbit, hall⟩
      refine ⟨⟨hbit, fun v h1 h2 => hall v h1 (by omega)⟩, fun v h1 h2 => ?_⟩
      rw [hen v h1 h2]
      exact hall v (by omega) h2
  count := by
    rw [h₂.count, h₁.count, BitVec.add_assoc, ← BitVec.ofNat_add]
    congr 2
    omega

theorem Freed.bit (h : Freed k lo hi m m') (hlo : lo ≤ v) (hhi : v < hi)
    (hf : frameOf (m.entry k v) < m.pmm_bitmap_len) : m'.bit (frameOf (m.entry k v)) = false := by
  refine Bool.eq_false_iff.mpr fun hset => ?_
  rw [h.bits _ hf] at hset
  exact hset.2 v hlo hhi rfl

end Pages

/-! ## §2. The loop. -/

section Loop

variable {k : Nat}

theorem arch_mm_free_phys_apply {ent : U64} (hwin : frameOf ent < 2 ^ 20) (m : Machine) :
    arch_mm_free_phys (ent &&& VMM_ADDR_MASK) 1 m = some (1, m.give (frameOf ent)) := by
  have hidx : (ent &&& VMM_ADDR_MASK).toNat / PAGE_SIZE = frameOf ent := by
    rw [toNat_and_addr_mask]
    exact Nat.mul_div_cancel_left _ (by decide)
  -- its bit is in the physical window
  have hbit : pmm_bit_write (frameOf ent) false (1 : U64).toNat m
      = some ((), m.setBit (frameOf ent) false) := by
    refine pmm_bit_write_one.mpr ⟨?_, rfl⟩
    unfold PMM_MEMORY_BASE phys_window
    omega
  unfold arch_mm_free_phys pmm_free
  rw [hidx, Prog.bind_apply (Prog.bind_apply hbit)]
  rfl

theorem kfreePages_succ {n : Nat} {curr : U64} {m : Machine} {G : Ledger Owner}
    (hA : Accounted k m G) (hk : m.kernel_pml4.toNat = 4096 * k) (hv : pageOf curr < 2 ^ 35)
    (hpage : HeapPage k m G (pageOf curr) ∨ m.entry k (pageOf curr) = 0) :
    ∃ m1 G1, kfreePages (n + 1) curr m = kfreePages n (curr + vm_page_size) m1
      ∧ Released k (pageOf curr) (pageOf curr + 1) m G m1 G1
      ∧ Freed k (pageOf curr) (pageOf curr + 1) m m1 := by
  have hcurr : curr.toNat < 2 ^ 47 := by
    unfold pageOf at hv
    omega
  have hread : Prog.read Machine.kernel_pml4 m = some (m.kernel_pml4, m) := rfl
  have hget : arch_mm_get_phys_kernel curr m
      = some (m.entry k (pageOf curr) &&& VMM_ADDR_MASK, m) := by
    unfold arch_mm_get_phys_kernel
    rw [Prog.bind_apply hread, Prog.bind_apply (vmm_get_entry_returns hA hA.kernel hk hcurr)]
    rfl
  obtain ⟨j, m1, hunmap, hcount⟩ := vmm_unmap_page_returns hA hA.kernel hk hv
  obtain ⟨hA1, ht, hen⟩ := vmm_unmap_page_touches hA hA.kernel hk hv hunmap
  have hunmap' : arch_mm_unmap_kernel curr 1 m = some (j, m1) := by
    unfold arch_mm_unmap_kernel
    rw [Prog.bind_apply hread]
    exact hunmap
  -- a frame of the heap, or frame 0
  have hwin : frameOf (m.entry k (pageOf curr)) < 2 ^ 20 := by
    rcases hpage with hpage | hzero
    · exact (hA.managed _ _ hpage.frame).window
    · rw [hzero]
      decide
  obtain ⟨G1, hrel⟩ := Released.give hA hpage ht hA1
    (fun w hw => by rw [hen k w hA.kernel hw]; exact if_congr (by simp) rfl rfl)
  refine ⟨_, G1, ?_, hrel, hrel.confined.len, fun f hf => ?_, ?_⟩
  · show (arch_mm_get_phys_kernel curr >>= _) m = _
    rw [Prog.bind_apply hget, Prog.bind_apply hunmap',
      Prog.bind_apply (arch_mm_free_phys_apply hwin m1)]
  · rw [Machine.give_bit, ht.bit_eq f hf]
    constructor
    · intro hbit
      by_cases hself : f = frameOf (m.entry k (pageOf curr))
      · rw [if_pos hself] at hbit
        cases hbit
      · rw [if_neg hself] at hbit
        refine ⟨hbit, fun v h1 h2 => ?_⟩
        rw [show v = pageOf curr by omega]
        exact Ne.symm hself
    · rintro ⟨hbit, hother⟩
      rw [if_neg (Ne.symm (hother _ (Nat.le_refl _) (Nat.lt_succ_self _)))]
      exact hbit
  · show m1.pmm_free_pages + 1 = _
    rw [hcount, Nat.add_sub_cancel_left]
    rfl

theorem kfreePages_returns (n : Nat) (curr : U64) (m : Machine) (G : Ledger Owner)
    (hA : Accounted k m G) (hk : m.kernel_pml4.toNat = 4096 * k) (hle : pageOf curr + n ≤ 2 ^ 35)
    (hpages : (∀ v, pageOf curr ≤ v → v < pageOf curr + n → HeapPage k m G v ∨ m.entry k v = 0)) :
    ∃ m' G', kfreePages n curr m = some ((), m')
      ∧ Released k (pageOf curr) (pageOf curr + n) m G m' G'
      ∧ Freed k (pageOf curr) (pageOf curr + n) m m' := by
  induction n generalizing curr m G with
  | zero =>
    exact ⟨m, G, rfl, Released.refl hA _, Freed.refl k _ m⟩
  | succ n ih =>
    have hv : pageOf curr < 2 ^ 35 := by omega
    have hnext : pageOf (curr + vm_page_size) = pageOf curr + 1 := pageOf_succ hv
    obtain ⟨m1, G1, hround, hrel, hfreed⟩ := kfreePages_succ (n := n) hA hk hv
      (hpages _ (Nat.le_refl _) (by omega))
    -- the later pages are as they were
    have hkeep : ∀ v, pageOf curr + 1 ≤ v → v < pageOf curr + 1 + n →
        m1.entry k v = m.entry k v := by
      intro v h1 h2
      rw [hrel.entries v (by omega), if_neg (by omega)]
    obtain ⟨m', G', hrest, hrel', hfreed'⟩ := ih (curr + vm_page_size) m1 G1
      hrel.confined.accounted (by rw [hrel.confined.kernel]; exact hk) (by omega) (by
        intro v h1 h2
        rw [hkeep v (by omega) (by omega)]
        refine (hpages v (by omega) (by omega)).imp (fun hp => ?_) id
        exact hrel.page (by omega) hp (by omega))
    rw [hnext] at hrel' hfreed'
    rw [show pageOf curr + (n + 1) = pageOf curr + 1 + n by omega]
    exact ⟨m', G', by rw [hround, hrest], hrel.trans hrel' (by omega) (by omega),
      hfreed.trans hfreed' (by omega) (by omega) hkeep⟩

end Loop

/-! ## §3. `kfree`. -/

section Free

variable {k : Nat} {m m' : Machine} {G G' : Ledger Owner} {b : HeapBlock}
  {blocks : List HeapBlock}

theorem BlockOk.first_add_pages (h : BlockOk k m G b) : b.first + b.pages = b.stop := by
  have hple := h.pages_le
  unfold HeapBlock.first
  omega

theorem BlockOk.first_lt_stop (h : BlockOk k m G b) : b.first < b.stop := by
  have hheader := h.header
  have hfits := h.fits
  have hrange := h.first_add_pages
  omega

theorem BlockOk.page_bounds (h : BlockOk k m G b) :
    b.first ≤ pageOf b.ptr ∧ pageOf b.ptr ≤ b.first + 1 := by
  have hheader := h.header
  have hfits := h.fits
  have htight := h.tight
  have hends := h.ends
  have hrange := h.first_add_pages
  unfold pageOf
  omega

theorem pageOf_page_mask (ptr : U64) : pageOf (ptr &&& ~~~ (vm_page_size - 1)) = pageOf ptr := by
  have hshift : ∀ x, pageOf x = x.toNat >>> 12 := by
    intro x
    rw [Nat.shiftRight_eq_div_pow]
    rfl
  have hmask : (~~~ (vm_page_size - 1) : U64).toNat >>> 12 = 2 ^ 52 - 1 := by decide
  have hlt := ptr.isLt
  rw [hshift, hshift, BitVec.toNat_and, Nat.shiftRight_and_distrib, hmask,
    Nat.and_two_pow_sub_one_eq_mod, Nat.mod_eq_of_lt]
  rw [Nat.shiftRight_eq_div_pow]
  omega

variable {c : Cursor HeapBlock}

theorem Released.erase {lo hi : Nat} (hr : Released k lo hi m G m' G')
    (h : HeapInv k m G blocks) (hl : c.toList = blocks) (hlo : c.elem.first ≤ lo)
    (hhi : hi ≤ c.elem.stop + 1) : HeapInv k m' G' c.erase := by
  have hpair : (c.elem :: c.erase).Pairwise
      fun a b => a.stop < b.first ∨ b.stop < a.first := by
    refine (c.toList_perm.pairwise_iff Or.symm).mp ?_
    rw [hl]
    exact h.apart
  rw [List.pairwise_cons] at hpair
  have hhigh := h.high c.elem (Cursor.elem_mem hl)
  refine ⟨hr.heapTop h.toHeapTop (by omega), fun b hb => ?_, fun b hb => ?_, fun b hb => ?_,
    hpair.2⟩
  · have hin := Cursor.mem_of_erase hl hb
    have hapart := hpair.1 b hb
    exact hr.blockOk (h.ok b hin) (h.stop_lt hin) (by omega)
  · exact h.low b (Cursor.mem_of_erase hl hb)
  · rw [hr.top]
    exact h.high b (Cursor.mem_of_erase hl hb)

theorem kfree_returns (h : HeapInv k m G blocks) (hl : c.toList = blocks) :
    ∃ m' G', kfree c.elem.ptr m = some ((), m')
      ∧ Released k (pageOf c.elem.ptr) (pageOf c.elem.ptr + c.elem.pages) m G m' G'
      ∧ Freed k (pageOf c.elem.ptr) (pageOf c.elem.ptr + c.elem.pages) m m'
      ∧ HeapInv k m' G' c.erase := by
  have hmem : c.elem ∈ blocks := Cursor.elem_mem hl
  have hok := h.ok c.elem hmem
  have hstop := h.stop_lt hmem
  have hrange := hok.first_add_pages
  obtain ⟨hlo, hhi⟩ := hok.page_bounds
  have hstart := pageOf_page_mask c.elem.ptr
  obtain ⟨m', G', hloop, hrel, hfreed⟩ := kfreePages_returns c.elem.pages
    (c.elem.ptr &&& ~~~ (vm_page_size - 1)) m G h.accounted h.kernel (by omega) (by
      intro v h1 h2
      by_cases hv : v < c.elem.stop
      · exact Or.inl (hok.mapped v (by omega) hv)
      · rw [show v = c.elem.stop by omega]
        exact Or.inr hok.guard)
  rw [hstart] at hrel hfreed
  refine ⟨m', G', ?_, hrel, hfreed, hrel.erase h hl hlo (by omega)⟩
  -- the header gives back the number of pages, so the assertion holds
  have hsize : kmallocBytes c.elem.size - 16 + 16 = kmallocBytes c.elem.size :=
    BitVec.sub_add_cancel _ _
  unfold kfree
  rw [Prog.bind_apply (h.load_size hmem), Prog.bind_apply (h.load_pages hmem)]
  show (Prog.check (heapPages (kmallocBytes c.elem.size)
    = heapPages (kmallocBytes c.elem.size - 16 + 16)) >>= _) m = _
  rw [Prog.bind_apply (Prog.check_apply (by rw [hsize]) m), hsize]
  exact hloop

theorem kfree_spec {u : Unit} (h : HeapInv k m G blocks)
    (hl : c.toList = blocks) (hrun : kfree c.elem.ptr m = some (u, m')) :
    ∃ G', Released k (pageOf c.elem.ptr) (pageOf c.elem.ptr + c.elem.pages) m G m' G'
      ∧ HeapInv k m' G' c.erase := by
  obtain ⟨m1, G', hrun1, hrel, -, hinv⟩ := kfree_returns h hl
  rw [hrun1] at hrun
  simp only [Option.some.injEq, Prod.mk.injEq] at hrun
  obtain ⟨-, rfl⟩ := hrun
  exact ⟨G', hrel, hinv⟩

theorem HeapInv.kfree_mem (h : HeapInv k m G blocks) (hb : b ∈ blocks) :
    ∃ m' G' before after, blocks = before ++ b :: after ∧ kfree b.ptr m = some ((), m')
      ∧ Released k (pageOf b.ptr) (pageOf b.ptr + b.pages) m G m' G'
      ∧ Freed k (pageOf b.ptr) (pageOf b.ptr + b.pages) m m'
      ∧ HeapInv k m' G' (before ++ after) := by
  obtain ⟨before, after, rfl⟩ := List.append_of_mem hb
  obtain ⟨m', G', hspec⟩ := kfree_returns (c := ⟨before, b, after⟩) h rfl
  exact ⟨m', G', before, after, rfl, hspec⟩

end Free

end Quack.Sys
