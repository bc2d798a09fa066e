/-
  Quack.Sys.HeapBytes
  **BYTES OF THE HEAP.**

  `memset` and `memcpy` go through the kernel's tables byte by byte.  On pages of
  the heap they return and change the bytes of their range only; at the first
  byte of a page that is not mapped they fault.
-/
import Quack.Arch.WindowBytes
import Quack.Sys.HeapBlocks

namespace Quack.Sys

open Lib Mm Arch

/-! ## §1. One byte. -/

/-- The byte at a virtual address of the kernel. -/
def kernelByte (m : Machine) (k a : Nat) : BitVec 8 :=
  m.byte (4096 * frameOf (m.entry k (a / 4096)) + a % 4096)

section Access

variable {k : Nat} {m : Machine} {G : Ledger Owner} {virt : U64}

section

variable (h : HeapTop k m G) (hv : virt.toNat < 2 ^ 47)

include h hv

theorem HeapTop.physOf_eq :
    m.physOf virt = (child (m.entry k (virt.toNat / 4096))).map
      fun _ => 4096 * frameOf (m.entry k (virt.toNat / 4096)) + virt.toNat % 4096 := by
  have hpage : pageOf virt < 2 ^ 35 := by
    unfold pageOf
    omega
  unfold Machine.physOf
  rw [if_pos (Or.inl hv), rootOf_eq h.kernel, h.accounted.translate_lower h.accounted.kernel hpage,
    Option.map_map]
  rfl

theorem HeapTop.physOf_page
    (hpage : HeapPage k m G (virt.toNat / 4096)) :
    m.physOf virt
      = some (4096 * frameOf (m.entry k (virt.toNat / 4096)) + virt.toNat % 4096) := by
  obtain ⟨f, hchild, -⟩ := hpage
  rw [h.physOf_eq hv, hchild]
  rfl

theorem HeapTop.physOf_clear
    (hclear : m.entry k (virt.toNat / 4096) = 0) : m.physOf virt = none := by
  rw [h.physOf_eq hv, hclear, child_zero]
  rfl

theorem loadVirt8_heap
    (hpage : HeapPage k m G (virt.toNat / 4096)) :
    loadVirt8 virt m = some (kernelByte m k virt.toNat, m) := by
  unfold loadVirt8
  rw [Prog.bind_apply (virtToPhys_eq_some.mpr ⟨h.physOf_page hv hpage, rfl⟩)]
  rfl

theorem loadVirt8_clear
    (hclear : m.entry k (virt.toNat / 4096) = 0) : loadVirt8 virt m = none :=
  Prog.bind_none (virtToPhys_eq_none (h.physOf_clear hv hclear))

theorem loadVirt8_lower {x : BitVec 8} {m' : Machine}
    (hrun : loadVirt8 virt m = some (x, m')) :
    m.entry k (virt.toNat / 4096) ≠ 0 ∧ x = kernelByte m k virt.toNat := by
  constructor
  · intro hclear
    rw [loadVirt8_clear h hv hclear] at hrun
    cases hrun
  · simp only [loadVirt8, Prog.bind_eq_some, virtToPhys_eq_some, Prog.read_eq_some] at hrun
    obtain ⟨phys, _, ⟨hphys, rfl⟩, rfl, rfl⟩ := hrun
    rw [h.physOf_eq hv] at hphys
    obtain ⟨_, -, rfl⟩ := Option.map_eq_some_iff.mp hphys
    rfl

theorem storeVirt8_clear (b : BitVec 8)
    (hclear : m.entry k (virt.toNat / 4096) = 0) : storeVirt8 virt b m = none :=
  Prog.bind_none (virtToPhys_eq_none (h.physOf_clear hv hclear))

theorem loadVirt64_heap
    (hpage : HeapPage k m G (virt.toNat / 4096)) :
    loadVirt64 virt m = some (kernelWord m k virt.toNat, m) := by
  have hrun : loadVirt64 virt m = some (m.mem ((4096 * frameOf (m.entry k (virt.toNat / 4096))
      + virt.toNat % 4096) / 8), m) := by
    unfold loadVirt64
    rw [Prog.bind_apply (virtToPhys_eq_some.mpr ⟨h.physOf_page hv hpage, rfl⟩)]
    rfl
  obtain ⟨-, hword⟩ := loadVirt64_spec h.accounted h.kernel hv hrun
  rw [← hword]
  exact hrun

end

end Access

/-! ## §2. Steps that write. -/

/-- The step from `m` to `m'` writes at the virtual addresses in `S` only, all of
them in pages of the heap. -/
structure HeapWrites (S : Nat → Prop) (k : Nat) (m : Machine) (G : Ledger Owner) (m' : Machine) :
    Prop where
  top : HeapTop k m' G
  writes : Writes (fun f => ∃ a, S a ∧ G f = some (.data (.heap (a / 4096)))) m m'
  entries : ∀ v, v < 2 ^ 35 → m'.entry k v = m.entry k v
  words : ∀ a, a / 4096 < 2 ^ 35 → HeapPage k m G (a / 4096) → (∀ x, S x → x / 8 ≠ a / 8) →
    kernelWord m' k a = kernelWord m k a
  bytes : ∀ a, a / 4096 < 2 ^ 35 → HeapPage k m G (a / 4096) → ¬ S a →
    kernelByte m' k a = kernelByte m k a

section Steps

variable {S T : Nat → Prop} {k : Nat} {m m' m'' : Machine} {G : Ledger Owner}

theorem HeapWrites.refl (h : HeapTop k m G) : HeapWrites S k m G m :=
  ⟨h, Writes.refl _ m, fun _ _ => rfl, fun _ _ _ _ => rfl, fun _ _ _ _ => rfl⟩

theorem HeapWrites.mono (h : HeapWrites S k m G m') (hST : ∀ a, S a → T a) :
    HeapWrites T k m G m' where
  top := h.top
  writes := ⟨h.writes.vars, fun w hw => h.writes.words w fun hS => hw (by
    obtain ⟨a, ha, hf⟩ := hS
    exact ⟨a, hST a ha, hf⟩)⟩
  entries := h.entries
  words a ha hp hout := h.words a ha hp fun x hx => hout x (hST x hx)
  bytes a ha hp hout := h.bytes a ha hp fun hS => hout (hST a hS)

theorem HeapWrites.page (h : HeapWrites S k m G m') {v : Nat} (hv : v < 2 ^ 35)
    (hp : HeapPage k m G v) : HeapPage k m' G v := by
  obtain ⟨f, hchild, hf⟩ := hp
  exact ⟨f, by rw [h.entries v hv]; exact hchild, hf⟩

theorem HeapWrites.trans (h1 : HeapWrites S k m G m') (h2 : HeapWrites S k m' G m'') :
    HeapWrites S k m G m'' where
  top := h2.top
  writes := h1.writes.trans h2.writes
  entries v hv := (h2.entries v hv).trans (h1.entries v hv)
  words a ha hp hout := (h2.words a ha (h1.page ha hp) hout).trans (h1.words a ha hp hout)
  bytes a ha hp hout := (h2.bytes a ha (h1.page ha hp) hout).trans (h1.bytes a ha hp hout)

theorem HeapPage.inj {v w : Nat} (hv : HeapPage k m G v) (hw : HeapPage k m G w)
    (h : frameOf (m.entry k v) = frameOf (m.entry k w)) : v = w := by
  have hfv := hv.frame
  rw [h, hw.frame] at hfv
  injection hfv with hfv
  injection hfv with hfv
  injection hfv with hfv
  exact hfv.symm

theorem storeVirt8_heap {virt : U64} (h : HeapTop k m G) (hv : virt.toNat < 2 ^ 47)
    (hpage : HeapPage k m G (virt.toNat / 4096)) (b : BitVec 8) :
    ∃ m', storeVirt8 virt b m = some ((), m')
      ∧ HeapWrites (fun a => a = virt.toNat) k m G m' ∧ kernelByte m' k virt.toNat = b := by
  have hA := h.accounted
  have hrun : storeVirt8 virt b m = some ((), m.setByte
      (4096 * frameOf (m.entry k (virt.toNat / 4096)) + virt.toNat % 4096) b) := by
    unfold storeVirt8
    rw [Prog.bind_apply (virtToPhys_eq_some.mpr ⟨h.physOf_page hv hpage, rfl⟩)]
    rfl
  have hframe := hpage.frame
  have hw : Writes (fun f => ∃ a, a = virt.toNat ∧ G f = some (.data (.heap (a / 4096)))) m
      (m.setByte (4096 * frameOf (m.entry k (virt.toNat / 4096)) + virt.toNat % 4096) b) := by
    refine ⟨⟨rfl, rfl, rfl, rfl⟩, fun w hout => m.setWord_mem_ne _ ?_⟩
    rintro rfl
    refine hout ⟨_, rfl, ?_⟩
    rw [show (4096 * frameOf (m.entry k (virt.toNat / 4096)) + virt.toNat % 4096) / 8 / 512
      = frameOf (m.entry k (virt.toNat / 4096)) by omega]
    exact hframe
  have hP : ∀ f, (∃ a, a = virt.toNat ∧ G f = some (.data (.heap (a / 4096)))) → Plain m G f := by
    rintro f ⟨a, -, hf⟩
    exact Or.inr (Or.inr ⟨_, hf⟩)
  have hen : ∀ v, v < 2 ^ 35 → (m.setByte
      (4096 * frameOf (m.entry k (virt.toNat / 4096)) + virt.toNat % 4096) b).entry k v
      = m.entry k v := fun v hv => hw.entry hA hP hA.kernel hv
  refine ⟨_, hrun, ⟨h.writes hw hP, hw, hen, ?_, ?_⟩, ?_⟩
  · intro a ha hp hout
    unfold kernelWord
    rw [hen _ ha]
    refine m.setWord_mem_ne _ fun heq => hout _ rfl ?_
    -- the same word of the same frame
    have hsame : virt.toNat / 4096 = a / 4096 := hpage.inj hp (by omega)
    omega
  · intro a ha hp hout
    unfold kernelByte
    rw [hen _ ha, Machine.byte_setByte, if_neg]
    intro heq
    have hsame : virt.toNat / 4096 = a / 4096 := hpage.inj hp (by omega)
    exact hout (by omega)
  · unfold kernelByte
    rw [hen _ (by omega), Machine.byte_setByte, if_pos rfl]

end Steps

/-! ## §3. `memset`. -/

section Loops

variable {k : Nat} {G : Ledger Owner}

theorem toNat_succ {x : U64} (h : x.toNat < 2 ^ 47) : (x + 1).toNat = x.toNat + 1 := by
  rw [BitVec.toNat_add, show (1 : U64).toNat = 1 from rfl]
  omega

theorem memset_heap (val : BitVec 8) (len : Nat) (arr : U64) (m : Machine) (h : HeapTop k m G)
    (hend : arr.toNat + len ≤ 2 ^ 47)
    (hpages : (∀ a, arr.toNat ≤ a → a < arr.toNat + len → HeapPage k m G (a / 4096))) :
    ∃ m', memsetVirt arr val len m = some ((), m')
      ∧ HeapWrites (fun a => arr.toNat ≤ a ∧ a < arr.toNat + len) k m G m'
      ∧ ∀ a, arr.toNat ≤ a → a < arr.toNat + len → kernelByte m' k a = val := by
  induction len generalizing arr m with
  | zero =>
    exact ⟨m, rfl, HeapWrites.refl h, fun a h1 h2 => absurd h1 (by omega)⟩
  | succ len ih =>
    have hnext : (arr + 1).toNat = arr.toNat + 1 := toNat_succ (by omega)
    obtain ⟨m1, hstore, hw1, hbyte⟩ := storeVirt8_heap h (by omega)
      (hpages _ (Nat.le_refl _) (by omega)) val
    obtain ⟨m', hrest, hw, hbytes⟩ := ih (arr + 1) m1 hw1.top (by omega) (fun a h1 h2 =>
      hw1.page (by omega) (hpages a (by omega) (by omega)))
    refine ⟨m', ?_, ?_, ?_⟩
    · unfold memsetVirt
      rw [Prog.bind_apply hstore]
      exact hrest
    · exact (hw1.mono fun a ha => ⟨by omega, by omega⟩).trans
        (hw.mono fun a ha => ⟨by omega, by omega⟩)
    · intro a h1 h2
      by_cases ha : a = arr.toNat
      · subst ha
        rw [hw.bytes _ (by omega) (hw1.page (by omega) (hpages _ h1 h2)) (by omega)]
        exact hbyte
      · exact hbytes a (by omega) (by omega)

theorem memset_faults (val : BitVec 8) (len i : Nat) (arr : U64) (m : Machine) (h : HeapTop k m G)
    (hi : i < len) (hend : arr.toNat + i < 2 ^ 47)
    (hpages : (∀ a, arr.toNat ≤ a → a < arr.toNat + i → HeapPage k m G (a / 4096)))
    (hclear : m.entry k ((arr.toNat + i) / 4096) = 0) : memsetVirt arr val len m = none := by
  induction len generalizing i arr m with
  | zero =>
    omega
  | succ len ih =>
    unfold memsetVirt
    cases i with
    | zero => exact Prog.bind_none (storeVirt8_clear h (by omega) val hclear)
    | succ i =>
      have hnext : (arr + 1).toNat = arr.toNat + 1 := toNat_succ (by omega)
      obtain ⟨m1, hstore, hw1, -⟩ := storeVirt8_heap h (by omega)
        (hpages _ (Nat.le_refl _) (by omega)) val
      rw [Prog.bind_apply hstore]
      refine ih i (arr + 1) m1 hw1.top (by omega) (by omega) (fun a h1 h2 =>
        hw1.page (by omega) (hpages a (by omega) (by omega))) ?_
      rw [hw1.entries _ (by omega), hnext, show arr.toNat + 1 + i = arr.toNat + (i + 1) by omega]
      exact hclear

/-! ## §4. `memcpy`. -/

theorem memcpy_heap (len : Nat) (dest src : U64) (m : Machine) (h : HeapTop k m G)
    (hdest : dest.toNat + len ≤ 2 ^ 47) (hsrc : src.toNat + len ≤ 2 ^ 47)
    (hapart : (dest.toNat + len ≤ src.toNat ∨ src.toNat + len ≤ dest.toNat))
    (hpd : (∀ a, dest.toNat ≤ a → a < dest.toNat + len → HeapPage k m G (a / 4096)))
    (hps : (∀ a, src.toNat ≤ a → a < src.toNat + len → HeapPage k m G (a / 4096))) :
    ∃ m', memcpyVirt dest src len m = some ((), m')
      ∧ HeapWrites (fun a => dest.toNat ≤ a ∧ a < dest.toNat + len) k m G m'
      ∧ ∀ i, i < len → kernelByte m' k (dest.toNat + i) = kernelByte m k (src.toNat + i) := by
  induction len generalizing dest src m with
  | zero =>
    exact ⟨m, rfl, HeapWrites.refl h, fun i hi => absurd hi (Nat.not_lt_zero i)⟩
  | succ len ih =>
    have hnd : (dest + 1).toNat = dest.toNat + 1 := toNat_succ (by omega)
    have hns : (src + 1).toNat = src.toNat + 1 := toNat_succ (by omega)
    have hload := loadVirt8_heap h (by omega) (hps _ (Nat.le_refl _) (by omega))
    obtain ⟨m1, hstore, hw1, hbyte⟩ := storeVirt8_heap h (by omega)
      (hpd _ (Nat.le_refl _) (by omega)) (kernelByte m k src.toNat)
    obtain ⟨m', hrest, hw, hbytes⟩ := ih (dest + 1) (src + 1) m1 hw1.top (by omega) (by omega)
      (by omega) (fun a h1 h2 => hw1.page (by omega) (hpd a (by omega) (by omega)))
      (fun a h1 h2 => hw1.page (by omega) (hps a (by omega) (by omega)))
    refine ⟨m', ?_, ?_, ?_⟩
    · unfold memcpyVirt
      rw [Prog.bind_apply hload, Prog.bind_apply hstore]
      exact hrest
    · exact (hw1.mono fun a ha => ⟨by omega, by omega⟩).trans
        (hw.mono fun a ha => ⟨by omega, by omega⟩)
    · intro i hi
      cases i with
      | zero =>
        rw [Nat.add_zero, Nat.add_zero, hw.bytes _ (by omega)
          (hw1.page (by omega) (hpd _ (Nat.le_refl _) (by omega))) (by omega)]
        exact hbyte
      | succ i =>
        -- the source has not been written
        have hi' := hbytes i (by omega)
        rw [hnd, hns, hw1.bytes _ (by omega) (hps _ (by omega) (by omega)) (by omega)] at hi'
        rw [show dest.toNat + (i + 1) = dest.toNat + 1 + i by omega,
          show src.toNat + (i + 1) = src.toNat + 1 + i by omega]
        exact hi'

theorem memcpy_faults (len i : Nat) (dest src : U64) (m : Machine) (h : HeapTop k m G)
    (hi : i < len) (hdest : dest.toNat + i < 2 ^ 47) (hsrc : src.toNat + len ≤ 2 ^ 47)
    (hpd : (∀ a, dest.toNat ≤ a → a < dest.toNat + i → HeapPage k m G (a / 4096)))
    (hps : (∀ a, src.toNat ≤ a → a < src.toNat + len → HeapPage k m G (a / 4096)))
    (hclear : m.entry k ((dest.toNat + i) / 4096) = 0) : memcpyVirt dest src len m = none := by
  induction len generalizing i dest src m with
  | zero =>
    omega
  | succ len ih =>
    have hload := loadVirt8_heap h (by omega) (hps _ (Nat.le_refl _) (by omega))
    unfold memcpyVirt
    rw [Prog.bind_apply hload]
    cases i with
    | zero => exact Prog.bind_none (storeVirt8_clear h (by omega) _ hclear)
    | succ i =>
      have hnd : (dest + 1).toNat = dest.toNat + 1 := toNat_succ (by omega)
      have hns : (src + 1).toNat = src.toNat + 1 := toNat_succ (by omega)
      obtain ⟨m1, hstore, hw1, -⟩ := storeVirt8_heap h (by omega)
        (hpd _ (Nat.le_refl _) (by omega)) (kernelByte m k src.toNat)
      rw [Prog.bind_apply hstore]
      refine ih i (dest + 1) (src + 1) m1 hw1.top (by omega) (by omega) (by omega)
        (fun a h1 h2 => hw1.page (by omega) (hpd a (by omega) (by omega)))
        (fun a h1 h2 => hw1.page (by omega) (hps a (by omega) (by omega))) ?_
      rw [hw1.entries _ (by omega), hnd, show dest.toNat + 1 + i = dest.toNat + (i + 1) by omega]
      exact hclear

end Loops

/-! ## §5. The data of a block. -/

/-- The bytes behind the pointer: what the header records. -/
def HeapBlock.payload (b : HeapBlock) : Nat := b.bytes - 16

section Data

variable {k : Nat} {m m' : Machine} {G : Ledger Owner} {b : HeapBlock} {blocks : List HeapBlock}
  {S : Nat → Prop}

section

variable (h : BlockOk k m G b)

include h

theorem BlockOk.data_end : b.ptr.toNat + b.payload = 4096 * b.stop := by
  have hends := h.ends
  have hheader := h.header
  unfold HeapBlock.payload
  omega

theorem BlockOk.ptr_mod : b.ptr.toNat % 8 = 0 := by
  have hends := h.ends
  have hmod := BlockOk.bytes_mod b
  omega

theorem BlockOk.ptr_ge : 4096 * b.first + 16 ≤ b.ptr.toNat := by
  have hends := h.ends
  have hfits := h.fits
  have hle := h.pages_le
  have hfirst : b.first = b.stop - b.pages := rfl
  omega

theorem BlockOk.page_of {a : Nat} (hlo : b.ptr.toNat - 16 ≤ a)
    (hhi : a < b.ptr.toNat + b.payload) : b.first ≤ a / 4096 ∧ a / 4096 < b.stop := by
  have hend := h.data_end
  have hge := h.ptr_ge
  omega

theorem BlockOk.heapPage {a : Nat} (hlo : b.ptr.toNat - 16 ≤ a)
    (hhi : a < b.ptr.toNat + b.payload) : HeapPage k m G (a / 4096) := by
  obtain ⟨h1, h2⟩ := h.page_of hlo hhi
  exact h.mapped _ h1 h2

theorem BlockOk.header_page {a : Nat} (hlo : b.ptr.toNat - 16 ≤ a)
    (hhi : a < b.ptr.toNat) : b.first ≤ a / 4096 ∧ a / 4096 < b.stop := by
  have hend := h.data_end
  have hge := h.ptr_ge
  omega

end

theorem payload_eq (b : HeapBlock) (h : 16 ≤ b.bytes) :
    (kmallocBytes b.size - 16).toNat = b.payload := by
  have hlt : b.bytes < 2 ^ 64 := (kmallocBytes b.size).isLt
  have hbytes : (kmallocBytes b.size).toNat = b.bytes := rfl
  unfold HeapBlock.payload
  rw [BitVec.toNat_sub, hbytes, show (16 : U64).toNat = 16 from rfl]
  omega

theorem BlockOk.writes (h : BlockOk k m G b) (hw : HeapWrites S k m G m') (hstop : b.stop < 2 ^ 35)
    (hS : ∀ a, S a → b.first ≤ a / 4096 → a / 4096 < b.stop → b.ptr.toNat ≤ a) :
    BlockOk k m' G b := by
  have hmod := h.ptr_mod
  have hge := h.ptr_ge
  -- a word of the header
  have hword : ∀ a, b.ptr.toNat - 16 ≤ a → a + 8 ≤ b.ptr.toNat → a % 8 = 0 →
      kernelWord m' k a = kernelWord m k a := by
    intro a hlo hhi ha
    obtain ⟨h1, h2⟩ := h.header_page hlo (by omega)
    refine hw.words a (by omega) (h.mapped _ h1 h2) fun x hx heq => ?_
    have hx' := hS x hx (by omega) (by omega)
    omega
  refine ⟨h.header, h.fits, h.tight, h.ends, h.pages_le, ?_, ?_, ?_, ?_⟩
  · intro v h1 h2
    exact hw.page (by omega) (h.mapped v h1 h2)
  · rw [hw.entries _ hstop]
    exact h.guard
  · rw [hword _ (by omega) (by omega) (by omega)]
    exact h.size_word
  · rw [hword _ (by omega) (by omega) (by omega)]
    exact h.pages_word

theorem HeapInv.writes (h : HeapInv k m G blocks) (hw : HeapWrites S k m G m')
    (hS : ∀ a, S a → ∀ b ∈ blocks, b.first ≤ a / 4096 → a / 4096 < b.stop → b.ptr.toNat ≤ a) :
    HeapInv k m' G blocks where
  toHeapTop := hw.top
  ok b hb := by
    have hhigh := h.high b hb
    have hle := h.le
    exact (h.ok b hb).writes hw (by omega) fun a ha h1 h2 => hS a ha b hb h1 h2
  low := h.low
  high b hb := by
    rw [hw.writes.vars.top]
    exact h.high b hb
  apart := h.apart

theorem HeapInv.unique (h : HeapInv k m G blocks) {b b' : HeapBlock} (hb : b ∈ blocks)
    (hb' : b' ∈ blocks) {v : Nat} (h1 : b.first ≤ v) (h2 : v < b.stop) (h1' : b'.first ≤ v)
    (h2' : v < b'.stop) : b = b' := by
  by_contra hne
  have : Std.Symm fun a b : HeapBlock => a.stop < b.first ∨ b.stop < a.first :=
    ⟨fun _ _ hab => Or.symm hab⟩
  have hap := h.apart.forall hb hb' hne
  omega

theorem HeapInv.writes_data (h : HeapInv k m G blocks) (hb : b ∈ blocks)
    (hw : HeapWrites S k m G m')
    (hS : ∀ a, S a → b.ptr.toNat ≤ a ∧ a < b.ptr.toNat + b.payload) : HeapInv k m' G blocks := by
  refine h.writes hw fun a ha b' hb' h1 h2 => ?_
  obtain ⟨hlo, hhi⟩ := hS a ha
  obtain ⟨h3, h4⟩ := (h.ok b hb).page_of (by omega) hhi
  rw [← h.unique hb hb' h3 h4 h1 h2]
  exact hlo

theorem HeapWrites.confined (hw : HeapWrites S k m G m') :
    Confined (fun u => ∃ v, u = .data (.heap v)) k m G m' G where
  accounted := hw.top.accounted
  len := hw.writes.vars.len
  kernel := hw.writes.vars.kernel
  ext _ _ hf _ := hf
  slots f u j hf hu _ hj := by
    refine hw.writes.slot ?_ hj
    rintro ⟨a, -, hfa⟩
    rw [hf] at hfa
    injection hfa with hfa
    exact hu ⟨_, hfa⟩

section

variable (h : HeapInv k m G blocks) (hb : b ∈ blocks)

include h hb

theorem HeapInv.stop_lt : b.stop < 2 ^ 35 := by
  have hhigh := h.high b hb
  have hle := h.le
  omega

theorem HeapInv.toNat_data {i : Nat}
    (hi : i ≤ b.payload) : (b.ptr + BitVec.ofNat 64 i).toNat = b.ptr.toNat + i := by
  have hend := (h.ok b hb).data_end
  have hstop := h.stop_lt hb
  rw [BitVec.toNat_add, BitVec.toNat_ofNat]
  omega

theorem HeapInv.load_header {d : U64}
    (hpos : 0 < d.toNat) (hd : d.toNat ≤ 16) :
    loadVirt64 (b.ptr - d) m = some (kernelWord m k (b.ptr.toNat - d.toNat), m) := by
  have hok := h.ok b hb
  have hend := hok.data_end
  have hge := hok.ptr_ge
  have hstop := h.stop_lt hb
  have hptr : (b.ptr - d).toNat = b.ptr.toNat - d.toNat := by
    rw [BitVec.toNat_sub]
    omega
  obtain ⟨h1, h2⟩ := hok.header_page (a := b.ptr.toNat - d.toNat) (by omega) (by omega)
  rw [loadVirt64_heap h.toHeapTop (by omega) (by rw [hptr]; exact hok.mapped _ h1 h2), hptr]

theorem HeapInv.load_size :
    loadVirt64 (b.ptr - 16) m = some (kmallocBytes b.size - 16, m) := by
  rw [h.load_header hb (by decide) (by decide)]
  exact congrArg (fun w => some (w, m)) (h.ok b hb).size_word

theorem HeapInv.load_pages :
    loadVirt64 (b.ptr - 8) m = some (heapPages (kmallocBytes b.size), m) := by
  rw [h.load_header hb (by decide) (by decide)]
  exact congrArg (fun w => some (w, m)) (h.ok b hb).pages_word

theorem HeapInv.load_data {i : Nat}
    (hi : i < b.payload) :
    loadVirt8 (b.ptr + BitVec.ofNat 64 i) m = some (kernelByte m k (b.ptr.toNat + i), m) := by
  have hok := h.ok b hb
  have hend := hok.data_end
  have hstop := h.stop_lt hb
  have haddr := h.toNat_data hb (Nat.le_of_lt hi)
  rw [loadVirt8_heap h.toHeapTop (by omega)
    (by rw [haddr]; exact hok.heapPage (by omega) (by omega)), haddr]

theorem HeapInv.load_end :
    loadVirt8 (b.ptr + BitVec.ofNat 64 b.payload) m = none := by
  have hok := h.ok b hb
  have hend := hok.data_end
  have hstop := h.stop_lt hb
  have haddr := h.toNat_data hb (Nat.le_refl b.payload)
  refine loadVirt8_clear h.toHeapTop (by omega) ?_
  rw [haddr, hend, Nat.mul_div_cancel_left _ (by decide)]
  exact hok.guard

theorem HeapInv.memset_block (val : BitVec 8) {n : Nat}
    (hn : n ≤ b.payload) :
    ∃ m', memsetVirt b.ptr val n m = some ((), m') ∧ HeapInv k m' G blocks
      ∧ HeapWrites (fun a => b.ptr.toNat ≤ a ∧ a < b.ptr.toNat + n) k m G m'
      ∧ ∀ i, i < n → kernelByte m' k (b.ptr.toNat + i) = val := by
  have hok := h.ok b hb
  have hend := hok.data_end
  have hstop := h.stop_lt hb
  obtain ⟨m', hrun, hw, hbytes⟩ := memset_heap val n b.ptr m h.toHeapTop (by omega)
    (fun a h1 h2 => hok.heapPage (by omega) (by omega))
  exact ⟨m', hrun, h.writes_data hb hw (fun a ha => ⟨ha.1, by omega⟩), hw,
    fun i hi => hbytes _ (by omega) (by omega)⟩

theorem HeapInv.memset_block_faults (val : BitVec 8)
    {n : Nat} (hn : b.payload < n) : memsetVirt b.ptr val n m = none := by
  have hok := h.ok b hb
  have hend := hok.data_end
  have hstop := h.stop_lt hb
  refine memset_faults val n b.payload b.ptr m h.toHeapTop hn (by omega)
    (fun a h1 h2 => hok.heapPage (by omega) h2) ?_
  rw [hend, Nat.mul_div_cancel_left _ (by decide)]
  exact hok.guard

end

end Data

end Quack.Sys
