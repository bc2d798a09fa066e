/-
  Quack.Arch.Supply
  **ENOUGH FRAMES: PROGRAMS THAT RETURN.**

  The other modules say what a program does if it returns.  Here the frames left
  are counted, and the programs that build tables are shown to return.
-/
import Quack.Arch.WindowBytes

namespace Quack.Arch

open Lib

variable {κ : Type}

/-! ## §1. Counting. -/

/-- The frames `pmm_alloc` can hand out. -/
def freeSet (m : Machine) : Finset Nat :=
  {f ∈ Finset.range (min m.pmm_bitmap_len (2 ^ 20)) | 0x2000 ≤ f ∧ m.bit f = false}

def freeFrames (m : Machine) : Nat := (freeSet m).card

section Count

variable {k r c : Nat} {m m' : Machine} {G G' : Ledger κ}

theorem mem_freeSet {f : Nat} :
    f ∈ freeSet m ↔ 0x2000 ≤ f ∧ f < m.pmm_bitmap_len ∧ f < 2 ^ 20 ∧ m.bit f = false := by
  unfold freeSet
  rw [Finset.mem_filter, Finset.mem_range]
  constructor
  · rintro ⟨hlt, hlow, hbit⟩
    exact ⟨hlow, by omega, by omega, hbit⟩
  · rintro ⟨hlow, hlen, hwin, hbit⟩
    exact ⟨by omega, hlow, hbit⟩

theorem le_freeFrames (lo : Nat) {n : Nat} (hlow : 0x2000 ≤ lo)
    (hlen : lo + n ≤ m.pmm_bitmap_len) (hwin : lo + n ≤ 2 ^ 20)
    (hbits : ∀ f, lo ≤ f → f < lo + n → m.bit f = false) : n ≤ freeFrames m := by
  have hsub : Finset.Ico lo (lo + n) ⊆ freeSet m := by
    intro f hf
    have hf := Finset.mem_Ico.mp hf
    exact mem_freeSet.mpr ⟨by omega, by omega, by omega, hbits f hf.1 hf.2⟩
  have hcard := Finset.card_le_card hsub
  rwa [Nat.card_Ico, Nat.add_sub_cancel_left] at hcard

theorem freeFrames_le (m : Machine) : freeFrames m ≤ 2 ^ 20 := by
  refine (Finset.card_filter_le _ _).trans ?_
  rw [Finset.card_range]
  exact Nat.min_le_right _ _

theorem freeFrames_congr (hlen : m'.pmm_bitmap_len = m.pmm_bitmap_len)
    (hbit : ∀ f, f < m.pmm_bitmap_len → m'.bit f = m.bit f) : freeFrames m' = freeFrames m := by
  unfold freeFrames
  congr 1
  ext f
  rw [mem_freeSet, mem_freeSet, hlen]
  refine and_congr_right fun _ => and_congr_right fun hf => ?_
  rw [hbit f hf]

theorem freeFrames_take (hc : c ∈ freeSet m) (hlen : m'.pmm_bitmap_len = m.pmm_bitmap_len)
    (hbit : ∀ f, f < m.pmm_bitmap_len → m'.bit f = if f = c then true else m.bit f) :
    freeFrames m' + 1 = freeFrames m := by
  have herase : freeSet m' = (freeSet m).erase c := by
    ext f
    rw [Finset.mem_erase, mem_freeSet, mem_freeSet, hlen]
    constructor
    · rintro ⟨hlow, hf, hwin, hfree⟩
      rw [hbit f hf] at hfree
      split at hfree
      · cases hfree
      · next hne => exact ⟨hne, hlow, hf, hwin, hfree⟩
    · rintro ⟨hne, hlow, hf, hwin, hfree⟩
      exact ⟨hlow, hf, hwin, by rw [hbit f hf, if_neg hne, hfree]⟩
  unfold freeFrames
  rw [herase]
  exact Finset.card_erase_add_one hc

theorem Touches.bit_eq (h : Touches r m G m' G) (f : Nat) (hf : f < m.pmm_bitmap_len) :
    m'.bit f = m.bit f := by
  rw [Bool.eq_iff_iff, h.bits f hf]
  exact or_iff_left fun ⟨hnone, hsome⟩ => hsome hnone

theorem Touches.freeFrames_eq (h : Touches r m G m' G) : freeFrames m' = freeFrames m :=
  freeFrames_congr h.vars.len h.bit_eq

theorem Writes.freeFrames_eq {P : Nat → Prop} (h : Writes P m m') (hA : Accounted k m G)
    (hP : ∀ f, P f → Plain m G f) : freeFrames m' = freeFrames m :=
  freeFrames_congr h.vars.len fun _ hf => h.bit hA hP hf

theorem pmm_alloc_finds (hlen : m.pmm_bitmap_len < 2 ^ 32) (hfree : 0 < freeFrames m) :
    ∃ f, pmm_alloc 1 m = some (BitVec.ofNat 64 (4096 * f), m.take f) ∧ f ∈ freeSet m := by
  obtain ⟨f0, hf0⟩ := Finset.card_pos.mp hfree
  obtain ⟨hlow0, hlen0, hwin0, hbit0⟩ := mem_freeSet.mp hf0
  obtain ⟨p, m', hrun⟩ : ∃ p m', pmm_alloc 1 m = some (p, m') := by
    -- the first clear bit is not after that of `f0`
    refine pmm_alloc_one_returns hlen fun f _ _ _ hfirst => ?_
    by_contra hge
    rw [hfirst f0 hlow0 (by omega)] at hbit0
    cases hbit0
  rcases pmm_alloc_cases (by omega) hrun with ⟨-, -, hall⟩ | ⟨f, rfl, rfl, hlow, hlen, hwin, hbit, -⟩
  · rw [hall f0 hlow0 hlen0] at hbit0
    cases hbit0
  · exact ⟨f, hrun, mem_freeSet.mpr ⟨hlow, hlen, hwin, hbit⟩⟩

theorem Accounted.freeFrames_take (hA : Accounted k m G) {f : Nat} (hf : f ∈ freeSet m) :
    freeFrames (m.take f) + 1 = freeFrames m := by
  obtain ⟨-, hlen, -, hbit⟩ := mem_freeSet.mp hf
  exact Arch.freeFrames_take hf (m.take_vars f).len fun j hj =>
    m.take_bit hj (hA.not_bitmapFrame hlen hbit)

theorem pmm_alloc_returns (hA : Accounted k m G) (hfree : 0 < freeFrames m) :
    ∃ f, pmm_alloc 1 m = some (BitVec.ofNat 64 (4096 * f), m.take f) ∧ f ∈ freeSet m
      ∧ freeFrames (m.take f) + 1 = freeFrames m := by
  obtain ⟨f, hrun, hmem⟩ := pmm_alloc_finds hA.len hfree
  exact ⟨f, hrun, hmem, hA.freeFrames_take hmem⟩

theorem pmm_alloc_ne_null (hA : Accounted k m G) (hfree : 0 < freeFrames m) :
    pmm_alloc 1 m ≠ some (0, m') := by
  intro halloc
  obtain ⟨f, hsome, hmem, -⟩ := pmm_alloc_returns hA hfree
  obtain ⟨hlow, -, hwin, -⟩ := mem_freeSet.mp hmem
  rw [hsome] at halloc
  exact frame_ne_null hlow hwin (congrArg Prod.fst (Option.some.inj halloc))

theorem pmm_alloc_full (hA : Accounted k m G)
    (hfull : ∀ f, 0x2000 ≤ f → f < m.pmm_bitmap_len → m.bit f = true) :
    pmm_alloc 1 m = some (0, m) := by
  obtain ⟨p, m', hrun⟩ : ∃ p m', pmm_alloc 1 m = some (p, m') := by
    refine pmm_alloc_one_returns hA.len fun f hlow hlt hbit _ => ?_
    rw [hfull f hlow hlt] at hbit
    cases hbit
  rcases pmm_alloc_cases hA.bitmap_len_le hrun with ⟨rfl, rfl, -⟩ | ⟨f, -, -, hlow, hlt, -, hbit, -⟩
  · exact hrun
  · rw [hfull f hlow hlt] at hbit
    cases hbit

end Count

/-! ## §2. Tables and pages. -/

section Page

variable {k r f i : Nat} {p : List Nat} {m m' : Machine} {G : Ledger κ}

theorem vmm_get_or_alloc_ent_returns (hA : Accounted k m G) (hf : f < 2 ^ 20) (hi : i < 512)
    (hfree : child (m.slot f i) ≠ none ∨ 0 < freeFrames m) :
    ∃ t m', vmm_get_or_alloc_ent (some (4096 * f)) i higher_perms m = some (some t, m') := by
  unfold vmm_get_or_alloc_ent
  rw [Prog.bind_apply (readEnt_returns hf hi)]
  by_cases hp : m.slot f i &&& VMM_FLAG_PRESENT = 0
  · have hnone : child (m.slot f i) = none := by
      unfold child
      rw [if_pos hp]
    obtain ⟨c, halloc, hmem, -⟩ := pmm_alloc_returns hA (hfree.resolve_left fun h => h hnone)
    obtain ⟨hlow, -, hwin, -⟩ := mem_freeSet.mp hmem
    have haddr := toNat_addr (f := c) (by omega)
    rw [if_pos hp, Prog.bind_apply halloc, Prog.bind_apply (writeEnt_returns hf hi _),
      if_neg (frame_ne_null hlow hwin),
      Prog.bind_apply (readEnt_returns hf hi), Prog.bind_apply (writeEnt_returns hf hi _),
      Prog.bind_apply (memset_page_eq_some (u := ()).mpr
        ⟨by rw [haddr, phys_window_eq]; omega, rfl⟩)]
    exact ⟨_, _, rfl⟩
  · rw [if_neg hp]
    exact ⟨_, _, rfl⟩

theorem Enter.freeFrames_le {c : Nat} (he : Enter m f i m' c) (hA : Accounted k m G)
    (hf : ¬ m.BitmapFrame f) (hi : i < 512) : freeFrames m ≤ freeFrames m' + 1 := by
  cases he with
  | present _ _ => omega
  | linked _ hnone hlow hlen hwin hbit =>
    refine (freeFrames_take (mem_freeSet.mpr ⟨hlow, hlen, hwin, hbit⟩) (m.link_vars f i c).len
      fun j hj => ?_).ge
    exact m.link_bit hi hj hf (hA.not_bitmapFrame hlen hbit)

theorem vmm_map_pages_one_apply {pml4 virt phys perms : U64}
    (h : vmm_map_page pml4 virt phys perms m = some ((), m')) :
    vmm_map_pages pml4 virt phys 1 perms m = some (1, m') := by
  unfold vmm_map_pages
  rw [Prog.bind_apply h]
  rfl

end Page

/-! ## §3. Emptying the window. -/

section Unmap

variable {k r f i : Nat} {m : Machine} {G : Ledger κ}

theorem vmm_get_or_null_ent_returns (hf : f < 2 ^ 20) (hi : i < 512) :
    vmm_get_or_null_ent (some (4096 * f)) i m = some ((child (m.slot f i)).map (4096 * ·), m) := by
  unfold vmm_get_or_null_ent child
  rw [Prog.bind_apply (readEnt_returns hf hi)]
  split
  · rfl
  · unfold entTable
    rw [toNat_and_addr_mask]
    rfl

theorem vmm_find_pt_returns (hA : Accounted k m G) (hr : G r = some (.table r []))
    {pml4 virt : U64} (hpml4 : pml4.toNat = 4096 * r) (hv : pageOf virt < 2 ^ 35) :
    ∃ o, vmm_find_pt pml4 virt m = some (o, m) := by
  obtain ⟨hp1, hp2, hp3⟩ := inner_levels hv
  simp only [vmm_find_pt, vmm_virt_to_offs_eq, ctxTable, hpml4]
  rw [Prog.bind_apply (vmm_get_or_null_ent_returns (hA.managed r _ hr).window (slot_lt _))]
  cases h1 : child (m.slot r (pageOf virt / 2 ^ 27 % 512)) with
  | none => exact ⟨none, rfl⟩
  | some c1 =>
    have w1 : Forest.walk child m.slot r ([] ++ [pageOf virt / 2 ^ 27 % 512]) = some c1 := by
      rw [Forest.walk_snoc]
      exact h1
    simp only [Option.map_some]
    rw [Prog.bind_apply (vmm_get_or_null_ent_returns
      (hA.managed c1 _ (hA.walk_typed hr hp1 w1)).window (slot_lt _))]
    cases h2 : child (m.slot c1 (pageOf virt / 2 ^ 18 % 512)) with
    | none => exact ⟨none, rfl⟩
    | some c2 =>
      have w2 : Forest.walk child m.slot r
          (([] ++ [pageOf virt / 2 ^ 27 % 512]) ++ [pageOf virt / 2 ^ 18 % 512]) = some c2 := by
        rw [Forest.walk_snoc, w1]
        exact h2
      exact ⟨_, vmm_get_or_null_ent_returns
        (hA.managed c2 _ (hA.walk_typed hr hp2 w2)).window (slot_lt _)⟩

theorem vmm_unmap_page_returns (hA : Accounted k m G) (hr : G r = some (.table r []))
    {pml4 virt : U64} (hpml4 : pml4.toNat = 4096 * r) (hv : pageOf virt < 2 ^ 35) :
    ∃ j m', vmm_unmap_pages pml4 virt 1 m = some (j, m')
      ∧ m'.pmm_free_pages = m.pmm_free_pages := by
  obtain ⟨o, hfind⟩ := vmm_find_pt_returns hA hr hpml4 hv
  unfold vmm_unmap_pages
  rw [Prog.bind_apply hfind]
  obtain ⟨-, ⟨rfl, -⟩ | ⟨pt, rfl, ht⟩⟩ := vmm_find_pt_cases hpml4 hfind
  · exact ⟨0, m, rfl, rfl⟩
  · have hpt := (hA.managed pt _ (hA.table_typed hr hv ht)).window
    simp only [vmm_virt_to_offs_eq]
    rw [Prog.bind_apply (writeEnt_returns hpt (Nat.mod_lt _ (by decide)) 0)]
    exact ⟨1, _, rfl, rfl⟩

theorem windowUnmap_returns (size : Nat) (virt : U64) (m : Machine) (hA : Accounted k m G)
    (hk : m.kernel_pml4.toNat = 4096 * k) (hfits : pageOf virt + size ≤ 2 ^ 35) :
    ∃ m', windowUnmap virt size m = some ((), m') := by
  induction size generalizing virt m with
  | zero =>
    exact ⟨m, rfl⟩
  | succ size ih =>
    have hv : pageOf virt < 2 ^ 35 := by omega
    obtain ⟨j, m1, hrun, -⟩ := vmm_unmap_page_returns hA hA.kernel hk hv
    obtain ⟨hA1, ht, -⟩ := vmm_unmap_page_touches hA hA.kernel hk hv hrun
    obtain ⟨m', hrest⟩ := ih (virt + 0x1000) m1 hA1 (by rw [ht.vars.kernel]; exact hk)
      (by rw [pageOf_succ hv]; omega)
    refine ⟨m', ?_⟩
    unfold windowUnmap
    rw [Prog.bind_apply (Prog.read_eq_some.mpr ⟨rfl, rfl⟩), Prog.bind_apply hrun]
    exact hrest

end Unmap

end Quack.Arch
