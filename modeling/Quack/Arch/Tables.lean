/-
  Quack.Arch.Tables
  **FOUR LEVELS OF TABLES, read as a forest.**

  A table is known by its frame, an entry by what it links (`child`), a page by
  its number `v = virt / 4096`.  The functions of `vmm.cpp` are then walks.

  Nothing here depends on what the tables contain.
-/
import Quack.Arch.Vmm
import Quack.Lib.Forest

namespace Quack.Arch

open Lib

/-! ## §1. Entries. -/

/-- The frame an entry names. -/
def frameOf (ent : U64) : Nat := ent.toNat % 2 ^ 63 / 4096

/-- The address in an entry is that of its frame. -/
theorem toNat_and_addr_mask (ent : U64) : (ent &&& VMM_ADDR_MASK).toNat = 4096 * frameOf ent := by
  have hmask : VMM_ADDR_MASK.toNat = (2 ^ 51 - 1) <<< 12 := by decide
  have hframe : 4096 * frameOf ent = (ent.toNat % 2 ^ 63) >>> 12 <<< 12 := by
    unfold frameOf
    rw [Nat.shiftLeft_eq, Nat.shiftRight_eq_div_pow, Nat.mul_comm]
  rw [BitVec.toNat_and, hmask, hframe]
  apply Nat.eq_of_testBit_eq
  intro i
  rw [Nat.testBit_and, Nat.testBit_shiftLeft, Nat.testBit_shiftLeft, Nat.testBit_shiftRight,
    Nat.testBit_mod_two_pow, Nat.testBit_two_pow_sub_one]
  by_cases hi : 12 ≤ i
  · have h1 : 12 + (i - 12) = i := by omega
    have h2 : decide (i - 12 < 51) = decide (i < 63) := by
      rw [decide_eq_decide]
      omega
    simp [hi, h1, h2, Bool.and_comm]
  · simp [hi]

/-- Nine bits of an address, as a number. -/
theorem toNat_field (virt : U64) (k : Nat) (hk : k ≤ 39) :
    ((virt &&& 0x1ff#64 <<< k) >>> k).toNat = virt.toNat / 2 ^ k % 512 := by
  have hmask : (0x1ff#64 <<< k).toNat = 0x1ff <<< k := by
    rw [BitVec.toNat_shiftLeft]
    apply Nat.mod_eq_of_lt
    rw [Nat.shiftLeft_eq]
    have : (2:Nat) ^ k ≤ 2 ^ 39 := Nat.pow_le_pow_right (by omega) hk
    have h511 : (0x1ff#64).toNat = 511 := rfl
    rw [h511]
    omega
  rw [BitVec.toNat_ushiftRight, BitVec.toNat_and, hmask, Nat.shiftRight_and_distrib,
    Nat.shiftLeft_shiftRight, Nat.shiftRight_eq_div_pow]
  exact Nat.and_two_pow_sub_one_eq_mod _ 9

/-- The present bit is the lowest. -/
theorem and_present_eq_zero (ent : U64) : ent &&& VMM_FLAG_PRESENT = 0 ↔ ent.toNat % 2 = 0 := by
  have h : (ent &&& VMM_FLAG_PRESENT).toNat = ent.toNat % 2 := by
    rw [BitVec.toNat_and]
    exact Nat.and_two_pow_sub_one_eq_mod _ 1
  rw [← h]
  constructor
  · intro he
    rw [he]
    rfl
  · intro he
    exact BitVec.eq_of_toNat_eq he

/-- The large bit is bit 7. -/
theorem and_large_eq_zero (ent : U64) :
    ent &&& VMM_FLAG_LARGE = 0 ↔ ent.getLsbD 7 = false := by
  have h : VMM_FLAG_LARGE = BitVec.twoPow 64 7 := rfl
  rw [h, BitVec.and_twoPow]
  cases hb : ent.getLsbD 7 with
  | true =>
    have hne : ¬ BitVec.twoPow 64 7 = 0#64 := by decide
    simp [hne]
  | false => simp

/-- The table an entry links, if it is present. -/
def child (ent : U64) : Option Nat :=
  if ent &&& VMM_FLAG_PRESENT = 0 then none else some (frameOf ent)

variable {c r off f : Nat} {ent pml4 virt : U64} {m m' : Machine} {tab o : Table}

/-- A present entry leads to its frame. -/
theorem frameOf_eq_of_child (h : child ent = some c) : frameOf ent = c := by
  unfold child at h
  split at h
  · cases h
  · injection h

/-- The entry that links table `c`. -/
def tableEnt (c : Nat) : U64 := BitVec.ofNat 64 (4096 * c) ||| (higher_perms ||| VMM_FLAG_PRESENT)

theorem toNat_tableEnt (hc : c < 2 ^ 51) : (tableEnt c).toNat = 4096 * c + 7 := by
  have hflags : (higher_perms ||| VMM_FLAG_PRESENT).toNat = 7 := rfl
  have hshift : 4096 * c = c <<< 12 := by
    rw [Nat.shiftLeft_eq, Nat.mul_comm]
  unfold tableEnt
  rw [BitVec.toNat_or, hflags, BitVec.toNat_ofNat, Nat.mod_eq_of_lt (by omega), hshift]
  exact (Nat.shiftLeft_add_eq_or_of_lt (by omega) c).symm

/-- An entry for a table leads to the table, -/
theorem child_tableEnt (hc : c < 2 ^ 51) : child (tableEnt c) = some c := by
  have ht := toNat_tableEnt hc
  unfold child frameOf
  rw [if_neg, ht]
  · congr 1
    omega
  · rw [and_present_eq_zero, ht]
    omega

/-- and is not a large page. -/
theorem large_tableEnt (hc : c < 2 ^ 51) : tableEnt c &&& VMM_FLAG_LARGE = 0 := by
  rw [and_large_eq_zero, BitVec.getLsbD, toNat_tableEnt hc, Nat.testBit, Nat.shiftRight_eq_div_pow]
  simp
  omega

theorem child_zero : child 0 = none := rfl

/-! ## §2. Pages and their paths. -/

/-- The page an address lies in. -/
def pageOf (virt : U64) : Nat := virt.toNat / 4096

/-- The frame of a context's root. -/
def rootOf (ctx : U64) : Nat := ctx.toNat / 4096

/-- The frame of a root. -/
theorem rootOf_eq {ctx : U64} (h : ctx.toNat = 4096 * r) : rootOf ctx = r := by
  unfold rootOf
  omega

/-- The slots from the root to the last table of page `v`. -/
def pagePath (v : Nat) : List Nat := [v / 2 ^ 27 % 512, v / 2 ^ 18 % 512, v / 2 ^ 9 % 512]

/-- The four offsets, from the number of the page. -/
theorem vmm_virt_to_offs_eq (virt : U64) :
    vmm_virt_to_offs virt
      = ⟨pageOf virt / 2 ^ 27 % 512, pageOf virt / 2 ^ 18 % 512, pageOf virt / 2 ^ 9 % 512,
          pageOf virt % 512⟩ := by
  unfold vmm_virt_to_offs pageOf
  rw [toNat_field virt 39 (by omega), toNat_field virt 30 (by omega),
    toNat_field virt 21 (by omega), toNat_field virt 12 (by omega),
    Nat.div_div_eq_div_mul, Nat.div_div_eq_div_mul, Nat.div_div_eq_div_mul]
  norm_num

/-- **A page is its path and its last offset.** -/
theorem pagePath_inj {v w : Nat} (hv : v < 2 ^ 36) (hw : w < 2 ^ 36)
    (hpath : pagePath v = pagePath w) (hlast : v % 512 = w % 512) : v = w := by
  unfold pagePath at hpath
  injection hpath with h1 hpath
  injection hpath with h2 hpath
  injection hpath with h3 _
  omega

namespace Machine

/-- The last table of page `v` under root `r`. -/
def table (m : Machine) (r v : Nat) : Option Nat := Forest.walk child m.slot r (pagePath v)

/-- The entry of page `v` under root `r`; 0 if a table is missing. -/
def entry (m : Machine) (r v : Nat) : U64 :=
  match m.table r v with
  | none => 0
  | some f => m.slot f (v % 512)

/-- Link the empty table `c` in slot `i` of table `f`. -/
def link (m : Machine) (f i c : Nat) : Machine :=
  ((m.take c).setWord (512 * f + i) (tableEnt c)).zeroWords (512 * c) 512

/-- Linking a table clears it and writes one entry. -/
theorem link_slot (m : Machine) {f i c g j : Nat} (hc : c < m.pmm_bitmap_len) (hi : i < 512)
    (hj : j < 512) (hg : ¬ m.BitmapFrame g) :
    (m.link f i c).slot g j
      = if g = c then 0 else if g = f ∧ j = i then tableEnt c else m.slot g j := by
  unfold link
  by_cases hgc : g = c
  · subst hgc
    rw [if_pos rfl, zeroWords_slot_self _ hj]
  · rw [if_neg hgc, zeroWords_slot_ne _ hj hgc, setWord_slot _ _ hi hj]
    split
    · rfl
    · exact m.take_slot hc hj hg hgc

/-- The bitmap gets the bit of the table. -/
theorem link_bit (m : Machine) {f i c idx : Nat} (hi : i < 512) (hidx : idx < m.pmm_bitmap_len)
    (hf : ¬ m.BitmapFrame f) (hc : ¬ m.BitmapFrame c) :
    (m.link f i c).bit idx = if idx = c then true else m.bit idx := by
  have hlen : idx < (m.take c).pmm_bitmap_len := by
    rw [m.take_pmm_bitmap_len]
    exact hidx
  have hframe : ∀ g, (m.take c).BitmapFrame g ↔ m.BitmapFrame g := by
    intro g
    unfold BitmapFrame
    rw [m.take_pmm_bitmap_len]
  have hdiv : (512 * f + i) / 512 = f := by omega
  have hzero : (m.link f i c).bit idx = ((m.take c).setWord (512 * f + i) (tableEnt c)).bit idx :=
    zeroWords_bit _ hlen (fun hb => hc ((hframe c).mp hb))
  rw [hzero, setWord_bit _ _ hlen (by rw [hdiv, hframe]; exact hf), m.take_bit hidx hc]

end Machine

/-! ## §3. What the functions do. -/

/-- What reading an entry needs, and gives. -/
theorem readEnt_eq_some (h : readEnt tab off m = some (ent, m')) :
    ∃ t, tab = some t ∧ t + 8 * off < phys_window ∧ m.mem ((t + 8 * off) / 8) = ent ∧ m = m' := by
  simp only [readEnt, Prog.bind_eq_some, Prog.ofOption_eq_some, load64_eq_some] at h
  obtain ⟨t, _, ⟨ht, rfl⟩, hwin, hent, rfl⟩ := h
  exact ⟨t, ht, hwin, hent, rfl⟩

/-- What writing an entry needs, and does. -/
theorem writeEnt_eq_some {u : Unit}
    (h : writeEnt tab off ent m = some (u, m')) :
    ∃ t, tab = some t ∧ t + 8 * off < phys_window ∧ m' = m.setWord ((t + 8 * off) / 8) ent := by
  simp only [writeEnt, Prog.bind_eq_some, Prog.ofOption_eq_some, store64_eq_some] at h
  obtain ⟨t, _, ⟨ht, rfl⟩, hwin, rfl⟩ := h
  exact ⟨t, ht, hwin, rfl⟩

theorem entry_word (f off : Nat) : (4096 * f + 8 * off) / 8 = 512 * f + off := by omega

/-- Entries of tables in the window can be read, -/
theorem readEnt_returns {tab : Nat} (h : tab < 2 ^ 20) (hoff : off < 512) :
    readEnt (some (4096 * tab)) off m = some (m.slot tab off, m) := by
  unfold readEnt
  rw [Prog.bind_apply (Prog.ofOption_eq_some.mpr ⟨rfl, rfl⟩)]
  refine load64_eq_some.mpr ⟨?_, ?_, rfl⟩
  · rw [phys_window_eq]
    omega
  · rw [entry_word]
    rfl

/-- and written. -/
theorem writeEnt_returns {tab : Nat} (h : tab < 2 ^ 20) (hoff : off < 512)
    (ent : U64) :
    writeEnt (some (4096 * tab)) off ent m = some ((), m.setWord (512 * tab + off) ent) := by
  unfold writeEnt
  rw [Prog.bind_apply (Prog.ofOption_eq_some.mpr ⟨rfl, rfl⟩)]
  refine store64_eq_some.mpr ⟨?_, ?_⟩
  · rw [phys_window_eq]
    omega
  · rw [entry_word]

/-- A lookup follows the entry and changes nothing. -/
theorem vmm_get_or_null_ent_spec (h : vmm_get_or_null_ent (some (4096 * f)) off m = some (o, m')) :
    m = m' ∧ o = (child (m.slot f off)).map (4096 * ·) := by
  unfold vmm_get_or_null_ent at h
  rw [Prog.bind_eq_some] at h
  obtain ⟨ent, _, hread, h⟩ := h
  obtain ⟨_, ht, -, hent, rfl⟩ := readEnt_eq_some hread
  injection ht with ht
  subst ht
  rw [entry_word] at hent
  unfold child Machine.slot
  rw [hent]
  by_cases hp : ent &&& VMM_FLAG_PRESENT = 0
  · simp only [if_pos hp, Prog.pure_eq_some] at h ⊢
    exact ⟨h.2, h.1.symm⟩
  · simp only [if_neg hp, Prog.pure_eq_some] at h ⊢
    refine ⟨h.2, ?_⟩
    rw [← h.1, entTable, toNat_and_addr_mask]
    rfl

/-- **The walk of the lookups.** -/
theorem vmm_find_pt_spec (hr : pml4.toNat = 4096 * r) (h : vmm_find_pt pml4 virt m = some (o, m')) :
    m = m' ∧ o = (m.table r (pageOf virt)).map (4096 * ·) := by
  unfold vmm_find_pt ctxTable at h
  rw [vmm_virt_to_offs_eq, hr] at h
  simp only [Prog.bind_eq_some] at h
  obtain ⟨o1, _, h1, h⟩ := h
  obtain ⟨rfl, rfl⟩ := vmm_get_or_null_ent_spec h1
  unfold Machine.table pagePath
  rw [Forest.walk_cons]
  cases hc1 : child (m.slot r (pageOf virt / 2 ^ 27 % 512)) with
  | none =>
    rw [hc1] at h
    simp only [Option.map_none, Prog.pure_eq_some] at h
    exact ⟨h.2, h.1.symm⟩
  | some pdp =>
    rw [hc1] at h
    simp only [Option.map_some, Prog.bind_eq_some] at h
    obtain ⟨o2, _, h2, h⟩ := h
    obtain ⟨rfl, rfl⟩ := vmm_get_or_null_ent_spec h2
    rw [Option.bind_some, Forest.walk_cons]
    cases hc2 : child (m.slot pdp (pageOf virt / 2 ^ 18 % 512)) with
    | none =>
      rw [hc2] at h
      simp only [Option.map_none, Prog.pure_eq_some] at h
      exact ⟨h.2, h.1.symm⟩
    | some pd =>
      rw [hc2] at h
      simp only [Option.map_some] at h
      obtain ⟨rfl, rfl⟩ := vmm_get_or_null_ent_spec h
      refine ⟨rfl, ?_⟩
      rw [Option.bind_some, Forest.walk_cons]
      cases child (m.slot pd (pageOf virt / 2 ^ 9 % 512)) <;> rfl

/-- Entering slot `i` of table `f`: the child is there, or a fresh empty table
is linked. -/
inductive Enter (m : Machine) (f i : Nat) : Machine → Nat → Prop
  | present (c : Nat) : child (m.slot f i) = some c → Enter m f i m c
  | linked (c : Nat) : child (m.slot f i) = none → 0x2000 ≤ c → c < m.pmm_bitmap_len →
      c < 2 ^ 20 → m.bit c = false → Enter m f i (m.link f i c) c

theorem Machine.setWord_setWord (m : Machine) (w : Nat) (a b : U64) :
    (m.setWord w a).setWord w b = m.setWord w b := by
  unfold Machine.setWord
  simp only [Function.update_idem]

/-- **What `vmm_get_or_alloc_ent` does**, when it does not return `NULL`. -/
theorem vmm_get_or_alloc_ent_spec {t : Nat}
    (hlen : m.pmm_bitmap_len ≤ 2 ^ 63)
    (h : vmm_get_or_alloc_ent (some (4096 * f)) off higher_perms m = some (some t, m')) :
    ∃ c, t = 4096 * c ∧ Enter m f off m' c := by
  unfold vmm_get_or_alloc_ent at h
  rw [Prog.bind_eq_some] at h
  obtain ⟨ent, _, hread, h⟩ := h
  obtain ⟨_, ht, -, hent, rfl⟩ := readEnt_eq_some hread
  injection ht with ht
  subst ht
  rw [entry_word] at hent
  by_cases hp : ent &&& VMM_FLAG_PRESENT = 0
  · have hnone : child (m.slot f off) = none := by
      unfold child Machine.slot
      rw [hent, if_pos hp]
    simp only [if_pos hp, Prog.bind_eq_some] at h
    obtain ⟨p, m1, halloc, _, m2, hw, h⟩ := h
    obtain ⟨_, ht, -, rfl⟩ := writeEnt_eq_some hw
    injection ht with ht
    subst ht
    rcases pmm_alloc_cases hlen halloc with ⟨rfl, -, -⟩ | ⟨c, rfl, rfl, hlo, hhi, hwin, hbit, -⟩
    · simp at h
    · have haddr := toNat_addr (f := c) (by omega)
      simp only [if_neg (frame_ne_null hlo hwin), Prog.bind_eq_some, memset_page_eq_some,
        Prog.pure_eq_some] at h
      obtain ⟨ent', m3, hread', _, m4, hw', _, m5, ⟨-, rfl⟩, htab, rfl⟩ := h
      obtain ⟨_, ht, -, hent', rfl⟩ := readEnt_eq_some hread'
      injection ht with ht
      subst ht
      obtain ⟨_, ht, -, rfl⟩ := writeEnt_eq_some hw'
      injection ht with ht
      subst ht
      rw [entry_word, Machine.setWord_mem_self] at hent'
      subst hent'
      refine ⟨c, ?_, ?_⟩
      · injection htab with htab
        rw [← htab, toNat_and_addr_mask, frameOf, haddr]
        omega
      · have hword : 4096 * c / 8 = 512 * c := by omega
        rw [entry_word, Machine.setWord_setWord, haddr, hword]
        exact Enter.linked c hnone hlo hhi hwin hbit
  · simp only [if_neg hp, Prog.pure_eq_some] at h
    obtain ⟨htab, rfl⟩ := h
    injection htab with htab
    refine ⟨frameOf ent, by rw [← htab, toNat_and_addr_mask], Enter.present _ ?_⟩
    unfold child Machine.slot
    rw [hent, if_neg hp]

/-- Below `NULL` there is no table to enter. -/
theorem vmm_get_or_alloc_ent_table {flags : U64}
    (h : vmm_get_or_alloc_ent tab off flags m = some (o, m')) : ∃ t, tab = some t := by
  unfold vmm_get_or_alloc_ent at h
  rw [Prog.bind_eq_some] at h
  obtain ⟨_, _, hread, -⟩ := h
  obtain ⟨t, ht, -⟩ := readEnt_eq_some hread
  exact ⟨t, ht⟩

/-- Linking changes no variable but the count. -/
theorem Machine.link_vars (m : Machine) (f i c : Nat) : m.SameVars (m.link f i c) :=
  (m.take_vars c).trans ⟨rfl, rfl, rfl, rfl⟩

/-- Entering a table keeps the length of the bitmap. -/
theorem Enter.pmm_bitmap_len {i : Nat} (h : Enter m f i m' c) :
    m'.pmm_bitmap_len = m.pmm_bitmap_len := by
  cases h with
  | present => rfl
  | linked => exact (m.link_vars f i c).len

/-- **What `vmm_map_page` does**: three tables entered, one word written. -/
theorem vmm_map_page_spec {phys perms : U64} {u : Unit}
    (hlen : m.pmm_bitmap_len ≤ 2 ^ 63) (hr : pml4.toNat = 4096 * r)
    (h : vmm_map_page pml4 virt phys perms m = some (u, m')) :
    ∃ m1 c1 m2 c2 m3 c3,
      Enter m r (pageOf virt / 2 ^ 27 % 512) m1 c1
      ∧ Enter m1 c1 (pageOf virt / 2 ^ 18 % 512) m2 c2
      ∧ Enter m2 c2 (pageOf virt / 2 ^ 9 % 512) m3 c3
      ∧ m' = m3.setWord (512 * c3 + pageOf virt % 512) (phys ||| perms ||| VMM_FLAG_PRESENT) := by
  unfold vmm_map_page ctxTable at h
  rw [vmm_virt_to_offs_eq, hr] at h
  simp only [Prog.bind_eq_some] at h
  obtain ⟨pdp, m1, h1, pd, m2, h2, pt, m3, h3, hw⟩ := h
  obtain ⟨t1, rfl⟩ := vmm_get_or_alloc_ent_table h2
  obtain ⟨t2, rfl⟩ := vmm_get_or_alloc_ent_table h3
  obtain ⟨t3, rfl, -, rfl⟩ := writeEnt_eq_some hw
  obtain ⟨c1, rfl, e1⟩ := vmm_get_or_alloc_ent_spec hlen h1
  have hlen1 : m1.pmm_bitmap_len ≤ 2 ^ 63 := e1.pmm_bitmap_len ▸ hlen
  obtain ⟨c2, rfl, e2⟩ := vmm_get_or_alloc_ent_spec hlen1 h2
  have hlen2 : m2.pmm_bitmap_len ≤ 2 ^ 63 := e2.pmm_bitmap_len ▸ hlen1
  obtain ⟨c3, rfl, e3⟩ := vmm_get_or_alloc_ent_spec hlen2 h3
  refine ⟨m1, c1, m2, c2, m3, c3, e1, e2, e3, ?_⟩
  rw [entry_word]

end Quack.Arch
