/-
  Quack.Arch.Contexts
  **CREATING A CONTEXT, and what its tables translate.**

  After `vmm_init`, `vmm_new_address_space` takes one frame, clears it and
  copies the upper half of the kernel's root.  Without a free frame it builds
  the table at physical address 0 and returns `NULL`.
-/
import Quack.Arch.Footprint

namespace Quack.Arch

open Lib

variable {κ : Type}

/-! ## §1. A new root. -/

namespace Machine

/-- An empty lower half and the upper half of table `k`, in frame `f`. -/
def freshRoot (m : Machine) (f k : Nat) : Machine :=
  (m.zeroWords (512 * f) 512).copyWords (512 * f + 256) (512 * k + 256) 256

theorem freshRoot_slot (m : Machine) {f k g j : Nat} (hj : j < 512) (hne : f ≠ k) :
    (m.freshRoot f k).slot g j
      = if g = f then (if j < 256 then 0 else m.slot k j) else m.slot g j := by
  unfold freshRoot copyWords zeroWords slot
  simp only
  by_cases hg : g = f
  · subst hg
    rw [if_pos rfl]
    by_cases h256 : j < 256
    · rw [if_neg (by omega), if_pos (by omega), if_pos h256]
    · rw [if_pos (by omega), if_neg (by omega), if_neg h256]
      have hword : 512 * k + 256 + (512 * g + j - (512 * g + 256)) = 512 * k + j := by omega
      rw [hword]
  · rw [if_neg (by omega), if_neg (by omega), if_neg hg]

theorem freshRoot_bit (m : Machine) {f k idx : Nat} (hidx : idx < m.pmm_bitmap_len)
    (hf : ¬ m.BitmapFrame f) : (m.freshRoot f k).bit idx = m.bit idx := by
  have hout : ∀ n, n ≤ 512 → ¬ (512 * f + n ≤ 0x400000 + idx / 64
      ∧ 0x400000 + idx / 64 < 512 * f + 512) := by
    intro n _ he
    apply hf
    unfold BitmapFrame
    omega
  unfold freshRoot copyWords zeroWords bit
  simp only
  have h256 := hout 256 (by omega)
  have h0 := hout 0 (by omega)
  rw [if_neg (by omega), if_neg (by omega)]

end Machine

variable {ehdr : Option (List Elf64Phdr)} {k r v : Nat} {m m' : Machine} {G : Ledger κ}

theorem vmm_new_address_space_cases {p : U64}
    (hlen : m.pmm_bitmap_len ≤ 2 ^ 63)
    (hk : m.kernel_pml4.toNat = 4096 * k) (hpos : 0 < k)
    (h : vmm_new_address_space ehdr m = some (p, m')) :
    (p = 0 ∧ m' = m.freshRoot 0 k
        ∧ ∀ f, 0x2000 ≤ f → f < m.pmm_bitmap_len → m.bit f = true)
    ∨ ∃ c, p = BitVec.ofNat 64 (4096 * c) ∧ m' = (m.take c).freshRoot c k ∧ 0x2000 ≤ c
        ∧ c < m.pmm_bitmap_len ∧ c < 2 ^ 20 ∧ m.bit c = false := by
  have hsrc : (4096 * k + 2048) / 8 = 512 * k + 256 := by omega
  have hkernel : m.kernel_pml4 ≠ 0 := by
    intro he
    rw [he] at hk
    have hzero : (0 : U64).toNat = 0 := rfl
    omega
  unfold vmm_new_address_space at h
  simp only [Prog.bind_eq_some, memset_page_eq_some, Prog.read_eq_some] at h
  obtain ⟨p', m1, halloc, _, m2, ⟨-, rfl⟩, kp, m3, ⟨rfl, rfl⟩, h⟩ := h
  rcases pmm_alloc_cases hlen halloc with
    ⟨rfl, rfl, hfull⟩ | ⟨c, rfl, rfl, hlow, hclen, hwin, hbit, -⟩
  · have hvar : ((m1.zeroWords ((0 : U64).toNat / 8) 512).kernel_pml4) = m1.kernel_pml4 := rfl
    rw [hvar] at h
    simp only [if_pos hkernel, Prog.bind_eq_some, memcpy_half_page_eq_some,
      Prog.pure_eq_some] at h
    obtain ⟨_, m4, ⟨-, rfl⟩, rfl, rfl⟩ := h
    rw [hk, hsrc]
    exact Or.inl ⟨rfl, rfl, hfull⟩
  · have hvar : (((m.take c).zeroWords ((BitVec.ofNat 64 (4096 * c)).toNat / 8) 512).kernel_pml4)
        = m.kernel_pml4 := (m.take_vars c).kernel
    have haddr := toNat_addr (f := c) (by omega)
    have hdst : (4096 * c + 2048) / 8 = 512 * c + 256 := by omega
    have hword : 4096 * c / 8 = 512 * c := by omega
    rw [hvar] at h
    simp only [if_pos hkernel, Prog.bind_eq_some, memcpy_half_page_eq_some,
      Prog.pure_eq_some, haddr, hword] at h
    obtain ⟨_, m4, ⟨-, rfl⟩, rfl, rfl⟩ := h
    rw [hk, hsrc, hdst]
    exact Or.inr ⟨c, rfl, rfl, hlow, hclen, hwin, hbit⟩

/-- Contents of used frames, bits and static variables stay. -/
structure Kept (m : Machine) (G : Ledger κ) (m' : Machine) : Prop where
  vars : m.SameVars m'
  slots : ∀ f u j, G f = some u → j < 512 → m'.slot f j = m.slot f j

section Root

variable {k c : Nat} {m : Machine} {G : Ledger κ}

theorem Accounted.root_at_null (h : Accounted k m G) :
    Kept m G (m.freshRoot 0 k) ∧ Accounted k (m.freshRoot 0 k) G
      ∧ (∀ f, f < m.pmm_bitmap_len → (m.freshRoot 0 k).bit f = m.bit f)
      ∧ ∀ j, j < 256 → (m.freshRoot 0 k).slot 0 j = 0 := by
  have hklow := (h.managed k _ h.kernel).low
  have hnb : ¬ m.BitmapFrame 0 := by
    unfold Machine.BitmapFrame
    omega
  have hbits : ∀ f, f < m.pmm_bitmap_len → (m.freshRoot 0 k).bit f = m.bit f :=
    fun f hf => m.freshRoot_bit hf hnb
  have hslots : ∀ f u j, G f = some u → j < 512 → (m.freshRoot 0 k).slot f j = m.slot f j := by
    intro f u j hf hj
    have := (h.managed f u hf).low
    rw [m.freshRoot_slot hj (by omega), if_neg (by omega)]
  refine ⟨⟨⟨rfl, rfl, rfl, rfl⟩, hslots⟩, ?_, hbits, ?_⟩
  · refine h.congr (show (m.freshRoot 0 k).pmm_bitmap_len = _ from rfl) ?_ ?_
    · intro f u j hf _ hj
      exact hslots f u j hf hj
    · intro f hf hset _
      rw [hbits f hf]
      exact hset
  · intro j hj
    rw [m.freshRoot_slot (by omega) (by omega), if_pos rfl, if_pos hj]

variable (h : Accounted k m G) (hlen : c < m.pmm_bitmap_len) (hbit : m.bit c = false)

include h hlen hbit

theorem Accounted.freshRoot_bits {f : Nat} (hf : f < m.pmm_bitmap_len) :
    ((m.take c).freshRoot c k).bit f = if f = c then true else m.bit f := by
  have hnb := h.not_bitmapFrame hlen hbit
  have hframe : (m.take c).BitmapFrame c ↔ m.BitmapFrame c := by
    unfold Machine.BitmapFrame
    rw [m.take_pmm_bitmap_len]
  rw [(m.take c).freshRoot_bit (by rw [m.take_pmm_bitmap_len]; exact hf)
    (by rw [hframe]; exact hnb), m.take_bit hf hnb]

theorem Accounted.freshRoot_slots :
    (∀ f u j, G f = some u → j < 512 → ((m.take c).freshRoot c k).slot f j = m.slot f j)
    ∧ ∀ j, j < 512 → ((m.take c).freshRoot c k).slot c j = if j < 256 then 0 else m.slot k j := by
  have hfree := h.free_of_bit hbit
  have hused : ∀ f u, G f = some u → f ≠ c := by
    rintro f u hf rfl
    rw [hfree] at hf
    cases hf
  have hck := (hused k _ h.kernel).symm
  constructor
  · intro f u j hf hj
    rw [(m.take c).freshRoot_slot hj hck, if_neg (hused f u hf),
      m.take_slot hlen hj (h.managed f u hf).bitmap (hused f u hf)]
  · intro j hj
    rw [(m.take c).freshRoot_slot hj hck, if_pos rfl,
      m.take_slot hlen hj (h.managed k _ h.kernel).bitmap hck.symm]

theorem Accounted.root_at (hlow : 0x2000 ≤ c) (hwin : c < 2 ^ 20) :
    Kept m G ((m.take c).freshRoot c k)
      ∧ Accounted k ((m.take c).freshRoot c k) (Function.update G c (some (.table c []))) := by
  have hfree := h.free_of_bit hbit
  obtain ⟨hslots, hnew⟩ := h.freshRoot_slots hlen hbit
  have hvars : m.SameVars ((m.take c).freshRoot c k) :=
    (m.take_vars c).trans ⟨rfl, rfl, rfl, rfl⟩
  have hold : Accounted k ((m.take c).freshRoot c k) G := by
    refine h.congr hvars.len ?_ ?_
    · intro f u j hf _ hj
      exact hslots f u j hf hj
    · intro f hf hset _
      rw [h.freshRoot_bits hlen hbit hf]
      split
      · rfl
      · exact hset
  have hman : Managed ((m.take c).freshRoot c k) c := by
    obtain ⟨h1, h2, h3, -, h5⟩ := h.managed_take hlow hlen hwin hbit
    exact ⟨h1, h2, h3, by rw [h.freshRoot_bits hlen hbit hlen, if_pos rfl], h5⟩
  refine ⟨⟨hvars, hslots⟩, hold.enroll hfree hman ?_ ?_ ?_⟩
  · intro r q hu
    injection hu with h1 h2
    exact Or.inl ⟨h2.symm, h1⟩
  · intro i hi u' hu'
    rw [hnew i hi]
    by_cases h256 : i < 256
    · rw [if_pos h256]
      exact Or.inl rfl
    · rw [if_neg h256, ← hslots k _ i h.kernel hi]
      have hchild : (Use.table k [] : Use κ).child i = some u' := by
        rw [← hu']
        simp [Use.child, Nat.le_of_not_lt h256]
      rcases hold.slots k _ i h.kernel hi u' hchild with h0 | hlink | ⟨⟨q, hq, -⟩, -⟩
      · exact Or.inl h0
      · exact Or.inr (Or.inl hlink)
      · cases hq
  · intro i _ h256 hi
    rw [hnew i hi, if_neg (by omega), hslots k _ i h.kernel hi]

end Root

theorem vmm_new_address_space_accounted {p : U64}
    (h : Accounted k m G)
    (hk : m.kernel_pml4.toNat = 4096 * k)
    (hrun : vmm_new_address_space ehdr m = some (p, m')) :
    Kept m G m' ∧
    ((p = 0 ∧ Accounted k m' G ∧ (∀ f, f < m.pmm_bitmap_len → m'.bit f = m.bit f)
        ∧ (∀ j, j < 256 → m'.slot 0 j = 0) ∧ m'.pmm_free_pages = m.pmm_free_pages
        ∧ ∀ f, 0x2000 ≤ f → f < m.pmm_bitmap_len → m.bit f = true)
    ∨ ∃ c, p.toNat = 4096 * c ∧ c < m.pmm_bitmap_len ∧ m.bit c = false
        ∧ Accounted k m' (Function.update G c (some (.table c [])))
        ∧ (∀ f, f < m.pmm_bitmap_len → m'.bit f = if f = c then true else m.bit f)
        ∧ (∀ j, j < 256 → m'.slot c j = 0)
        ∧ (m.pmm_total_pages ≠ 0 → m'.pmm_free_pages = m.pmm_free_pages - 1)) := by
  have hklow := (h.managed k _ h.kernel).low
  rcases vmm_new_address_space_cases h.bitmap_len_le hk (by omega) hrun with
    ⟨rfl, rfl, hfull⟩ | ⟨c, rfl, rfl, hlow, hlen, hwin, hbit⟩
  · obtain ⟨hkept, hacc, hbits, hlower⟩ := h.root_at_null
    exact ⟨hkept, Or.inl ⟨rfl, hacc, hbits, hlower, rfl, hfull⟩⟩
  · obtain ⟨hkept, hacc⟩ := h.root_at hlen hbit hlow hwin
    have haddr := toNat_addr (f := c) (by omega)
    refine ⟨hkept, Or.inr ⟨c, haddr, hlen, hbit, hacc,
      fun f hf => h.freshRoot_bits hlen hbit hf, ?_, ?_⟩⟩
    · intro j hj
      rw [(h.freshRoot_slots hlen hbit).2 j (by omega), if_pos hj]
    · intro htotal
      show (m.take c).pmm_free_pages = _
      exact m.take_free_pages c htotal

/-! ## §2. Translation. -/

/-- The entry at the end of a hardware walk, and the size of its page. -/
inductive Leaf where
  | page (ent : U64)
  | huge (ent : U64)
  | giant (ent : U64)
  deriving Repr, DecidableEq

/-- The hardware's walk from root `r` for page `v`. -/
def Machine.translate (m : Machine) (r v : Nat) : Option Leaf :=
  (child (m.slot r (v / 2 ^ 27 % 512))).bind fun pdp =>
  let pdpe := m.slot pdp (v / 2 ^ 18 % 512)
  (child pdpe).bind fun pd =>
  if pdpe &&& VMM_FLAG_LARGE ≠ 0 then some (.giant pdpe)
  else
    let pde := m.slot pd (v / 2 ^ 9 % 512)
    (child pde).bind fun pt =>
    if pde &&& VMM_FLAG_LARGE ≠ 0 then some (.huge pde)
    else
      let pte := m.slot pt (v % 512)
      (child pte).map fun _ => .page pte

theorem Machine.translate_congr_root {r' : Nat}
    (h : m.slot r (v / 2 ^ 27 % 512) = m.slot r' (v / 2 ^ 27 % 512)) :
    m.translate r v = m.translate r' v := by
  unfold Machine.translate
  rw [h]

theorem Accounted.not_large {f i c : Nat} {p : List Nat}
    (h : Accounted k m G) (hf : G f = some (.table r p)) (hi : LowerSlot p i)
    (hc : child (m.slot f i) = some c) : ¬ m.slot f i &&& VMM_FLAG_LARGE ≠ 0 := by
  rcases h.lower_slot hf hi with h0 | ⟨c', hent, hwin, -⟩
  · rw [h0, child_zero] at hc
    cases hc
  · rw [hent, large_tableEnt hwin]
    simp

theorem Accounted.translate_lower
    (h : Accounted k m G) (hr : G r = some (.table r [])) (hv : v < 2 ^ 35) :
    m.translate r v = (child (m.entry r v)).map fun _ => .page (m.entry r v) := by
  have hp3 : Forest.Inner LowerSlot
      ((([] ++ [v / 2 ^ 27 % 512]) ++ [v / 2 ^ 18 % 512]) ++ [v / 2 ^ 9 % 512]) :=
    inner_pagePath hv
  obtain ⟨hp2, hi3⟩ := hp3.snoc
  obtain ⟨hp1, hi2⟩ := hp2.snoc
  unfold Machine.translate Machine.entry Machine.table pagePath
  rw [Forest.walk_cons]
  cases hc1 : child (m.slot r (v / 2 ^ 27 % 512)) with
  | none => simp only [Option.bind_none, child_zero, Option.map_none]
  | some pdp =>
    have hw1 : Forest.walk child m.slot r ([] ++ [v / 2 ^ 27 % 512]) = some pdp := by
      rw [List.nil_append, Forest.walk_cons, hc1]
      rfl
    have hpdp := h.walk_typed hr hp1 hw1
    simp only [Option.bind_some]
    rw [Forest.walk_cons]
    cases hc2 : child (m.slot pdp (v / 2 ^ 18 % 512)) with
    | none => simp only [Option.bind_none, child_zero, Option.map_none]
    | some pd =>
      have hw2 : Forest.walk child m.slot r
          (([] ++ [v / 2 ^ 27 % 512]) ++ [v / 2 ^ 18 % 512]) = some pd := by
        rw [Forest.walk_snoc, hw1]
        exact hc2
      have hpd := h.walk_typed hr hp2 hw2
      simp only [Option.bind_some, if_neg (h.not_large hpdp hi2 hc2)]
      rw [Forest.walk_cons]
      cases hc3 : child (m.slot pd (v / 2 ^ 9 % 512)) with
      | none => simp only [Option.bind_none, child_zero, Option.map_none]
      | some pt =>
        simp only [Option.bind_some, if_neg (h.not_large hpd hi3 hc3)]
        rfl

/-! ## §3. After boot. -/

def vm_heap_base : U64 := 0x200000000

def Booted (m : Machine) : Prop :=
  ∃ (k : Nat) (G : Ledger Empty), Accounted k m G ∧ m.kernel_pml4.toNat = 4096 * k
    ∧ (∀ f r p, G f = some (.table r p) → r = k ∧ p = [])
    ∧ m.top = vm_heap_base ∧ m.pmm_total_pages ≠ 0

end Quack.Arch
