/-
  Quack.Arch.PmmRanges
  **THE FRAME ALLOCATOR ON RANGES OF FRAMES.**

  `pmm_alloc_ex` looks at the indices `0x2000`, `0x2000 + alignment`, … in 64-bit
  arithmetic, and takes the first one whose `count` bits are clear.
-/
import Quack.Arch.Pmm

namespace Quack.Arch

open Lib

/-! ## §1. Writing a range. -/

namespace Machine

/-- Write the bits of `count` frames from `idx` on. -/
def setBits (b : Bool) : Nat → Machine → Nat → Machine
  | _, m, 0 => m
  | idx, m, count + 1 => setBits b (idx + 1) (m.setBit idx b) count

/-- The bits of `count` frames from `idx` on are clear. -/
def Free (m : Machine) (idx count : Nat) : Prop := ∀ j, idx ≤ j → j < idx + count → m.bit j = false

theorem bit_setBits (b : Bool) (j : Nat) (count idx : Nat) (m : Machine) :
    (setBits b idx m count).bit j = if idx ≤ j ∧ j < idx + count then b else m.bit j := by
  induction count generalizing idx m with
  | zero =>
    rw [if_neg (by omega)]
    rfl
  | succ count ih =>
    show (setBits b (idx + 1) (m.setBit idx b) count).bit j = _
    rw [ih, bit_setBit]
    split_ifs <;> first | rfl | omega

theorem setBits_vars (b : Bool) (count idx : Nat) (m : Machine) :
    m.SameVars (setBits b idx m count)
      ∧ (setBits b idx m count).pmm_free_pages = m.pmm_free_pages := by
  induction count generalizing idx m with
  | zero =>
    exact ⟨SameVars.refl m, rfl⟩
  | succ count ih =>
    obtain ⟨hvars, hfree⟩ := ih (idx + 1) (m.setBit idx b)
    have hset : m.SameVars (m.setBit idx b) := ⟨rfl, rfl, rfl, rfl⟩
    exact ⟨hset.trans hvars, hfree⟩

/-- Hand out `count` frames from `idx` on; only the first one is cleared. -/
def takeRange (m : Machine) (idx count : Nat) : Machine :=
  let m := setBits true idx m count
  let m := if m.pmm_total_pages = 0 then m
    else { m with pmm_free_pages := m.pmm_free_pages - BitVec.ofNat 64 count }
  m.zeroWords (512 * idx) 512

/-- Take `count` frames back. -/
def giveRange (m : Machine) (idx count : Nat) : Machine :=
  { setBits false idx m count with
    pmm_free_pages := m.pmm_free_pages + BitVec.ofNat 64 count }

theorem takeRange_vars (m : Machine) (idx count : Nat) : m.SameVars (m.takeRange idx count) := by
  have hvars := (setBits_vars true count idx m).1
  unfold takeRange
  dsimp only
  split <;> exact ⟨hvars.len, hvars.total, hvars.kernel, hvars.top⟩

theorem takeRange_free_pages (m : Machine) (idx count : Nat) :
    (m.takeRange idx count).pmm_free_pages
      = if m.pmm_total_pages = 0 then m.pmm_free_pages
        else m.pmm_free_pages - BitVec.ofNat 64 count := by
  obtain ⟨hvars, hfree⟩ := setBits_vars true count idx m
  unfold takeRange
  dsimp only
  rw [hvars.total]
  split
  · exact hfree
  · show (setBits true idx m count).pmm_free_pages - _ = _
    rw [hfree]

theorem takeRange_bit (m : Machine) (idx count j : Nat) :
    (m.takeRange idx count).bit j
      = if 0x2000 ≤ idx ∧ j / 32768 = idx - 0x2000 then false
        else if idx ≤ j ∧ j < idx + count then true else m.bit j := by
  have hmem : (m.takeRange idx count).mem
      = ((setBits true idx m count).zeroWords (512 * idx) 512).mem := by
    unfold takeRange
    dsimp only
    split <;> rfl
  have hset := bit_setBits true j count idx m
  unfold bit at hset ⊢
  rw [hmem]
  show (if 512 * idx ≤ 0x400000 + j / 64 ∧ 0x400000 + j / 64 < 512 * idx + 512 then 0
    else (setBits true idx m count).mem (0x400000 + j / 64)).getLsbD (j % 64) = _
  by_cases hzero : 0x2000 ≤ idx ∧ j / 32768 = idx - 0x2000
  · rw [if_pos (by omega), if_pos hzero, BitVec.ofNat_eq_ofNat, BitVec.getLsbD_zero]
  · rw [if_neg (by omega), if_neg hzero, hset]

theorem giveRange_bit (m : Machine) (idx count j : Nat) :
    (m.giveRange idx count).bit j = if idx ≤ j ∧ j < idx + count then false else m.bit j :=
  bit_setBits false j count idx m

theorem giveRange_vars (m : Machine) (idx count : Nat) : m.SameVars (m.giveRange idx count) := by
  have hvars := (setBits_vars false count idx m).1
  exact ⟨hvars.len, hvars.total, hvars.kernel, hvars.top⟩

end Machine

variable {m' m : Machine} {count alignment upper : U64}

theorem pmm_bit_write_eq_some {b : Bool} {u : Unit} (count idx : Nat) (m : Machine)
    (h : pmm_bit_write idx b count m = some (u, m')) : m' = Machine.setBits b idx m count := by
  induction count generalizing idx m with
  | zero =>
    exact (Prog.pure_eq_some.mp h).2.symm
  | succ count ih =>
    unfold pmm_bit_write at h
    simp only [Prog.bind_eq_some, load64_eq_some, store64_eq_some, bitmap_word] at h
    obtain ⟨w, t, ⟨-, rfl, rfl⟩, _, t', ⟨-, rfl⟩, h⟩ := h
    exact ih (idx + 1) _ h

theorem pmm_bit_write_window {b : Bool} {u : Unit} {j : Nat} (count idx : Nat) (m : Machine)
    (h : pmm_bit_write idx b count m = some (u, m')) (hlo : idx ≤ j) (hhi : j < idx + count) :
    PMM_MEMORY_BASE + 8 * (j / 64) < phys_window := by
  induction count generalizing idx m with
  | zero =>
    omega
  | succ count ih =>
    unfold pmm_bit_write at h
    simp only [Prog.bind_eq_some, load64_eq_some, store64_eq_some] at h
    obtain ⟨w, t, ⟨hwin, -, -⟩, _, t', -, h⟩ := h
    rcases Nat.eq_or_lt_of_le hlo with rfl | hlt
    · exact hwin
    · exact ih (idx + 1) _ h hlt (by omega)

theorem pmm_bit_write_apply (b : Bool) (count idx : Nat) (m : Machine)
    (hle : idx + count ≤ 8 * (phys_window - PMM_MEMORY_BASE)) :
    pmm_bit_write idx b count m = some ((), Machine.setBits b idx m count) := by
  induction count generalizing idx m with
  | zero =>
    rfl
  | succ count ih =>
    have hwin : PMM_MEMORY_BASE + 8 * (idx / 64) < phys_window := by
      rw [phys_window_eq] at hle ⊢
      unfold PMM_MEMORY_BASE at hle ⊢
      omega
    unfold pmm_bit_write
    rw [Prog.bind_apply (load64_eq_some.mpr ⟨hwin, rfl, rfl⟩),
      Prog.bind_apply (store64_eq_some (u := ()).mpr ⟨hwin, rfl⟩), bitmap_word]
    exact ih (idx + 1) _ (by omega)

theorem pmm_free_range {mem : U64} {u : Unit}
    (h : pmm_free mem count m = some (u, m')) :
    m' = m.giveRange (mem.toNat / 4096) count.toNat := by
  unfold pmm_free at h
  simp only [Prog.bind_eq_some, Prog.update_eq_some] at h
  obtain ⟨_, t, hwrite, rfl⟩ := h
  rw [pmm_bit_write_eq_some _ _ _ hwrite]
  unfold Machine.giveRange
  rw [BitVec.ofNat_toNat, BitVec.setWidth_eq, (Machine.setBits_vars false _ _ m).2]
  rfl

/-! ## §2. The search. -/

theorem pmm_bitmap_is_free_eq_some {b : Bool} (count idx : Nat)
    (h : pmm_bitmap_is_free idx count m = some (b, m')) :
    m = m' ∧ (b = true ↔ m.Free idx count) := by
  induction count generalizing idx with
  | zero =>
    obtain ⟨rfl, rfl⟩ := Prog.pure_eq_some.mp h
    refine ⟨rfl, iff_of_true rfl ?_⟩
    intro j hj hlt
    omega
  | succ count ih =>
    unfold pmm_bitmap_is_free at h
    simp only [Prog.bind_eq_some, pmm_bit_read_eq_some] at h
    obtain ⟨c, t, ⟨-, rfl, rfl⟩, h⟩ := h
    cases hbit : m.bit idx with
    | true =>
      simp only [hbit, if_true, Prog.pure_eq_some] at h
      obtain ⟨rfl, rfl⟩ := h
      refine ⟨rfl, iff_of_false Bool.false_ne_true fun hfree => ?_⟩
      rw [hfree idx (by omega) (by omega)] at hbit
      exact Bool.false_ne_true hbit
    | false =>
      simp only [hbit, Bool.false_eq_true, if_false] at h
      obtain ⟨rfl, hiff⟩ := ih (idx + 1) h
      refine ⟨rfl, hiff.trans ⟨fun hfree j hj hlt => ?_, fun hfree j hj hlt => ?_⟩⟩
      · rcases Nat.lt_or_ge idx j with hgt | hle
        · exact hfree j hgt (by omega)
        · rw [show j = idx by omega]
          exact hbit
      · exact hfree j (by omega) (by omega)

def FirstFit (m : Machine) (count alignment max_idx idx f : Nat) : Prop :=
  ∃ n, f = idx + n * alignment ∧ f < max_idx ∧ m.Free f count
    ∧ ∀ i, i < n → ¬ m.Free (idx + i * alignment) count

/-- No index of the search sequence below `max_idx` has `count` free frames. -/
def NoFit (m : Machine) (count alignment max_idx idx : Nat) : Prop :=
  ∀ n, idx + n * alignment < max_idx → ¬ m.Free (idx + n * alignment) count

def Reachable (f count : Nat) : Prop :=
  f < 2 ^ 20 ∧ f + count ≤ 8 * (phys_window - PMM_MEMORY_BASE)

section Search

variable {m m' : Machine} {count alignment max_idx idx : Nat} {o : Option Nat}

theorem FirstFit.later {f : Nat} (hno : ¬ m.Free idx count)
    (h : FirstFit m count alignment max_idx (idx + alignment) f) :
    FirstFit m count alignment max_idx idx f := by
  obtain ⟨n, rfl, hlt, hfree, hbefore⟩ := h
  refine ⟨n + 1, by rw [Nat.succ_mul]; omega, hlt, hfree, ?_⟩
  intro i hi
  cases i with
  | zero => simpa using hno
  | succ i =>
    have := hbefore i (by omega)
    rwa [show idx + (i + 1) * alignment = idx + alignment + i * alignment by
      rw [Nat.succ_mul]; omega]

theorem NoFit.later (hno : ¬ m.Free idx count)
    (h : NoFit m count alignment max_idx (idx + alignment)) :
    NoFit m count alignment max_idx idx := by
  intro n hlt
  cases n with
  | zero => simpa using hno
  | succ n =>
    have heq : idx + (n + 1) * alignment = idx + alignment + n * alignment := by
      rw [Nat.succ_mul]; omega
    rw [heq] at hlt ⊢
    exact h n hlt

theorem NoFit.of_le (h : max_idx ≤ idx) : NoFit m count alignment max_idx idx := by
  intro n hlt
  omega

theorem FirstFit.first (hlt : idx < max_idx) (hfree : m.Free idx count) :
    FirstFit m count alignment max_idx idx idx :=
  ⟨0, by simp, hlt, hfree, by simp⟩

theorem FirstFit.of_zero {f : Nat} (h : FirstFit m 0 alignment max_idx idx f) : f = idx := by
  obtain ⟨n, rfl, -, -, hbefore⟩ := h
  cases n with
  | zero => simp
  | succ n => exact absurd (fun j hj hlt => by omega) (hbefore 0 n.succ_pos)

theorem FirstFit.single {f : Nat} (h : FirstFit m 1 1 max_idx idx f) :
    idx ≤ f ∧ f < max_idx ∧ m.bit f = false ∧ ∀ g, idx ≤ g → g < f → m.bit g = true := by
  obtain ⟨n, hf, hlt, hfree, hbefore⟩ := h
  refine ⟨by omega, hlt, hfree f (Nat.le_refl f) (by omega), fun g hlo hg => ?_⟩
  by_contra hclear
  refine hbefore (g - idx) (by omega) fun j hj hj' => ?_
  rw [show j = g by omega]
  simpa using hclear

theorem pmm_search_cases {fuel : Nat}
    (h : pmm_search count alignment max_idx fuel idx m = some (o, m')) :
    (max_idx ≤ idx ∧ o = none ∧ m = m')
    ∨ (idx < max_idx ∧ m.Free idx count ∧ o = some idx ∧ m = m')
    ∨ ∃ n, fuel = n + 1 ∧ idx < max_idx ∧ ¬ m.Free idx count
        ∧ pmm_search count alignment max_idx n ((idx + alignment) % 2 ^ 64) m = some (o, m') := by
  cases fuel with
  | zero =>
    unfold pmm_search at h
    simp only [Prog.bind_eq_some, Prog.check_eq_some, Prog.pure_eq_some] at h
    obtain ⟨_, t, ⟨hle, rfl⟩, rfl, rfl⟩ := h
    exact Or.inl ⟨hle, rfl, rfl⟩
  | succ fuel =>
    unfold pmm_search at h
    split at h
    · next hlt =>
        obtain ⟨b, t, hscan, h⟩ := Prog.bind_eq_some.mp h
        obtain ⟨rfl, hiff⟩ := pmm_bitmap_is_free_eq_some _ _ hscan
        cases b with
        | true =>
          obtain ⟨rfl, rfl⟩ := Prog.pure_eq_some.mp h
          exact Or.inr (Or.inl ⟨hlt, hiff.mp rfl, rfl, rfl⟩)
        | false =>
          have hno : ¬ m.Free idx count := fun hf => Bool.false_ne_true (hiff.mpr hf)
          exact Or.inr (Or.inr ⟨fuel, rfl, hlt, hno, h⟩)
    · next hge =>
        obtain ⟨rfl, rfl⟩ := Prog.pure_eq_some.mp h
        exact Or.inl ⟨Nat.le_of_not_lt hge, rfl, rfl⟩

theorem pmm_search_up (hmax : max_idx ≤ 2 ^ 63) (hal : alignment < 2 ^ 63) (fuel idx : Nat)
    (h : pmm_search count alignment max_idx fuel idx m = some (o, m')) :
    m = m' ∧ (∀ f, o = some f → FirstFit m count alignment max_idx idx f)
      ∧ (o = none → NoFit m count alignment max_idx idx) := by
  induction fuel using Nat.strong_induction_on generalizing idx with
  | _ fuel ih =>
    rcases pmm_search_cases h with ⟨hle, rfl, rfl⟩ | ⟨hlt, hfree, rfl, rfl⟩ | ⟨n, rfl, hlt, hno, h⟩
    · exact ⟨rfl, by simp, fun _ => NoFit.of_le hle⟩
    · exact ⟨rfl, fun f hf => Option.some.inj hf ▸ FirstFit.first hlt hfree, by simp⟩
    · rw [Nat.mod_eq_of_lt (by omega)] at h
      obtain ⟨rfl, hsome, hnone⟩ := ih n (Nat.lt_succ_self n) _ h
      exact ⟨rfl, fun f hf => (hsome f hf).later hno, fun ho => (hnone ho).later hno⟩

theorem pmm_search_down (hmax : max_idx ≤ 2 ^ 63) (hal : 2 ^ 63 ≤ alignment)
    (hal' : alignment < 2 ^ 64) (hcount : 1 ≤ count) (hlow : ∀ j, j < 0x2000 → m.bit j = true)
    (fuel idx : Nat) (hidx : idx < 0x2000 ∨ max_idx ≤ idx)
    (h : pmm_search count alignment max_idx fuel idx m = some (o, m')) : m = m' ∧ o = none := by
  induction fuel using Nat.strong_induction_on generalizing idx with
  | _ fuel ih =>
    rcases pmm_search_cases h with ⟨-, rfl, rfl⟩ | ⟨hlt, hfree, -, -⟩ | ⟨n, rfl, hlt, -, h⟩
    · exact ⟨rfl, rfl⟩
    · have hbit := hfree idx (Nat.le_refl _) (by omega)
      rw [hlow idx (by omega)] at hbit
      cases hbit
    · exact ih n (Nat.lt_succ_self n) _ (by omega) h

theorem pmm_search_spec {fuel : Nat} (hmax : max_idx ≤ 2 ^ 63) (hal : alignment < 2 ^ 64)
    (hwrap : 2 ^ 63 ≤ alignment → 0x2000 < max_idx → ∀ j, j < 0x2000 → m.bit j = true)
    (h : pmm_search count alignment max_idx fuel 0x2000 m = some (o, m')) :
    m = m' ∧ (∀ f, o = some f → FirstFit m count alignment max_idx 0x2000 f)
      ∧ (o = none → NoFit m count alignment max_idx 0x2000) := by
  by_cases hsmall : alignment < 2 ^ 63
  · exact pmm_search_up hmax hsmall _ _ h
  · rcases pmm_search_cases h with ⟨hle, rfl, rfl⟩ | ⟨hlt, hfree, rfl, rfl⟩ | ⟨n, rfl, hlt, hno, h⟩
    · exact ⟨rfl, by simp, fun _ => NoFit.of_le hle⟩
    · exact ⟨rfl, fun f hf => Option.some.inj hf ▸ FirstFit.first hlt hfree, by simp⟩
    · -- one step wraps around, or leaves the bitmap
      have hcount : 1 ≤ count := by
        by_contra hzero
        exact hno fun j hj hlt => by omega
      obtain ⟨rfl, rfl⟩ := pmm_search_down hmax (by omega) hal hcount (hwrap (by omega) hlt) n _
        (by omega) h
      exact ⟨rfl, by simp, fun _ => NoFit.later hno (NoFit.of_le (by omega))⟩

theorem pmm_bitmap_is_free_returns (count idx : Nat)
    (hle : idx + count ≤ 8 * (phys_window - PMM_MEMORY_BASE)) :
    ∃ b, pmm_bitmap_is_free idx count m = some (b, m) := by
  induction count generalizing idx with
  | zero =>
    exact ⟨true, rfl⟩
  | succ count ih =>
    have hwin : PMM_MEMORY_BASE + 8 * (idx / 64) < phys_window := by
      rw [phys_window_eq] at hle ⊢
      unfold PMM_MEMORY_BASE at hle ⊢
      omega
    unfold pmm_bitmap_is_free
    rw [Prog.bind_apply (pmm_bit_read_eq_some.mpr ⟨hwin, rfl, rfl⟩)]
    cases m.bit idx with
    | true => exact ⟨false, rfl⟩
    | false => exact ih (idx + 1) (by omega)

theorem pmm_search_finds {f n fuel : Nat} (hmax : max_idx ≤ 2 ^ 63) (hf : Reachable f count)
    (hlt : f < max_idx) (hfree : m.Free f count) (hfuel : n < fuel)
    (hn : f = idx + n * alignment) (hbefore : ∀ i, i < n → ¬ m.Free (idx + i * alignment) count) :
    pmm_search count alignment max_idx fuel idx m = some (some f, m) := by
  induction n generalizing idx fuel with
  | zero =>
    obtain ⟨fuel, rfl⟩ := Nat.exists_eq_add_of_lt hfuel
    rw [Nat.zero_mul, Nat.add_zero] at hn
    subst hn
    obtain ⟨b, hb⟩ := pmm_bitmap_is_free_returns (m := m) count f hf.2
    obtain rfl := (pmm_bitmap_is_free_eq_some _ _ hb).2.mpr hfree
    rw [Nat.zero_add, pmm_search, if_pos hlt, Prog.bind_apply hb]
    rfl
  | succ n ih =>
    obtain ⟨fuel, rfl⟩ : ∃ fuel', fuel = fuel' + 1 := ⟨fuel - 1, by omega⟩
    rw [Nat.succ_mul] at hn
    have hno := hbefore 0 (Nat.succ_pos n)
    rw [Nat.zero_mul, Nat.add_zero] at hno
    obtain ⟨b, hb⟩ := pmm_bitmap_is_free_returns (m := m) count idx (by have := hf.2; omega)
    obtain rfl : b = false := Bool.eq_false_iff.mpr fun h =>
      hno ((pmm_bitmap_is_free_eq_some _ _ hb).2.mp h)
    rw [pmm_search, if_pos (by omega), Prog.bind_apply hb, if_neg Bool.false_ne_true,
      Nat.mod_eq_of_lt (by omega)]
    refine ih (by omega) (by omega) fun i hi => ?_
    have hnext := hbefore (i + 1) (by omega)
    rwa [Nat.succ_mul, Nat.add_comm (i * alignment), ← Nat.add_assoc] at hnext

theorem pmm_search_returns (hwin : max_idx + count ≤ 8 * (phys_window - PMM_MEMORY_BASE))
    (hal : 1 ≤ alignment) (hal' : alignment < 2 ^ 64) (hmax : max_idx ≤ 2 ^ 63) (fuel idx : Nat)
    (hup : (alignment < 2 ^ 63 → max_idx ≤ idx + fuel))
    (hdown : (2 ^ 63 ≤ alignment → idx < fuel ∨ max_idx ≤ idx)) :
    ∃ o, pmm_search count alignment max_idx fuel idx m = some (o, m) := by
  induction fuel generalizing idx with
  | zero =>
    have hle : max_idx ≤ idx := by omega
    unfold pmm_search
    rw [Prog.bind_apply (Prog.check_apply hle m)]
    exact ⟨none, rfl⟩
  | succ fuel ih =>
    unfold pmm_search
    by_cases hlt : idx < max_idx
    · rw [if_pos hlt]
      obtain ⟨b, hb⟩ := pmm_bitmap_is_free_returns (m := m) count idx (by omega)
      rw [Prog.bind_apply hb]
      cases b with
      | true => exact ⟨some idx, rfl⟩
      | false => exact ih _ (by omega) (by omega)
    · rw [if_neg hlt]
      exact ⟨none, rfl⟩

end Search

/-! ## §3. Allocation. -/

theorem pmm_max_idx_le (len : Nat) (upper : U64) : pmm_max_idx len upper ≤ len := by
  unfold pmm_max_idx
  split
  · exact Nat.le_refl _
  · exact Nat.min_le_left _ _

theorem pmm_alloc_ex_eq_some {p : U64}
    (h : pmm_alloc_ex count alignment upper m = some (p, m')) :
    ∃ o t, pmm_search count.toNat alignment.toNat (pmm_max_idx m.pmm_bitmap_len upper)
        (pmm_max_idx m.pmm_bitmap_len upper + 0x2000) 0x2000 m = some (o, t)
      ∧ (o = none ∧ p = 0 ∧ m' = t
        ∨ ∃ f, o = some f ∧ p = BitVec.ofNat 64 (4096 * f) ∧ m' = t.takeRange f count.toNat
          ∧ Reachable f count.toNat) := by
  unfold pmm_alloc_ex at h
  simp only [Prog.bind_eq_some, Prog.read_eq_some] at h
  obtain ⟨_, _, ⟨rfl, rfl⟩, o, t, hsearch, h⟩ := h
  refine ⟨o, t, hsearch, ?_⟩
  cases o with
  | none =>
    obtain ⟨rfl, rfl⟩ := Prog.pure_eq_some.mp h
    exact Or.inl ⟨rfl, rfl, rfl⟩
  | some f =>
    simp only [Prog.bind_eq_some, Prog.update_eq_some, memset_page_eq_some,
      Prog.pure_eq_some] at h
    obtain ⟨_, _, hwrite, _, _, rfl, _, _, ⟨hwin, rfl⟩, rfl, rfl⟩ := h
    have hword : f * PAGE_SIZE / 8 = 512 * f := by
      unfold PAGE_SIZE
      omega
    refine Or.inr ⟨f, rfl, by rw [Nat.mul_comm]; rfl, ?_, ?_⟩
    · rw [pmm_bit_write_eq_some _ _ _ hwrite, hword]
      unfold Machine.takeRange
      rw [BitVec.ofNat_toNat, BitVec.setWidth_eq]
    · unfold Reachable
      unfold PAGE_SIZE at hwin
      rw [phys_window_eq] at hwin ⊢
      rcases Nat.eq_zero_or_pos count.toNat with h0 | hpos
      · rw [h0]
        unfold PMM_MEMORY_BASE
        omega
      · -- the last bit was written
        have hlast := pmm_bit_write_window (j := f + count.toNat - 1) _ _ _ hwrite (by omega)
          (by omega)
        rw [phys_window_eq] at hlast
        unfold PMM_MEMORY_BASE at hlast ⊢
        omega

theorem pmm_alloc_ex_cases {p : U64}
    (hlen : m.pmm_bitmap_len ≤ 2 ^ 63)
    (hwrap : 2 ^ 63 ≤ alignment.toNat → 0x2000 < m.pmm_bitmap_len →
      ∀ j, j < 0x2000 → m.bit j = true)
    (h : pmm_alloc_ex count alignment upper m = some (p, m')) :
    (p = 0 ∧ m' = m ∧ NoFit m count.toNat alignment.toNat (pmm_max_idx m.pmm_bitmap_len upper) 0x2000)
    ∨ ∃ f, p = BitVec.ofNat 64 (4096 * f) ∧ m' = m.takeRange f count.toNat
        ∧ Reachable f count.toNat ∧ FirstFit m count.toNat alignment.toNat (pmm_max_idx m.pmm_bitmap_len upper) 0x2000 f := by
  have hmax := pmm_max_idx_le m.pmm_bitmap_len upper
  obtain ⟨o, t, hsearch, hres⟩ := pmm_alloc_ex_eq_some h
  obtain ⟨rfl, hsome, hnone⟩ := pmm_search_spec (by omega) alignment.isLt
    (fun hal hlt => hwrap hal (by omega)) hsearch
  rcases hres with ⟨rfl, rfl, rfl⟩ | ⟨f, rfl, rfl, rfl, hf⟩
  · exact Or.inl ⟨rfl, rfl, hnone rfl⟩
  · exact Or.inr ⟨f, rfl, rfl, hf, hsome f rfl⟩

theorem pmm_alloc_cases {p : U64} (hlen : m.pmm_bitmap_len ≤ 2 ^ 63)
    (h : pmm_alloc 1 m = some (p, m')) :
    (p = 0 ∧ m' = m ∧ ∀ f, 0x2000 ≤ f → f < m.pmm_bitmap_len → m.bit f = true)
    ∨ ∃ f, p = BitVec.ofNat 64 (4096 * f) ∧ m' = m.take f ∧ 0x2000 ≤ f
        ∧ f < m.pmm_bitmap_len ∧ f < 2 ^ 20 ∧ m.bit f = false
        ∧ ∀ g, 0x2000 ≤ g → g < f → m.bit g = true := by
  rcases pmm_alloc_ex_cases hlen (fun hal => absurd hal (by decide)) h with
    ⟨rfl, rfl, hno⟩ | ⟨f, rfl, rfl, hwin, hfit⟩
  · refine Or.inl ⟨rfl, rfl, fun f hlo hhi => ?_⟩
    by_contra hclear
    rw [show (1 : U64).toNat = 1 from rfl] at hno
    refine hno (f - 0x2000) (show _ < m'.pmm_bitmap_len by omega) fun j hj hlt => ?_
    rw [show j = f by omega]
    simpa using hclear
  · obtain ⟨hlow, hlt, hclear, hbefore⟩ := hfit.single
    exact Or.inr ⟨f, rfl, rfl, hlow, hlt, hwin.1, hclear, hbefore⟩

theorem pmm_free_eq_some {p : U64} {u : Unit}
    (h : pmm_free p 1 m = some (u, m')) : m' = m.give (p.toNat / 4096) :=
  pmm_free_range h

theorem pmm_alloc_ex_of_search {o : Option Nat}
    (hsearch : pmm_search count.toNat alignment.toNat (pmm_max_idx m.pmm_bitmap_len upper)
      (pmm_max_idx m.pmm_bitmap_len upper + 0x2000) 0x2000 m = some (o, m))
    (hfound : ∀ f, o = some f → Reachable f count.toNat) :
    ∃ m', pmm_alloc_ex count alignment upper m
      = some ((o.map fun f => BitVec.ofNat 64 (f * PAGE_SIZE)).getD 0, m') := by
  have hbase : PMM_MEMORY_BASE / PAGE_SIZE = 0x2000 := rfl
  unfold pmm_alloc_ex
  rw [Prog.bind_apply (Prog.read_eq_some.mpr ⟨rfl, rfl⟩), hbase, Prog.bind_apply hsearch]
  cases o with
  | none => exact ⟨m, rfl⟩
  | some f =>
    obtain ⟨hf, hwrite⟩ := hfound f rfl
    have hpage : f * PAGE_SIZE + 4096 ≤ phys_window := by
      rw [phys_window_eq]
      unfold PAGE_SIZE
      omega
    show ∃ m', (pmm_bit_write f true count.toNat >>= _) m = some (_, m')
    rw [Prog.bind_apply (pmm_bit_write_apply true count.toNat f m hwrite),
      Prog.bind_apply (Prog.update_eq_some (u := ()).mpr rfl),
      Prog.bind_apply (memset_page_eq_some (u := ()).mpr ⟨hpage, rfl⟩)]
    exact ⟨_, rfl⟩

theorem pmm_alloc_ex_returns (hlen : m.pmm_bitmap_len ≤ 2 ^ 63) (hal : 1 ≤ alignment.toNat)
    (hwrap : 2 ^ 63 ≤ alignment.toNat → 0x2000 < m.pmm_bitmap_len →
      ∀ j, j < 0x2000 → m.bit j = true)
    (hwin : m.pmm_bitmap_len + count.toNat ≤ 8 * (phys_window - PMM_MEMORY_BASE))
    (hfit : ∀ f, FirstFit m count.toNat alignment.toNat (pmm_max_idx m.pmm_bitmap_len upper) 0x2000 f →
      f < 2 ^ 20) :
    ∃ p m', pmm_alloc_ex count alignment upper m = some (p, m') := by
  have hmax := pmm_max_idx_le m.pmm_bitmap_len upper
  obtain ⟨o, ho⟩ : ∃ o, pmm_search count.toNat alignment.toNat
      (pmm_max_idx m.pmm_bitmap_len upper) (pmm_max_idx m.pmm_bitmap_len upper + 0x2000) 0x2000 m
        = some (o, m) :=
    pmm_search_returns (by omega) hal alignment.isLt (by omega) _ _ (by omega) (by omega)
  obtain ⟨-, hsome, -⟩ := pmm_search_spec (by omega) alignment.isLt
    (fun hal hlt => hwrap hal (by omega)) ho
  refine ⟨_, pmm_alloc_ex_of_search ho fun f hf => ⟨hfit f (hsome f hf), ?_⟩⟩
  obtain ⟨n, -, hlt, -, -⟩ := hsome f hf
  omega

theorem pmm_alloc_ex_of_fit {f : Nat} (hlen : m.pmm_bitmap_len ≤ 2 ^ 63)
    (hfit : FirstFit m count.toNat alignment.toNat (pmm_max_idx m.pmm_bitmap_len upper) 0x2000 f)
    (hf : Reachable f count.toNat) :
    ∃ m', pmm_alloc_ex count alignment upper m = some (BitVec.ofNat 64 (f * PAGE_SIZE), m') := by
  have hmax := pmm_max_idx_le m.pmm_bitmap_len upper
  obtain ⟨n, hn, hlt, hfree, hbefore⟩ := hfit
  have hfuel : n < pmm_max_idx m.pmm_bitmap_len upper + 0x2000 := by
    rcases Nat.eq_zero_or_pos n with rfl | hpos
    · omega
    · -- the first index is not the one that is found
      have hal : 1 ≤ alignment.toNat := by
        by_contra hzero
        rw [Nat.eq_zero_of_not_pos hzero, Nat.mul_zero] at hn
        exact hbefore 0 hpos (by rwa [Nat.zero_mul, ← hn])
      have := Nat.le_mul_of_pos_right n hal
      omega
  have hsearch := pmm_search_finds (by omega) hf hlt hfree hfuel hn hbefore
  exact pmm_alloc_ex_of_search hsearch fun g hg => Option.some.inj hg ▸ hf

theorem pmm_alloc_one_returns (hlen : m.pmm_bitmap_len < 2 ^ 32)
    (hfirst : ∀ f, 0x2000 ≤ f → f < m.pmm_bitmap_len → m.bit f = false →
      (∀ g, 0x2000 ≤ g → g < f → m.bit g = true) → f < 2 ^ 20) :
    ∃ p m', pmm_alloc 1 m = some (p, m') := by
  have hone : (1 : U64).toNat = 1 := rfl
  refine pmm_alloc_ex_returns (by omega) (by decide) (fun hal => absurd hal (by decide)) ?_ ?_
  · rw [hone, phys_window_eq]
    unfold PMM_MEMORY_BASE
    omega
  · intro f hfit
    obtain ⟨hlow, hlt, hclear, hbefore⟩ := hfit.single
    exact hfirst f hlow hlt hclear hbefore

end Quack.Arch
