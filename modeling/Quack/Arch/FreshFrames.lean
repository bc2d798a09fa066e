/-
  Quack.Arch.FreshFrames
  **WHAT IS IN THE PAGES THAT `pmm_alloc` RETURNS.**

  `pmm_alloc_ex` clears one page, the first one, whatever `count` is.  The page
  tables are made of single pages; the array of the per-CPU data is not, and
  `cpu_data_init` does not clear it.

    • `pmm_alloc_zeroed`   — when all the pages are zero.
-/
import Quack.Arch.PmmRuns

namespace Quack.Arch

open Lib

/-! ## §1. What a call returns. -/

section Search

variable {m m' : Machine} {count alignment max_idx : Nat} {o : Option Nat}

theorem pmm_search_found (fuel idx : Nat)
    (h : pmm_search count alignment max_idx fuel idx m = some (o, m')) :
    m = m' ∧ ∀ f, o = some f → m.Free f count := by
  induction fuel using Nat.strong_induction_on generalizing idx with
  | _ fuel ih =>
    rcases pmm_search_cases h with ⟨-, rfl, rfl⟩ | ⟨-, hfree, rfl, rfl⟩ | ⟨n, rfl, -, -, h⟩
    · exact ⟨rfl, by simp⟩
    · exact ⟨rfl, fun f hf => Option.some.inj hf ▸ hfree⟩
    · exact ih n (Nat.lt_succ_self n) _ h

end Search

variable {m m' : Machine}

theorem pmm_alloc_ex_taken {count alignment upper p : U64}
    (h : pmm_alloc_ex count alignment upper m = some (p, m')) :
    (p = 0 ∧ m' = m)
    ∨ ∃ f, p.toNat = 4096 * f ∧ f < 2 ^ 20 ∧ m' = m.takeRange f count.toNat
        ∧ m.Free f count.toNat := by
  obtain ⟨o, t, hsearch, hres⟩ := pmm_alloc_ex_eq_some h
  obtain ⟨rfl, hfound⟩ := pmm_search_found _ _ hsearch
  rcases hres with ⟨-, rfl, rfl⟩ | ⟨f, rfl, rfl, rfl, hf⟩
  · exact Or.inl ⟨rfl, rfl⟩
  · have hlt := hf.1
    exact Or.inr ⟨f, toNat_addr (by omega), hlt, rfl, hfound f rfl⟩

/-! ## §2. Zero pages. -/

namespace Machine

/-- Every word of the frame is zero. -/
def ZeroPage (m : Machine) (f : Nat) : Prop := ∀ i, i < 512 → m.slot f i = 0

instance (m : Machine) (f : Nat) : Decidable (m.ZeroPage f) :=
  Nat.decidableBallLT 512 (fun i _ => m.slot f i = 0)

/-- Word `x` holds the bit of a frame of the range. -/
def RangeWord (f count x : Nat) : Prop := ∃ j, f ≤ j ∧ j < f + count ∧ x = 0x400000 + j / 64

theorem setBits_mem (b : Bool) {x : Nat} :
    ∀ count idx m, ¬ RangeWord idx count x →
      (setBits b idx m count).mem x = m.mem x := by
  intro count
  induction count with
  | zero => exact fun idx m _ => rfl
  | succ count ih =>
    intro idx m hno
    have hfirst : x ≠ 0x400000 + idx / 64 :=
      fun he => hno ⟨idx, Nat.le_refl _, by omega, he⟩
    have hrest : ¬ RangeWord (idx + 1) count x := by
      rintro ⟨j, hlo, hhi, he⟩
      exact hno ⟨j, by omega, by omega, he⟩
    show (setBits b (idx + 1) (m.setBit idx b) count).mem x = _
    rw [ih (idx + 1) _ hrest]
    exact setWord_mem_ne _ _ hfirst

theorem takeRange_mem (m : Machine) (f count x : Nat) :
    (m.takeRange f count).mem x
      = if 512 * f ≤ x ∧ x < 512 * f + 512 then 0 else (setBits true f m count).mem x := by
  unfold takeRange
  dsimp only
  split <;> rfl

theorem takeRange_word (m : Machine) {f count x : Nat}
    (hx : ¬ (512 * f ≤ x ∧ x < 512 * f + 512)) :
    (m.takeRange f count).mem x = 0 ↔ m.mem x = 0 ∧ ¬ RangeWord f count x := by
  rw [takeRange_mem, if_neg hx]
  by_cases hword : RangeWord f count x
  · -- one of its bits is set now
    refine iff_of_false (fun hzero => ?_) fun h => h.2 hword
    obtain ⟨j, hlo, hhi, rfl⟩ := hword
    have hbit := bit_setBits true j count f m
    rw [if_pos ⟨hlo, hhi⟩] at hbit
    unfold bit at hbit
    rw [hzero, BitVec.ofNat_eq_ofNat, BitVec.getLsbD_zero] at hbit
    exact Bool.false_ne_true hbit
  · rw [setBits_mem true count f m hword]
    exact (and_iff_left hword).symm

theorem takeRange_first_page (m : Machine) (f count : Nat) : (m.takeRange f count).ZeroPage f := by
  intro i hi
  unfold slot
  rw [takeRange_mem, if_pos (by omega)]

end Machine

/-- The page holds no bit of the range. -/
def BitFree (f count g : Nat) : Prop := ∀ j, f ≤ j → j < f + count → 0x2000 + j / 32768 ≠ g

theorem takeRange_zeroPage {f count g : Nat} (hg : g ≠ f) :
    (m.takeRange f count).ZeroPage g ↔ m.ZeroPage g ∧ BitFree f count g := by
  have hword : ∀ i, i < 512 → ((m.takeRange f count).slot g i = 0
      ↔ m.slot g i = 0 ∧ ¬ Machine.RangeWord f count (512 * g + i)) :=
    fun i hi => m.takeRange_word (by omega)
  constructor
  · intro h
    refine ⟨fun i hi => ((hword i hi).mp (h i hi)).1, fun j hlo hhi he => ?_⟩
    -- the word of bit `j` is in this page
    exact ((hword (j / 64 % 512) (by omega)).mp (h _ (by omega))).2 ⟨j, hlo, hhi, by omega⟩
  · rintro ⟨hzero, hbits⟩ i hi
    refine (hword i hi).mpr ⟨hzero i hi, ?_⟩
    rintro ⟨j, hlo, hhi, he⟩
    exact hbits j hlo hhi (by omega)

/-- **Fresh frames.**  In any machine: the pages that `pmm_alloc` returns all read as zero
exactly if those after the first one did before, and hold none of the bits of the range.
They are those of the first fit in the bitmap before the call. -/
theorem pmm_alloc_zeroed (m m' : Machine) (count p : U64) (hne : p ≠ 0)
    (h : pmm_alloc count m = some (p, m')) :
    ((∀ i, i < count.toNat → m'.ZeroPage (p.toNat / 4096 + i))
      ↔ ∀ i, 1 ≤ i → i < count.toNat → m.ZeroPage (p.toNat / 4096 + i)
          ∧ BitFree (p.toNat / 4096) count.toNat (p.toNat / 4096 + i))
    ∧ (m.pmm_bitmap_len ≤ 2 ^ 63 →
        FirstFit m count.toNat 1 m.pmm_bitmap_len 0x2000 (p.toNat / 4096)) := by
  rcases pmm_alloc_ex_taken h with ⟨h0, -⟩ | ⟨f, hp, hlt, rfl, -⟩
  · exact absurd h0 hne
  · rw [hp, Nat.mul_div_cancel_left f (by omega)]
    refine ⟨?_, fun hlen => ?_⟩
    swap
    · rcases pmm_alloc_ex_cases hlen (fun hal => absurd hal (by decide)) h with
        ⟨h0, -⟩ | ⟨g, rfl, -, hg, hfit⟩
      · exact absurd h0 hne
      · obtain rfl : g = f := by
          have hlow := hg.1
          rw [toNat_addr (by omega)] at hp
          omega
        exact hfit
    constructor
    · intro hall i hpos hi
      exact (takeRange_zeroPage (by omega)).mp (hall i hi)
    · intro hall i hi
      rcases Nat.eq_zero_or_pos i with rfl | hpos
      · exact m.takeRange_first_page f _
      · exact (takeRange_zeroPage (by omega)).mpr (hall i hpos hi)

theorem pmm_alloc_zeroed_two_pages :
    ∃ m0 m', pmm_init oneRange (Machine.boot 0) = some ((), m0)
      ∧ pmm_alloc 2 m0 = some (0x2002000, m')
      ∧ ∀ i, i < 2 → m'.ZeroPage (0x2002 + i) := by
  have hrun : (pmm_init oneRange (Machine.boot 0)).map (fun x => ((pmm_alloc 2 x.2).map Prod.fst,
      decide (x.2.ZeroPage 0x2003))) = some (some 0x2002000, true) := by
    decide +kernel
  obtain ⟨⟨_, m0⟩, hm0, hall⟩ := Option.map_eq_some_iff.mp hrun
  injection hall with halloc hzero
  obtain ⟨⟨p, m'⟩, hm', rfl⟩ := Option.map_eq_some_iff.mp halloc
  refine ⟨m0, m', hm0, hm', (pmm_alloc_zeroed m0 m' 2 0x2002000 (by decide) hm').1.mpr ?_⟩
  intro i hpos hi
  obtain rfl : i = 1 := by
    change i < 2 at hi
    omega
  refine ⟨of_decide_eq_true hzero, fun j hlo hhi => ?_⟩
  change 0x2002 ≤ j at hlo
  change j < 0x2002 + 2 at hhi
  change 0x2000 + j / 32768 ≠ 0x2003
  omega

/-! ## §3. The per-CPU data. -/

/-- `sizeof(cpu_data_t)`. -/
def cpu_data_size : U64 := 48

def cpu_data_init (max_cpus : BitVec 32) : Prog Machine U64 :=
  pmm_alloc ((max_cpus.signExtend 64 * cpu_data_size + 0xFFF) / 0x1000)

/-- The word number of `cpu_data[cpu].saved_vmm_ctx`, at offset 40. -/
def saved_vmm_ctx_word (cpu_data : U64) (cpu : Nat) : Nat := cpu_data.toNat / 8 + 6 * cpu + 5

def Machine.saved_vmm_ctx (m : Machine) (cpu_data : U64) (cpu : Nat) : U64 :=
  m.mem (saved_vmm_ctx_word cpu_data cpu)

/-- Three pages are used, and given back. -/
def useThreePages : Prog Machine Unit := do
  let p ← pmm_alloc 3
  store64 (p.toNat + 0x1048) 7
  pmm_free p 3

/-- The second page of the next request is not zero: CPU 86 starts with a saved context. -/
theorem pmm_alloc_stale :
    ∃ m0 m1 m', pmm_init oneRange (Machine.boot 0) = some ((), m0)
      ∧ useThreePages m0 = some ((), m1)
      ∧ pmm_alloc 3 m1 = some (0x2002000, m') ∧ ¬ m'.ZeroPage 0x2003
      ∧ cpu_data_init 256 m1 = some (0x2002000, m') ∧ m'.saved_vmm_ctx 0x2002000 86 = 7 := by
  have hrun : (pmm_init oneRange (Machine.boot 0)).map (fun x => (useThreePages x.2).map fun y =>
      (pmm_alloc 3 y.2).map fun z => (z.1, z.2.saved_vmm_ctx 0x2002000 86))
        = some (some (some (0x2002000, 7))) := by
    decide +kernel
  obtain ⟨⟨_, m0⟩, hm0, hall⟩ := Option.map_eq_some_iff.mp hrun
  obtain ⟨⟨_, m1⟩, hm1, hall⟩ := Option.map_eq_some_iff.mp hall
  obtain ⟨⟨p, m'⟩, hm', hall⟩ := Option.map_eq_some_iff.mp hall
  injection hall with hp hctx
  subst hp
  refine ⟨m0, m1, m', hm0, hm1, hm', fun hzero => ?_, hm', hctx⟩
  have hslot : m'.saved_vmm_ctx 0x2002000 86 = 0 := hzero 9 (by omega)
  rw [show m'.saved_vmm_ctx 0x2002000 86 = 7 from hctx] at hslot
  exact absurd hslot (by decide)

end Quack.Arch
