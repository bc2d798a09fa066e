/-
  Quack.Arch.Smp
  **THE PER-CPU DATA AND `smp_init`.**

  `cpu_data_get` returns `NULL` from `max_cpus` on, and no caller tests for it.
  Of `smp_init_single` only the index of the processor is modelled, and whether
  the processor comes up.
-/
import Quack.Arch.FreshFrames
import Quack.Acpi.Madt
import Quack.Util.Cmdline
import Quack.Util.Stdlib

namespace Quack.Smp

open Util Arch Madt Cmdline

def DEFAULT_MAX_CPUS : BitVec 32 := 256

/-- `max_cpus`, as `cpu_data_init` sets it. -/
def max_cpus (arg_list : List CmdArg) : BitVec 32 :=
  match cmdline_get_values arg_list (bytes ['c', 'p', 'u']) with
  | none => DEFAULT_MAX_CPUS
  | some cpu_args => Stdlib.atoi (cpu_args.headD [])

def cpu_data_get (cpu_data : U64) (max_cpus : BitVec 32) (cpu : Nat) : Option U64 :=
  if (cpu : Int) ≥ max_cpus.toInt then none
  else some (cpu_data + BitVec.ofNat 64 cpu * cpu_data_size)

def Wanted (l : MadtLapic) : Prop := l.flags &&& 1 ≠ 0 ∧ l.apic_id ≠ 0

instance (l : MadtLapic) : Decidable (Wanted l) := inferInstanceAs (Decidable (_ ∧ _))

def smp_init : (smp_core_count : Nat) → List (MadtLapic × Bool) → List (MadtLapic × Nat)
  | _, [] => []
  | smp_core_count, (l, has_started) :: lapics =>
    if Wanted l then
      (l, smp_core_count + 1)
        :: smp_init (if has_started then smp_core_count + 1 else smp_core_count) lapics
    else smp_init smp_core_count lapics

/-- The entries whose processor is to be started and comes up. -/
def cameUp : List (MadtLapic × Bool) → Nat
  | [] => 0
  | (l, has_started) :: lapics => (if Wanted l ∧ has_started then 1 else 0) + cameUp lapics

theorem mem_smp_init {l : MadtLapic} {cpu : Nat} (lapics : List (MadtLapic × Bool)) (n : Nat) :
    (l, cpu) ∈ smp_init n lapics
      ↔ ∃ pre up post, lapics = pre ++ (l, up) :: post ∧ Wanted l ∧ cpu = n + cameUp pre + 1 := by
  induction lapics generalizing n with
  | nil => simp [smp_init]
  | cons entry lapics ih =>
    obtain ⟨l', up'⟩ := entry
    -- the entry itself, or one behind it
    have hsplit : (∃ pre up post, (l', up') :: lapics = pre ++ (l, up) :: post ∧ Wanted l
          ∧ cpu = n + cameUp pre + 1)
        ↔ (l' = l ∧ Wanted l ∧ cpu = n + 1) ∨ ∃ pre up post, lapics = pre ++ (l, up) :: post
          ∧ Wanted l ∧ cpu = n + ((if Wanted l' ∧ up' then 1 else 0) + cameUp pre) + 1 := by
      constructor
      · rintro ⟨pre, up, post, heq, hl, hcpu⟩
        cases pre with
        | nil =>
          injection heq with heq _
          injection heq with heq _
          exact Or.inl ⟨heq, hl, hcpu⟩
        | cons first pre =>
          injection heq with hfirst heq
          subst hfirst
          exact Or.inr ⟨pre, up, post, heq, hl, hcpu⟩
      · rintro (⟨rfl, hl, hcpu⟩ | ⟨pre, up, post, rfl, hl, hcpu⟩)
        · exact ⟨[], up', lapics, rfl, hl, hcpu⟩
        · exact ⟨(l', up') :: pre, up, post, rfl, hl, hcpu⟩
    rw [hsplit, smp_init]
    by_cases hw : Wanted l'
    · rw [if_pos hw, List.mem_cons, ih]
      cases up' with
      | true => grind
      | false => grind
    · rw [if_neg hw, ih]
      grind

/-- The structure `cpu_data_get` gives is in the pages of `cpu_data_init`. -/
def Inside (cpu_data : U64) (max_cpus : BitVec 32) (cpu : Nat) : Prop :=
  cpu_data ≠ 0 ∧ ∃ d, cpu_data_get cpu_data max_cpus cpu = some d ∧ cpu_data.toNat ≤ d.toNat
    ∧ d.toNat + cpu_data_size.toNat
      ≤ cpu_data.toNat + 4096 * ((max_cpus.signExtend 64 * cpu_data_size + 0xFFF) / 0x1000).toNat

theorem inside_iff {max : BitVec 32} {m m' : Machine} {cpu_data : U64}
    (h : cpu_data_init max m = some (cpu_data, m')) (cpu : Nat) :
    Inside cpu_data max cpu ↔ cpu_data ≠ 0 ∧ (cpu : Int) < max.toInt := by
  unfold Inside cpu_data_get cpu_data_size
  refine and_congr_right fun hne => ?_
  have hlow : cpu_data.toNat < 2 ^ 32 := by
    rcases pmm_alloc_ex_taken h with ⟨h0, -⟩ | ⟨f, hp, hf, -⟩
    · exact absurd h0 hne
    · omega
  by_cases hcpu : (cpu : Int) ≥ max.toInt
  · rw [if_pos hcpu]
    refine iff_of_false ?_ (by omega)
    rintro ⟨_, hd, -⟩
    cases hd
  · rw [if_neg hcpu]
    refine iff_of_true ⟨_, rfl, ?_⟩ (by omega)
    have hlt : cpu < max.toNat ∧ max.toNat < 2 ^ 31 := by
      rw [BitVec.toInt_eq_toNat_cond] at hcpu
      split at hcpu <;> omega
    have h48 : (48 : U64).toNat = 48 := rfl
    have hd : (cpu_data + BitVec.ofNat 64 cpu * 48).toNat = cpu_data.toNat + cpu * 48 := by
      rw [BitVec.toNat_add, BitVec.toNat_mul, BitVec.toNat_ofNat, h48]
      omega
    have hpages : ((max.signExtend 64 * 48 + 0xFFF) / 0x1000).toNat
        = (max.toNat * 48 + 0xFFF) / 0x1000 := by
      rw [BitVec.signExtend_eq_setWidth_of_msb_false
          (BitVec.msb_eq_false_iff_two_mul_lt.mpr (by omega)), BitVec.toNat_udiv,
        BitVec.toNat_add, BitVec.toNat_mul, BitVec.toNat_setWidth, h48,
        show (0xFFF : U64).toNat = 0xFFF from rfl, show (0x1000 : U64).toNat = 0x1000 from rfl]
      omega
    rw [hd, hpages, h48]
    omega

/-- **The per-CPU data is in bounds**: every structure that is used, that of the first
processor included, and no processor is started beyond the maximum. -/
structure Bounded (cpu_data : U64) (max_cpus : BitVec 32) (lapics : List (MadtLapic × Bool)) :
    Prop where
  inside : ∀ cpu ∈ 0 :: (smp_init 0 lapics).map Prod.snd, Inside cpu_data max_cpus cpu
  stopped : ∀ p ∈ smp_init 0 lapics, (p.2 : Int) < max_cpus.toInt

/-- **When it is**: there is memory for it, the limit is positive, and above the number of
processors that have come up before any entry of the MADT that is to be started, and one more. -/
theorem cpu_data_inside_iff (arg_list : List CmdArg) (lapics : List (MadtLapic × Bool))
    (m m' : Machine) (cpu_data : U64)
    (h : cpu_data_init (max_cpus arg_list) m = some (cpu_data, m')) :
    Bounded cpu_data (max_cpus arg_list) lapics
      ↔ cpu_data ≠ 0 ∧ 0 < (max_cpus arg_list).toInt
        ∧ ∀ pre l up post, lapics = pre ++ (l, up) :: post → Wanted l →
          (cameUp pre : Int) + 1 < (max_cpus arg_list).toInt := by
  constructor
  · intro hb
    obtain ⟨hne, hpos⟩ := (inside_iff h 0).mp (hb.inside 0 List.mem_cons_self)
    refine ⟨hne, hpos, fun pre l up post heq hl => ?_⟩
    have hlt := hb.stopped _ ((mem_smp_init lapics 0).mpr ⟨pre, up, post, heq, hl, rfl⟩)
    omega
  · rintro ⟨hne, hpos, hall⟩
    have hstopped : ∀ p ∈ smp_init 0 lapics, (p.2 : Int) < (max_cpus arg_list).toInt := by
      intro p hp
      obtain ⟨pre, up, post, heq, hl, hcpu⟩ := (mem_smp_init lapics 0).mp hp
      have hlt := hall pre p.1 up post heq hl
      omega
    refine ⟨fun cpu hcpu => (inside_iff h cpu).mpr ⟨hne, ?_⟩, hstopped⟩
    rcases List.mem_cons.mp hcpu with rfl | hcpu
    · exact hpos
    · obtain ⟨p, hp, rfl⟩ := List.mem_map.mp hcpu
      exact hstopped p hp

/-- The argument `cpu=n`. -/
def cpuArg (n : Char) : List CmdArg := [⟨bytes ['c', 'p', 'u'], some [bytes [n]], 1⟩]

def fourLapics : List (MadtLapic × Bool) :=
  [(⟨0, 0, 1⟩, true), (⟨1, 1, 0⟩, true), (⟨2, 2, 1⟩, false), (⟨3, 3, 1⟩, true)]

theorem cpu_data_inside_four :
    ∃ m0 m' p, pmm_init oneRange (Machine.boot 0) = some ((), m0)
      ∧ cpu_data_init (max_cpus (cpuArg '2')) m0 = some (p, m')
      ∧ Bounded p (max_cpus (cpuArg '2')) fourLapics := by
  have hrun : (pmm_init oneRange (Machine.boot 0)).map (fun x =>
      (cpu_data_init (max_cpus (cpuArg '2')) x.2).map Prod.fst) = some (some 0x2002000) := by
    decide +kernel
  obtain ⟨⟨_, m0⟩, hm0, hall⟩ := Option.map_eq_some_iff.mp hrun
  obtain ⟨⟨p, m'⟩, hm', rfl⟩ := Option.map_eq_some_iff.mp hall
  have hmax : (max_cpus (cpuArg '2')).toInt = 2 := by decide
  refine ⟨m0, m', _, hm0, hm', (cpu_data_inside_iff _ fourLapics m0 m' _ hm').mpr
    ⟨by decide, by decide, fun pre l up post heq hl => ?_⟩⟩
  -- both processors get index 1
  have hmem := (mem_smp_init fourLapics 0).mpr ⟨pre, up, post, heq, hl, rfl⟩
  have hall : ∀ p ∈ smp_init 0 fourLapics, p.2 = 1 := by decide
  have hone := hall _ hmem
  simp only at hone
  omega

/-- The argument `cpu=1`, and a second processor: it is started, and its data is looked for
at `NULL`. -/
theorem cpu_data_null : (⟨1, 1, 1⟩, 1) ∈ smp_init 0 [(⟨0, 0, 1⟩, true), (⟨1, 1, 1⟩, true)]
    ∧ cpu_data_get 0x2002000 (max_cpus (cpuArg '1')) 1 = none
    ∧ ¬ Bounded 0x2002000 (max_cpus (cpuArg '1')) [(⟨0, 0, 1⟩, true), (⟨1, 1, 1⟩, true)] := by
  have hmem : (⟨1, 1, 1⟩, 1) ∈ smp_init 0 [(⟨0, 0, 1⟩, true), (⟨1, 1, 1⟩, true)] := by decide
  exact ⟨hmem, if_pos (by decide), fun hb => absurd (hb.stopped _ hmem) (by decide)⟩

end Quack.Smp
