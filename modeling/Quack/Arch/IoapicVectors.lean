/-
  Quack.Arch.IoapicVectors
  **IOAPIC VECTORS FOR ANY TABLE, AND THE TWO ISA ROUTES.**

  `vec` is an 8-bit counter: `ioapic_init` tests it only between two IOAPICs
  and at its end, so with enough pins it wraps around and passes both tests.
  No table is excluded here: any number of IOAPICs, windows of any size.

    • `vector_assignment_iff` — exactly when passing means that every pin has
      its own vector in the range.
    • `isa_routes_iff`        — when the routes agree, and what the masking of
      irq 0 at boot does.
-/
import Quack.Arch.Ioapic

namespace Quack.Ioapic

/-! ## §1. Passing the assertion. -/

section passing

variable (isos : List MadtIso) (freed : BitVec 8 → MadtIso → BitVec 16)

theorem vecOf_lt_iff (n : Nat) : vecOf n < 0xE0 ↔ (0x40 + n) % 256 < 0xE0 := by
  rw [BitVec.lt_def, vecOf, BitVec.toNat_ofNat]
  rfl

theorem init_from_neverFull (ioapics : List MadtIoapic) :
    ∀ (i base : Nat) (regs : Regs),
      (init_from isos freed ioapics i (vecOf base) regs).1 < 0xE0 → NeverFull ioapics base := by
  induction ioapics with
  | nil =>
    intro i base regs hlt k _
    rw [List.take_nil]
    exact hlt
  | cons ioapic ioapics ih =>
    intro i base regs hlt
    rw [init_from] at hlt
    split at hlt
    · next hfirst =>
        simp only [(map_pins_spec isos freed i (ioapic.window.toNat + 1) 0 base regs).1] at hlt
        exact neverFull_cons.mpr ⟨hfirst, ih _ _ _ hlt⟩
    · next hfull => exact absurd hlt hfull

theorem ioapic_init_some {ioapics : List MadtIoapic} {regs regs' : Regs}
    (h : ioapic_init ioapics isos freed regs = some regs') :
    NeverFull ioapics 0 ∧ ∀ i a j, ioapics[i]? = some a → j ≤ a.window.toNat →
      regs' i (j * 2 + 16) = programmed isos freed (number ioapics i j) := by
  have hpass : (init_from isos freed ioapics 0 (vecOf 0) regs).1 < 0xE0
      ∧ (init_from isos freed ioapics 0 (vecOf 0) regs).2 = regs' := by
    simp only [ioapic_init] at h
    split at h
    · next hlt => exact ⟨hlt, Option.some.inj h⟩
    · cases h
  obtain ⟨hlt, rfl⟩ := hpass
  have hfull := init_from_neverFull isos freed ioapics 0 0 regs hlt
  obtain ⟨-, -, hpins⟩ := init_from_spec isos freed ioapics 0 0 regs hfull
  refine ⟨hfull, fun i a j hi hj => ?_⟩
  have hpin := hpins i a j hi hj
  rwa [Nat.zero_add, Nat.zero_add] at hpin

theorem passes_iff (ioapics : List MadtIoapic) (regs : Regs) :
    (∃ regs', ioapic_init ioapics isos freed regs = some regs') ↔ NeverFull ioapics 0 := by
  constructor
  · rintro ⟨regs', h⟩
    exact (ioapic_init_some isos freed h).1
  · intro hfull
    have hvec := (init_from_spec isos freed ioapics 0 0 regs hfull).1
    have hend := hfull ioapics.length (Nat.le_refl _)
    rw [List.take_length] at hend
    refine ⟨(init_from isos freed ioapics 0 (vecOf 0) regs).2, if_pos ?_⟩
    show (init_from isos freed ioapics 0 (vecOf 0) regs).1 < 0xE0
    rw [hvec]
    exact hend

end passing

/-! ## §2. The pins and their running numbers. -/

/-- Pin `j` of the IOAPIC with index `i`. -/
def IsPin (ioapics : List MadtIoapic) (i j : Nat) : Prop :=
  ∃ a, ioapics[i]? = some a ∧ j ≤ a.window.toNat

variable {ioapic a : MadtIoapic} {ioapics : List MadtIoapic} {j i : Nat} {gsi : BitVec 32}

theorem isPin_zero : IsPin (ioapic :: ioapics) 0 j ↔ j ≤ ioapic.window.toNat := by
  constructor
  · rintro ⟨a, ha, hj⟩
    cases ha
    exact hj
  · intro hj
    exact ⟨ioapic, rfl, hj⟩

theorem isPin_succ : IsPin (ioapic :: ioapics) (i + 1) j ↔ IsPin ioapics i j := Iff.rfl

theorem number_lt (ioapics : List MadtIoapic) :
    ∀ i j, IsPin ioapics i j → number ioapics i j < pins ioapics := by
  rintro i j ⟨a, hi, hj⟩
  exact number_lt_pins hi hj

theorem number_inj (ioapics : List MadtIoapic) :
    ∀ i j i' j', IsPin ioapics i j → IsPin ioapics i' j' →
      number ioapics i j = number ioapics i' j' → i = i' ∧ j = j' := by
  induction ioapics with
  | nil =>
    rintro i j i' j' ⟨a, ha, -⟩
    cases ha
  | cons ioapic ioapics ih =>
    intro i j i' j' h h' heq
    cases i with
    | zero =>
      have hj := isPin_zero.mp h
      cases i' with
      | zero =>
        rw [number_zero, number_zero] at heq
        exact ⟨rfl, heq⟩
      | succ i' =>
        rw [number_zero, number_succ] at heq
        omega
    | succ i =>
      cases i' with
      | zero =>
        have hj := isPin_zero.mp h'
        rw [number_zero, number_succ] at heq
        omega
      | succ i' =>
        rw [number_succ, number_succ] at heq
        obtain ⟨rfl, rfl⟩ := ih i j i' j' (isPin_succ.mp h) (isPin_succ.mp h') (by omega)
        exact ⟨rfl, rfl⟩

theorem exists_pin (ioapics : List MadtIoapic) :
    ∀ n, n < pins ioapics → ∃ i j, IsPin ioapics i j ∧ number ioapics i j = n := by
  induction ioapics with
  | nil => intro n hn; exact absurd hn (Nat.not_lt_zero n)
  | cons ioapic ioapics ih =>
    intro n hn
    rw [pins] at hn
    by_cases hfirst : n ≤ ioapic.window.toNat
    · exact ⟨0, n, isPin_zero.mpr hfirst, number_zero _ n⟩
    · obtain ⟨i, j, hpin, hnum⟩ := ih (n - (ioapic.window.toNat + 1)) (by omega)
      refine ⟨i + 1, j, isPin_succ.mpr hpin, ?_⟩
      rw [number_succ]
      omega

/-! ## §3. Vector assignment. -/

/-- **Every pin is programmed, with a vector of its own in the IOAPIC range of the
vector layout.** -/
structure Assigned (ioapics : List MadtIoapic) (regs : Regs) : Prop where
  programmed : ∀ i j, IsPin ioapics i j →
    ∃ vec flags, regs i (j * 2 + 16) = (entry vec flags 0 false).setWidth 32
  distinct : ∀ i j i' j', IsPin ioapics i j → IsPin ioapics i' j' →
    vectorField regs i j = vectorField regs i' j' → i = i' ∧ j = j'
  inRange : ∀ i j, IsPin ioapics i j →
    0x40 ≤ (vectorField regs i j).toNat ∧ (vectorField regs i j).toNat ≤ 0xDF

section assignment

variable (isos : List MadtIso) (freed : BitVec 8 → MadtIso → BitVec 16)

variable {ioapics : List MadtIoapic}

theorem vectorField_eq {regs regs' : Regs}
    (h : ioapic_init ioapics isos freed regs = some regs') {i j : Nat} (hpin : IsPin ioapics i j) :
    vectorField regs' i j = vecOf (number ioapics i j) := by
  obtain ⟨a, hi, hj⟩ := hpin
  rw [vectorField, (ioapic_init_some isos freed h).2 i a j hi hj, programmed, (entry_bits _ _).1]

theorem vecOf_toNat (n : Nat) : (vecOf n).toNat = (0x40 + n) % 256 := by
  rw [vecOf, BitVec.toNat_ofNat]

theorem assigned_of_few {regs regs' : Regs}
    (h : ioapic_init ioapics isos freed regs = some regs') (hfew : pins ioapics < 160) :
    Assigned ioapics regs' where
  programmed := by
    rintro i j ⟨a, hi, hj⟩
    exact ⟨_, _, (ioapic_init_some isos freed h).2 i a j hi hj⟩
  distinct := by
    intro i j i' j' hpin hpin' heq
    rw [vectorField_eq isos freed h hpin, vectorField_eq isos freed h hpin'] at heq
    have hnat := congrArg BitVec.toNat heq
    rw [vecOf_toNat, vecOf_toNat] at hnat
    have hlt := number_lt ioapics i j hpin
    have hlt' := number_lt ioapics i' j' hpin'
    exact number_inj ioapics i j i' j' hpin hpin' (by omega)
  inRange := by
    intro i j hpin
    have hlt := number_lt ioapics i j hpin
    rw [vectorField_eq isos freed h hpin, vecOf_toNat]
    omega

/-- **Vector assignment.**  If `ioapic_init` passes its assertion, every pin is
programmed with its own vector in the range: that holds exactly if there are
fewer than 160 pins, or the assertion fails because the loop ends or an IOAPIC
starts with a vector behind the range.  For every table. -/
theorem vector_assignment_iff (ioapics : List MadtIoapic) (regs : Regs) :
    (∀ regs', ioapic_init ioapics isos freed regs = some regs' → Assigned ioapics regs')
      ↔ pins ioapics < 160
        ∨ ∃ k ≤ ioapics.length, 0xE0 ≤ (0x40 + pins (ioapics.take k)) % 256 := by
  constructor
  · intro hall
    by_contra hno
    obtain ⟨hmany, hnone⟩ := not_or.mp hno
    have hfull : NeverFull ioapics 0 := by
      intro k hk
      rw [vecOf_lt_iff, Nat.zero_add]
      exact Nat.not_le.mp fun hle => hnone ⟨k, hk, hle⟩
    obtain ⟨regs', hpass⟩ := (passes_iff isos freed ioapics regs).mpr hfull
    -- with exactly 160 pins the assertion fails, so there is a pin number 160
    have hend := hfull ioapics.length (Nat.le_refl _)
    rw [List.take_length, vecOf_lt_iff] at hend
    obtain ⟨i, j, hpin, hnum⟩ := exists_pin ioapics 160 (by omega)
    have hrange := ((hall regs' hpass).inRange i j hpin).2
    rw [vectorField_eq isos freed hpass hpin, hnum, vecOf_toNat] at hrange
    exact absurd hrange (by decide)
  · rintro (hfew | ⟨k, hk, hle⟩) regs' hpass
    · exact assigned_of_few isos freed hpass hfew
    · have hlt := (ioapic_init_some isos freed hpass).1 k hk
      rw [vecOf_lt_iff, Nat.zero_add] at hlt
      exact absurd hle (Nat.not_le.mpr hlt)

end assignment

/-- An IOAPIC of 256 pins and one of a single pin: the counter wraps, pins get
vectors of the NMIs and of the CPU exceptions, and the first pins of the two get
the same one. -/
theorem vector_assignment_wraps :
    ∃ regs', ioapic_init [⟨0, 255⟩, ⟨256, 0⟩] [] (fun _ iso => iso.flags) (fun _ _ => 0) = some regs'
      ∧ vectorField regs' 0 160 = 0xE0 ∧ vectorField regs' 0 192 = 0
      ∧ vectorField regs' 0 0 = 0x40 ∧ vectorField regs' 1 0 = 0x40 := by
  have hfull : NeverFull [⟨0, 255⟩, ⟨256, 0⟩] 0 := by
    intro k hk
    have hcases : k = 0 ∨ k = 1 ∨ k = 2 := by
      simp only [List.length_cons, List.length_nil] at hk
      omega
    rcases hcases with rfl | rfl | rfl <;> decide
  obtain ⟨regs', hpass⟩ := (passes_iff [] (fun _ iso => iso.flags) _ fun _ _ => 0).mpr hfull
  have hvec := fun i j h => vectorField_eq [] _ hpass (i := i) (j := j) h
  refine ⟨regs', hpass, ?_, ?_, ?_, ?_⟩
  · rw [hvec 0 160 ⟨_, rfl, by decide⟩]; decide
  · rw [hvec 0 192 ⟨_, rfl, by decide⟩]; decide
  · rw [hvec 0 0 ⟨_, rfl, by decide⟩]; decide
  · rw [hvec 1 0 ⟨_, rfl, by decide⟩]; decide

/-! ## §4. The two ISA routes. -/

/-- The first override of an irq of bus 0. -/
def overrideOf (isos : List MadtIso) (irq : BitVec 8) : Option MadtIso :=
  isos.find? fun iso => iso.bus = 0 ∧ iso.irq = irq

/-- `ioapic_get_vector_by_irq`. -/
def ioapic_get_vector_by_irq (ioapics : List MadtIoapic) (isos : List MadtIso) (irq : BitVec 8) :
    BitVec 8 :=
  match overrideOf isos irq with
  | some iso => ioapic_get_vector_by_gsi ioapics iso.gsi
  | none => ioapic_get_vector_by_gsi ioapics (irq.setWidth 32)

/-- `ioapic_get_gsi_by_irq`. -/
def ioapic_get_gsi_by_irq (isos : List MadtIso) (irq : BitVec 8) : BitVec 32 :=
  match overrideOf isos irq with
  | some iso => iso.gsi
  -- not the irq itself
  | none => -1

def get_by_gsi_from (gsi : BitVec 32) : List MadtIoapic → (i : Nat) → Option (Nat × MadtIoapic)
  | [], _ => none
  | ioapic :: ioapics, i =>
    if ioapic.gsi_base ≤ gsi ∧ gsi.toNat ≤ ioapic.gsi_base.toNat + ioapic.window.toNat
    then some (i, ioapic) else get_by_gsi_from gsi ioapics (i + 1)

/-- `ioapic_get_by_gsi`, with the entry of the table. -/
def ioapic_get_by_gsi (ioapics : List MadtIoapic) (gsi : BitVec 32) : Option (Nat × MadtIoapic) :=
  get_by_gsi_from gsi ioapics 0

/-- `ioapic_mask_pin`. -/
def ioapic_mask_pin (regs : Regs) (ioapic pin : Nat) (masked : Bool) : Regs :=
  let reg := pin * 2 + 16
  let ent : BitVec 64 := (regs ioapic (reg + 0)).setWidth 64
    ||| (regs ioapic (reg + 1)).setWidth 64 <<< 32
  let ent := if masked then ent ||| (1#64 <<< 16) else ent &&& ~~~(1#64 <<< 16)
  ioapic_write (ioapic_write regs ioapic (reg + 0) (ent.setWidth 32)) ioapic (reg + 1)
    ((ent >>> 32).setWidth 32)

/-- `ioapic_mask_gsi`; `none` is the panic. -/
def ioapic_mask_gsi (ioapics : List MadtIoapic) (regs : Regs) (gsi : BitVec 32) (masked : Bool) :
    Option Regs :=
  (ioapic_get_by_gsi ioapics gsi).map fun r =>
    ioapic_mask_pin regs r.1 (gsi - r.2.gsi_base).toNat masked

/-- Some IOAPIC has the GSI. -/
def Covered (ioapics : List MadtIoapic) (gsi : BitVec 32) : Prop :=
  ∃ a ∈ ioapics, a.Handles gsi.toNat

theorem StopsAt.isPin (h : StopsAt ioapics gsi i j) : IsPin ioapics i j := by
  obtain ⟨a, hi, hj, -⟩ := h.pin
  exact ⟨a, hi, hj⟩

theorem stopsAt_cons_zero (hj : j ≤ a.window.toNat) (hgsi : a.gsi_base.toNat + j = gsi.toNat) :
    StopsAt (a :: ioapics) gsi 0 j :=
  ⟨⟨a, rfl, hj, hgsi⟩, fun k hk => absurd hk (Nat.not_lt_zero k)⟩

theorem get_by_gsi_from_spec (gsi : BitVec 32) (ioapics : List MadtIoapic) :
    ∀ first, match get_by_gsi_from gsi ioapics first with
      | none => ¬ Covered ioapics gsi
      | some (k, a) => Covered ioapics gsi
          ∧ ∃ i, k = first + i ∧ ioapics[i]? = some a
            ∧ StopsAt ioapics gsi i (gsi - a.gsi_base).toNat := by
  induction ioapics with
  | nil =>
    intro first
    rintro ⟨a, ha, -⟩
    cases ha
  | cons ioapic ioapics ih =>
    intro first
    have hhandles : (ioapic.gsi_base ≤ gsi
        ∧ gsi.toNat ≤ ioapic.gsi_base.toNat + ioapic.window.toNat)
        ↔ ioapic.Handles gsi.toNat := Iff.rfl
    rw [get_by_gsi_from]
    by_cases hhead : ioapic.Handles gsi.toNat
    · rw [if_pos (hhandles.mpr hhead)]
      have hsub : (gsi - ioapic.gsi_base).toNat = gsi.toNat - ioapic.gsi_base.toNat := by
        have hle := hhead.1
        have hlt := gsi.isLt
        rw [BitVec.toNat_sub]
        omega
      refine ⟨⟨ioapic, List.mem_cons_self, hhead⟩, 0, rfl, rfl, ?_⟩
      obtain ⟨hlo, hhi⟩ := hhead
      exact stopsAt_cons_zero (by omega) (by omega)
    · rw [if_neg (mt hhandles.mp hhead)]
      have hrest := ih (first + 1)
      cases hget : get_by_gsi_from gsi ioapics (first + 1) with
      | none =>
        rw [hget] at hrest
        rintro ⟨a, ha, hha⟩
        rcases List.mem_cons.mp ha with rfl | ha
        · exact hhead hha
        · exact hrest ⟨a, ha, hha⟩
      | some r =>
        obtain ⟨k, a⟩ := r
        rw [hget] at hrest
        obtain ⟨⟨b, hb, hhb⟩, i, rfl, hi, hstop⟩ := hrest
        exact ⟨⟨b, List.mem_cons_of_mem _ hb, hhb⟩, i + 1, by omega, hi,
          stopsAt_cons_succ.mpr ⟨hhead, hstop⟩⟩

/-! ## §5. Masking. -/

/-- The mask bit of one pin's entry set, and nothing else. -/
def maskedAt (regs : Regs) (i j : Nat) : Regs := fun k reg =>
  if k = i ∧ reg = j * 2 + 16 then regs k reg ||| 0x10000 else regs k reg

theorem mask_words (low high : BitVec 32) :
    ((low.setWidth 64 ||| high.setWidth 64 <<< 32) ||| (1#64 <<< 16) : BitVec 64).setWidth 32
        = low ||| 0x10000
      ∧ (((low.setWidth 64 ||| high.setWidth 64 <<< 32) ||| (1#64 <<< 16) : BitVec 64)
          >>> 32).setWidth 32 = high := by
  have hbit : (1#64 <<< 16 : BitVec 64) = BitVec.twoPow 64 16 := by decide
  have hbit' : (0x10000 : BitVec 32) = BitVec.twoPow 32 16 := by decide
  rw [hbit, hbit']
  constructor
  · refine BitVec.eq_of_getLsbD_eq fun i hi => ?_
    have h64 : i < 64 := by omega
    simp only [BitVec.getLsbD_setWidth, BitVec.getLsbD_or, BitVec.getLsbD_shiftLeft,
      BitVec.getLsbD_twoPow, hi, h64, decide_true, Bool.true_and, Bool.not_true, Bool.false_and,
      Bool.or_false]
    grind
  · refine BitVec.eq_of_getLsbD_eq fun i hi => ?_
    have h64 : 32 + i < 64 := by omega
    have hhigh : 32 ≤ 32 + i := by omega
    simp only [BitVec.getLsbD_setWidth, BitVec.getLsbD_ushiftRight, BitVec.getLsbD_or,
      BitVec.getLsbD_shiftLeft, BitVec.getLsbD_twoPow, hi, h64, decide_true, Bool.true_and]
    grind

theorem ioapic_mask_pin_eq (regs : Regs) (i j : Nat) :
    ioapic_mask_pin regs i j true = maskedAt regs i j := by
  obtain ⟨hlow, hhigh⟩ := mask_words (regs i (j * 2 + 16)) (regs i (j * 2 + 16 + 1))
  unfold ioapic_mask_pin maskedAt
  simp only [if_true, Nat.add_zero, hlow, hhigh]
  funext k reg
  by_cases hk : k = i
  · subst hk
    by_cases hhi : reg = j * 2 + 16 + 1
    · subst hhi
      rw [write_same, if_neg (by omega)]
    · rw [write_other_reg _ _ hhi]
      by_cases hlo : reg = j * 2 + 16
      · subst hlo
        rw [write_same, if_pos ⟨rfl, rfl⟩]
      · rw [write_other_reg _ _ hlo, if_neg fun h => hlo h.2]
  · rw [write_other _ hk, write_other _ hk, if_neg fun h => hk h.1]

theorem ioapic_mask_gsi_spec (ioapics : List MadtIoapic) (regs : Regs) (gsi : BitVec 32) :
    ((∃ regs', ioapic_mask_gsi ioapics regs gsi true = some regs') ↔ Covered ioapics gsi)
    ∧ ∀ regs', ioapic_mask_gsi ioapics regs gsi true = some regs' →
        ∃ i j, StopsAt ioapics gsi i j ∧ regs' = maskedAt regs i j := by
  have hspec := get_by_gsi_from_spec gsi ioapics 0
  unfold ioapic_mask_gsi ioapic_get_by_gsi
  cases hget : get_by_gsi_from gsi ioapics 0 with
  | none =>
    rw [hget] at hspec
    refine ⟨⟨fun h => ?_, fun h => absurd h hspec⟩, fun regs' h => ?_⟩
    · obtain ⟨regs', h⟩ := h
      cases h
    · cases h
  | some r =>
    obtain ⟨k, a⟩ := r
    rw [hget] at hspec
    obtain ⟨hcovered, i, rfl, -, hstop⟩ := hspec
    refine ⟨⟨fun _ => hcovered, fun _ => ⟨_, rfl⟩⟩, fun regs' h => ⟨i, _, hstop, ?_⟩⟩
    rw [← ioapic_mask_pin_eq, ← Option.some.inj h, Nat.zero_add]

theorem entry_unmasked (irq : BitVec 8) (flags : BitVec 16) :
    ((entry irq flags 0 false).setWidth 32).getLsbD 16 = false := by
  unfold entry
  simp only [and_two_ne_zero, and_eight_ne_zero]
  generalize flags.getLsbD 1 = low
  generalize flags.getLsbD 3 = level
  revert irq low level
  decide +kernel

theorem maskedAt_inj {regs : Regs} {i' j' : Nat}
    (hopen : (regs i (j * 2 + 16)).getLsbD 16 = false)
    (h : maskedAt regs i j = maskedAt regs i' j') : i = i' ∧ j = j' := by
  by_contra hne
  have hreg := congrFun (congrFun h i) (j * 2 + 16)
  unfold maskedAt at hreg
  rw [if_pos ⟨rfl, rfl⟩, if_neg fun hc => hne ⟨hc.1, by omega⟩] at hreg
  have hbit := congrArg (fun w : BitVec 32 => w.getLsbD 16) hreg
  simp only [BitVec.getLsbD_or, hopen] at hbit
  exact absurd hbit (by decide)

/-! ## §6. The routes agree where there is an override. -/

/-- The GSI whose vector `ioapic_get_vector_by_irq` looks up. -/
def routedGsi (isos : List MadtIso) (irq : BitVec 8) : BitVec 32 :=
  match overrideOf isos irq with
  | some iso => iso.gsi
  | none => irq.setWidth 32

theorem vector_by_irq_eq (ioapics : List MadtIoapic) (isos : List MadtIso) (irq : BitVec 8) :
    ioapic_get_vector_by_irq ioapics isos irq
      = ioapic_get_vector_by_gsi ioapics (routedGsi isos irq) := by
  unfold ioapic_get_vector_by_irq routedGsi
  cases overrideOf isos irq <;> rfl

def RoutesAgree (ioapics : List MadtIoapic) (isos : List MadtIso) (irq : BitVec 8) : Prop :=
  ioapic_get_vector_by_irq ioapics isos irq
      = ioapic_get_vector_by_gsi ioapics (ioapic_get_gsi_by_irq isos irq)
    ∧ (overrideOf isos irq = none → ioapic_get_gsi_by_irq isos irq = irq.setWidth 32)

theorem routesAgree_iff (ioapics : List MadtIoapic) (isos : List MadtIso) (irq : BitVec 8) :
    RoutesAgree ioapics isos irq ↔ overrideOf isos irq ≠ none := by
  unfold RoutesAgree ioapic_get_vector_by_irq ioapic_get_gsi_by_irq
  cases hover : overrideOf isos irq with
  | some iso => simp
  | none =>
    -- -1 is no irq
    refine ⟨fun h => ?_, fun h => absurd rfl h⟩
    have hnat := congrArg BitVec.toNat (h.2 rfl)
    have hmax : (-1 : BitVec 32).toNat = 2 ^ 32 - 1 := rfl
    have hlt := irq.isLt
    simp only [hmax, BitVec.toNat_setWidth] at hnat
    omega

/-- **Irq 0 at boot**, after `ioapic_init` has left `regs`: `arch_entry` masks the
pin whose vector `lapic_timer_calc_freq_bsp` has used, and no other, and does not
panic if an IOAPIC has GSI 0. -/
structure BootMasks (ioapics : List MadtIoapic) (isos : List MadtIso) (regs : Regs) : Prop where
  exact : ∀ regs', ioapic_mask_gsi ioapics regs (ioapic_get_gsi_by_irq isos 0) true = some regs' →
    ∃ i j, StopsAt ioapics (routedGsi isos 0) i j
      ∧ vectorField regs i j = ioapic_get_vector_by_irq ioapics isos 0
      ∧ regs' = maskedAt regs i j
  returns : Covered ioapics 0 →
    ∃ regs', ioapic_mask_gsi ioapics regs (ioapic_get_gsi_by_irq isos 0) true = some regs'

section boot

variable {ioapics : List MadtIoapic} {isos : List MadtIso} {freed : BitVec 8 → MadtIso → BitVec 16}
  {regs regs' : Regs}

theorem bootMasks_override (hpass : ioapic_init ioapics isos freed regs = some regs')
    {iso : MadtIso} (hover : overrideOf isos 0 = some iso) :
    BootMasks ioapics isos regs' ↔ (Covered ioapics 0 → Covered ioapics iso.gsi) := by
  have hgsi : ioapic_get_gsi_by_irq isos 0 = iso.gsi := by rw [ioapic_get_gsi_by_irq, hover]
  have hrouted : routedGsi isos 0 = iso.gsi := by rw [routedGsi, hover]
  obtain ⟨hreturns, hmasks⟩ := ioapic_mask_gsi_spec ioapics regs' iso.gsi
  constructor
  · intro h hzero
    rw [← hreturns, ← hgsi]
    exact h.returns hzero
  · intro h
    refine ⟨fun regs'' hres => ?_, fun hzero => ?_⟩
    · rw [hgsi] at hres
      obtain ⟨i, j, hstop, rfl⟩ := hmasks regs'' hres
      refine ⟨i, j, by rw [hrouted]; exact hstop, ?_, rfl⟩
      have hvec := vector_from_stopsAt iso.gsi ioapics 0 i j
        (ioapic_init_some isos freed hpass).1 hstop
      rw [Nat.zero_add] at hvec
      rw [vectorField_eq isos freed hpass hstop.isPin, vector_by_irq_eq, hrouted, ← hvec]
      rfl
    · rw [hgsi]
      exact hreturns.mpr (h hzero)

theorem bootMasks_plain (hpass : ioapic_init ioapics isos freed regs = some regs')
    (hover : overrideOf isos 0 = none) :
    BootMasks ioapics isos regs' ↔ ¬ Covered ioapics 0 ∧ ¬ Covered ioapics (-1) := by
  have hgsi : ioapic_get_gsi_by_irq isos 0 = -1 := by rw [ioapic_get_gsi_by_irq, hover]
  have hrouted : routedGsi isos 0 = 0 := by rw [routedGsi, hover]; rfl
  obtain ⟨hreturns, hmasks⟩ := ioapic_mask_gsi_spec ioapics regs' (-1)
  constructor
  · intro h
    -- a pin that is masked has GSI -1 and not GSI 0
    have hnone : ¬ ∃ regs'', ioapic_mask_gsi ioapics regs' (-1) true = some regs'' := by
      rintro ⟨regs'', hres⟩
      obtain ⟨i, j, hstop, rfl⟩ := hmasks regs'' hres
      obtain ⟨i', j', hstop', -, hsame⟩ := h.exact _ (by rw [hgsi]; exact hres)
      obtain ⟨a, hi, hj, hbase⟩ := hstop.pin
      have hopen : (regs' i (j * 2 + 16)).getLsbD 16 = false := by
        rw [(ioapic_init_some isos freed hpass).2 i a j hi hj]
        exact entry_unmasked _ _
      obtain ⟨rfl, rfl⟩ := maskedAt_inj hopen hsame
      obtain ⟨a', hi', -, hbase'⟩ := hstop'.pin
      cases hi.symm.trans hi'
      rw [hrouted] at hbase'
      exact absurd (hbase.symm.trans hbase') (by decide)
    refine ⟨fun hzero => hnone ?_, fun hcov => hnone (hreturns.mpr hcov)⟩
    rw [← hgsi]
    exact h.returns hzero
  · rintro ⟨hzero, hmax⟩
    refine ⟨fun regs'' hres => ?_, fun h => absurd h hzero⟩
    rw [hgsi] at hres
    exact absurd (hreturns.mp ⟨regs'', hres⟩) hmax

end boot

/-- **The ISA routes.**  For every table and irq the two routes agree exactly if
the irq has an override.  After `ioapic_init`, the masking of irq 0 at boot is
right exactly if irq 0 has an override to a GSI that an IOAPIC has whenever one
has GSI 0, or has none and no IOAPIC has GSI 0 or the GSI -1. -/
theorem isa_routes_iff (ioapics : List MadtIoapic) (isos : List MadtIso) :
    (∀ irq, RoutesAgree ioapics isos irq ↔ overrideOf isos irq ≠ none)
    ∧ ∀ freed regs regs', ioapic_init ioapics isos freed regs = some regs' →
        (BootMasks ioapics isos regs'
          ↔ (∃ iso, overrideOf isos 0 = some iso ∧ (Covered ioapics 0 → Covered ioapics iso.gsi))
            ∨ (overrideOf isos 0 = none ∧ ¬ Covered ioapics 0 ∧ ¬ Covered ioapics (-1))) := by
  refine ⟨routesAgree_iff ioapics isos, fun freed regs regs' hpass => ?_⟩
  cases hover : overrideOf isos 0 with
  | some iso =>
    rw [bootMasks_override hpass hover]
    refine ⟨fun h => Or.inl ⟨iso, rfl, h⟩, fun h => ?_⟩
    rcases h with ⟨iso', hiso, h⟩ | ⟨h, -⟩
    · cases hiso
      exact h
    · cases h
  | none =>
    rw [bootMasks_plain hpass hover]
    refine ⟨fun h => Or.inr ⟨rfl, h⟩, fun h => ?_⟩
    rcases h with ⟨iso, hiso, -⟩ | ⟨-, h⟩
    · cases hiso
    · exact h

/-- One IOAPIC with 24 pins, and irq 0 overridden to GSI 2. -/
theorem isa_routes_override :
    RoutesAgree [⟨0, 23⟩] [⟨0, 0, 2, 0⟩] 0
    ∧ ∃ regs', ioapic_init [⟨0, 23⟩] [⟨0, 0, 2, 0⟩] (fun _ iso => iso.flags) (fun _ _ => 0) = some regs'
      ∧ BootMasks [⟨0, 23⟩] [⟨0, 0, 2, 0⟩] regs' := by
  have hroutes := isa_routes_iff [⟨0, 23⟩] [⟨0, 0, 2, 0⟩]
  have hfull : NeverFull [⟨0, 23⟩] 0 := neverFull_of_few _ 0 (by decide)
  obtain ⟨regs', hpass⟩ :=
    (passes_iff [⟨0, 0, 2, 0⟩] (fun _ iso => iso.flags) [⟨0, 23⟩] fun _ _ => 0).mpr hfull
  refine ⟨(hroutes.1 0).mpr (by decide), regs', hpass, (hroutes.2 _ _ regs' hpass).mpr ?_⟩
  exact Or.inl ⟨⟨0, 0, 2, 0⟩, by decide, fun _ => ⟨⟨0, 23⟩, List.mem_cons_self, by decide, by decide⟩⟩

/-- The same IOAPIC without overrides: the lookup of irq 0 gives vector 0x40, the
other route the GSI -1, which has no vector and for which the masking panics. -/
theorem isa_routes_disagree :
    ioapic_get_vector_by_irq [⟨0, 23⟩] [] 0 = 0x40
    ∧ ioapic_get_vector_by_gsi [⟨0, 23⟩] (ioapic_get_gsi_by_irq [] 0) = 0xFF
    ∧ Covered [⟨0, 23⟩] 0
    ∧ ∀ regs, ioapic_mask_gsi [⟨0, 23⟩] regs (ioapic_get_gsi_by_irq [] 0) true = none := by
  refine ⟨by decide, by decide, ⟨⟨0, 23⟩, List.mem_cons_self, by decide, by decide⟩, fun regs => ?_⟩
  have hget : ioapic_get_by_gsi [⟨0, 23⟩] (ioapic_get_gsi_by_irq [] 0) = none := by decide
  rw [ioapic_mask_gsi, hget]
  rfl

end Quack.Ioapic
