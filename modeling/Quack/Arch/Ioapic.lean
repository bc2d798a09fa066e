/-
  Quack.Arch.Ioapic
  **IOAPIC PROGRAMMING AGAINST IOAPIC LOOKUP.**

  `ioapic_init` numbers all pins of all IOAPICs in table order, from vector
  0x40 on, and `ioapic_get_vector_by_gsi` repeats the enumeration until it
  meets the pin of the GSI.  The vectors agree.  The polarity and trigger mode
  of a pin come from the ISO entry for a GSI, and `ioapic_init` looks that
  entry up under the running number `vec - 0x40`, not under the pin's GSI.

  `ioapic_get_iso_by_gsi` searches a copy of the ISO table and returns a
  pointer into it; the copy is freed on return.  What the caller reads through
  that pointer is the parameter `freed`.
-/
import Mathlib.Logic.Function.Basic
import Mathlib.Algebra.Group.Nat.Defs

namespace Quack.Ioapic

/-! ## §1. The tables and the devices. -/

/-- `madt_ioapic`, with what the device answers in bits 16 to 23 of its
register 1: the number of its last pin. -/
structure MadtIoapic where
  gsi_base : BitVec 32
  window : BitVec 8
  deriving Repr, DecidableEq

/-- `madt_iso`. -/
structure MadtIso where
  bus : BitVec 8
  irq : BitVec 8
  gsi : BitVec 32
  flags : BitVec 16
  deriving Repr, DecidableEq

/-- The registers of the IOAPICs, by index in the table and register number. -/
abbrev Regs := Nat → Nat → BitVec 32

/-- `ioapic_write`. -/
def ioapic_write (regs : Regs) (ioapic reg : Nat) (val : BitVec 32) : Regs :=
  Function.update regs ioapic (Function.update (regs ioapic) reg val)

/-- The 64-bit redirection entry `ioapic_map_pin_to_irq` builds. -/
def entry (irq : BitVec 8) (flags : BitVec 16) (apic : BitVec 8) (masked : Bool) : BitVec 64 :=
  let ent := irq.setWidth 64
  let ent := if flags &&& 2 ≠ 0 then ent ||| (1 <<< 13) else ent
  let ent := if flags &&& 8 ≠ 0 then ent ||| (1 <<< 15) else ent
  let ent := if masked then ent ||| (1 <<< 16) else ent
  ent ||| (apic.setWidth 64 <<< 56)

/-- `ioapic_map_pin_to_irq`. -/
def ioapic_map_pin_to_irq (regs : Regs) (ioapic : Nat) (irq : BitVec 8) (pin : Nat)
    (flags : BitVec 16) (apic : BitVec 8) (masked : Bool) : Regs :=
  let ent := entry irq flags apic masked
  let reg := pin * 2 + 16
  ioapic_write (ioapic_write regs ioapic (reg + 0) (ent.setWidth 32)) ioapic (reg + 1)
    ((ent >>> 32).setWidth 32)

/-- `ioapic_get_iso_by_gsi`. -/
def ioapic_get_iso_by_gsi (isos : List MadtIso) (gsi : BitVec 32) : Option MadtIso :=
  isos.find? fun iso => iso.gsi = gsi

/-! ## §2. The two enumerations. -/

def flags_for (isos : List MadtIso) (freed : BitVec 8 → MadtIso → BitVec 16) (vec : BitVec 8) :
    BitVec 16 :=
  -- `vec - 0x40`, an `int`, is the running number of the pin, whatever its GSI
  match ioapic_get_iso_by_gsi isos (vec.setWidth 32 - 0x40) with
  | none => 0
  | some iso => freed vec iso

/-- The inner loop of `ioapic_init`, with `n` pins left from pin `j` on. -/
def map_pins (isos : List MadtIso) (freed : BitVec 8 → MadtIso → BitVec 16) (i : Nat) :
    (n j : Nat) → (vec : BitVec 8) → Regs → BitVec 8 × Regs
  | 0, _, vec, regs => (vec, regs)
  | n + 1, j, vec, regs =>
    map_pins isos freed i n (j + 1) (vec + 1)
      (ioapic_map_pin_to_irq regs i vec j (flags_for isos freed vec) 0 false)

/-- The outer loop of `ioapic_init`, over the IOAPICs from index `i` on. -/
def init_from (isos : List MadtIso) (freed : BitVec 8 → MadtIso → BitVec 16) :
    List MadtIoapic → (i : Nat) → (vec : BitVec 8) → Regs → BitVec 8 × Regs
  | [], _, vec, regs => (vec, regs)
  | ioapic :: ioapics, i, vec, regs =>
    if vec < 0xE0 then
      let r := map_pins isos freed i (ioapic.window.toNat + 1) 0 vec regs
      init_from isos freed ioapics (i + 1) r.1 r.2
    else (vec, regs)

/-- `ioapic_init`; `none` is the failed assertion at its end. -/
def ioapic_init (ioapics : List MadtIoapic) (isos : List MadtIso)
    (freed : BitVec 8 → MadtIso → BitVec 16) (regs : Regs) : Option Regs :=
  let r := init_from isos freed ioapics 0 0x40 regs
  if r.1 < 0xE0 then some r.2 else none

def find_pin (gsi_base gsi : BitVec 32) : (n j : Nat) → (vec : BitVec 8) → BitVec 8 ⊕ BitVec 8
  | 0, _, vec => .inr vec
  | n + 1, j, vec =>
    if gsi_base.toNat + j = gsi.toNat then .inl vec else find_pin gsi_base gsi n (j + 1) (vec + 1)

/-- The outer loop. -/
def vector_from (gsi : BitVec 32) : List MadtIoapic → (vec : BitVec 8) → BitVec 8
  | [], _ => -1
  | ioapic :: ioapics, vec =>
    if vec < 0xE0 then
      match find_pin ioapic.gsi_base gsi (ioapic.window.toNat + 1) 0 vec with
      | .inl vec => vec
      | .inr vec => vector_from gsi ioapics vec
    else -1

/-- `ioapic_get_vector_by_gsi`. -/
def ioapic_get_vector_by_gsi (ioapics : List MadtIoapic) (gsi : BitVec 32) : BitVec 8 :=
  vector_from gsi ioapics 0x40

/-! ## §3. What the tables mean. -/

/-- The GSI is one of the IOAPIC's pins. -/
def MadtIoapic.Handles (ioapic : MadtIoapic) (gsi : Nat) : Prop :=
  ioapic.gsi_base.toNat ≤ gsi ∧ gsi ≤ ioapic.gsi_base.toNat + ioapic.window.toNat

/-- All pins of the table. -/
def pins : List MadtIoapic → Nat
  | [] => 0
  | ioapic :: ioapics => ioapic.window.toNat + 1 + pins ioapics

/-- **The tables considered**: disjoint GSI windows, fewer than 160 pins. -/
structure Table (ioapics : List MadtIoapic) : Prop where
  disjoint : ioapics.Pairwise fun a b => ∀ gsi, ¬ (a.Handles gsi ∧ b.Handles gsi)
  few : pins ioapics < 160

/-- The running number of pin `j` of IOAPIC `i`. -/
def number (ioapics : List MadtIoapic) (i j : Nat) : Nat := pins (ioapics.take i) + j

/-- The flags of the ISO entry for a GSI, 0 (bus defaults) without one. -/
def isoFlags (isos : List MadtIso) (gsi : BitVec 32) : BitVec 16 :=
  match isos.find? fun iso => iso.gsi = gsi with
  | none => 0
  | some iso => iso.flags

/-- The fields of the redirection entry of a pin. -/
def vectorField (regs : Regs) (ioapic pin : Nat) : BitVec 8 :=
  (regs ioapic (pin * 2 + 16)).setWidth 8

def polarity (regs : Regs) (ioapic pin : Nat) : Bool := (regs ioapic (pin * 2 + 16)).getLsbD 13

def trigger (regs : Regs) (ioapic pin : Nat) : Bool := (regs ioapic (pin * 2 + 16)).getLsbD 15

/-! ## §4. The fields of an entry. -/

theorem and_two_ne_zero (flags : BitVec 16) : flags &&& 2 ≠ 0 ↔ flags.getLsbD 1 = true := by
  rw [show (2 : BitVec 16) = BitVec.twoPow 16 1 from rfl, BitVec.and_twoPow]
  cases flags.getLsbD 1 with
  | false => simp
  | true => exact ⟨fun _ => rfl, fun _ => by decide⟩

theorem and_eight_ne_zero (flags : BitVec 16) : flags &&& 8 ≠ 0 ↔ flags.getLsbD 3 = true := by
  rw [show (8 : BitVec 16) = BitVec.twoPow 16 3 from rfl, BitVec.and_twoPow]
  cases flags.getLsbD 3 with
  | false => simp
  | true => exact ⟨fun _ => rfl, fun _ => by decide⟩

theorem entry_bits (irq : BitVec 8) (flags : BitVec 16) :
    ((entry irq flags 0 false).setWidth 32).setWidth 8 = irq
    ∧ ((entry irq flags 0 false).setWidth 32).getLsbD 13 = flags.getLsbD 1
    ∧ ((entry irq flags 0 false).setWidth 32).getLsbD 15 = flags.getLsbD 3 := by
  unfold entry
  simp only [and_two_ne_zero, and_eight_ne_zero]
  generalize flags.getLsbD 1 = low
  generalize flags.getLsbD 3 = level
  revert irq low level
  decide +kernel

/-! ## §5. What `ioapic_init` writes. -/

/-- The vector with a running number. -/
def vecOf (n : Nat) : BitVec 8 := BitVec.ofNat 8 (0x40 + n)

theorem vecOf_add_one (n : Nat) : vecOf n + 1 = vecOf (n + 1) := by
  show BitVec.ofNat 8 (0x40 + n) + BitVec.ofNat 8 1 = BitVec.ofNat 8 (0x40 + n + 1)
  rw [← BitVec.ofNat_add]

theorem vecOf_lt {n : Nat} (h : n < 160) : vecOf n < 0xE0 := by
  rw [BitVec.lt_def, vecOf, BitVec.toNat_ofNat, Nat.mod_eq_of_lt (by omega)]
  show 0x40 + n < 224
  omega

/-- The low half of the entry a pin gets. -/
def programmed (isos : List MadtIso) (freed : BitVec 8 → MadtIso → BitVec 16) (n : Nat) :
    BitVec 32 :=
  (entry (vecOf n) (flags_for isos freed (vecOf n)) 0 false).setWidth 32

theorem write_same (regs : Regs) (ioapic reg : Nat) (val : BitVec 32) :
    ioapic_write regs ioapic reg val ioapic reg = val := by
  simp [ioapic_write]

theorem write_other_reg (regs : Regs) (ioapic : Nat) {reg reg' : Nat} (h : reg' ≠ reg)
    (val : BitVec 32) : ioapic_write regs ioapic reg val ioapic reg' = regs ioapic reg' := by
  simp [ioapic_write, h]

theorem write_other (regs : Regs) {ioapic other : Nat} (h : other ≠ ioapic) (reg : Nat)
    (val : BitVec 32) : ioapic_write regs ioapic reg val other = regs other := by
  simp [ioapic_write, h]

variable (isos : List MadtIso) (freed : BitVec 8 → MadtIso → BitVec 16)

theorem map_pins_spec (i n : Nat) (j base : Nat) (regs : Regs) :
    (map_pins isos freed i n j (vecOf base) regs).1 = vecOf (base + n)
      ∧ (∀ other, other ≠ i → (map_pins isos freed i n j (vecOf base) regs).2 other = regs other)
      ∧ (∀ reg, reg < j * 2 + 16 →
          (map_pins isos freed i n j (vecOf base) regs).2 i reg = regs i reg)
      ∧ ∀ m, m < n → (map_pins isos freed i n j (vecOf base) regs).2 i ((j + m) * 2 + 16)
          = programmed isos freed (base + m) := by
  induction n generalizing j base regs with
  | zero =>
    exact ⟨rfl, fun _ _ => rfl, fun _ _ => rfl, fun m hm => absurd hm (Nat.not_lt_zero m)⟩
  | succ n ih =>
    rw [map_pins, vecOf_add_one]
    obtain ⟨hvec, hother, hbelow, hpins⟩ := ih (j + 1) (base + 1)
      (ioapic_map_pin_to_irq regs i (vecOf base) j (flags_for isos freed (vecOf base)) 0 false)
    refine ⟨by rw [hvec, Nat.add_assoc, Nat.add_comm 1], fun other ho => ?_, fun reg hreg => ?_,
      fun m hm => ?_⟩
    · rw [hother other ho, ioapic_map_pin_to_irq, write_other _ ho, write_other _ ho]
    · rw [hbelow reg (by omega), ioapic_map_pin_to_irq, write_other_reg _ _ (by omega),
        write_other_reg _ _ (by omega)]
    · cases m with
      | zero =>
        -- the pin written in this round; the later ones have higher registers
        simp only [Nat.add_zero]
        rw [hbelow _ (by omega), ioapic_map_pin_to_irq, write_other_reg _ _ (by omega)]
        exact write_same ..
      | succ m =>
        have := hpins m (by omega)
        rwa [Nat.add_right_comm, Nat.add_right_comm base] at this

def NeverFull (ioapics : List MadtIoapic) (base : Nat) : Prop :=
  ∀ k ≤ ioapics.length, vecOf (base + pins (ioapics.take k)) < 0xE0

theorem neverFull_cons {ioapic : MadtIoapic} {ioapics : List MadtIoapic} {base : Nat} :
    NeverFull (ioapic :: ioapics) base
      ↔ vecOf base < 0xE0 ∧ NeverFull ioapics (base + (ioapic.window.toNat + 1)) := by
  constructor
  · intro h
    refine ⟨h 0 (Nat.zero_le _), fun k hk => ?_⟩
    have hk' := h (k + 1) (Nat.succ_le_succ hk)
    rwa [List.take_succ_cons, pins, ← Nat.add_assoc] at hk'
  · rintro ⟨hfirst, hrest⟩ k hk
    cases k with
    | zero => exact hfirst
    | succ k =>
      rw [List.take_succ_cons, pins, ← Nat.add_assoc]
      exact hrest k (Nat.le_of_succ_le_succ hk)

theorem neverFull_of_few (ioapics : List MadtIoapic) :
    ∀ base, base + pins ioapics < 160 → NeverFull ioapics base := by
  induction ioapics with
  | nil =>
    intro base hlt k _
    rw [List.take_nil]
    exact vecOf_lt hlt
  | cons ioapic ioapics ih =>
    intro base hlt
    rw [pins] at hlt
    exact neverFull_cons.mpr ⟨vecOf_lt (by omega), ih _ (by omega)⟩

theorem init_from_spec (ioapics : List MadtIoapic) (i base : Nat) (regs : Regs)
    (hfull : NeverFull ioapics base) :
    (init_from isos freed ioapics i (vecOf base) regs).1 = vecOf (base + pins ioapics)
      ∧ (∀ other, other < i → (init_from isos freed ioapics i (vecOf base) regs).2 other
          = regs other)
      ∧ ∀ k a j, ioapics[k]? = some a → j ≤ a.window.toNat →
          (init_from isos freed ioapics i (vecOf base) regs).2 (i + k) (j * 2 + 16)
            = programmed isos freed (base + number ioapics k j) := by
  induction ioapics generalizing i base regs with
  | nil =>
    refine ⟨rfl, fun _ _ => rfl, fun k a j hk => ?_⟩
    cases hk
  | cons ioapic ioapics ih =>
    obtain ⟨hfirst, hrest⟩ := neverFull_cons.mp hfull
    rw [init_from, if_pos hfirst]
    obtain ⟨hvec, hother, -, hpins⟩ :=
      map_pins_spec isos freed i (ioapic.window.toNat + 1) 0 base regs
    simp only [hvec]
    obtain ⟨hvec', hother', hpins'⟩ := ih (i + 1) (base + (ioapic.window.toNat + 1))
      (map_pins isos freed i (ioapic.window.toNat + 1) 0 (vecOf base) regs).2 hrest
    refine ⟨?_, fun other ho => ?_, fun k a j hk hj => ?_⟩
    · rw [hvec', pins, Nat.add_assoc]
    · rw [hother' other (by omega), hother other (by omega)]
    · cases k with
      | zero =>
        -- this IOAPIC: the rest of the loop leaves it alone
        injection hk with hk
        subst hk
        have hpin := hpins j (by omega)
        rw [Nat.zero_add] at hpin
        simp only [Nat.add_zero]
        rw [hother' i (by omega), hpin, number, List.take_zero]
        simp [pins]
      | succ k =>
        rw [List.getElem?_cons_succ] at hk
        have hpin := hpins' k a j hk hj
        rw [Nat.add_right_comm, Nat.add_assoc] at hpin
        rw [hpin, number, number, List.take_succ_cons, pins]
        congr 1
        omega

/-! ## §6. What `ioapic_get_vector_by_gsi` finds. -/

theorem find_pin_found (gsi_base gsi : BitVec 32) (n : Nat) :
    ∀ j base m, m < n → gsi_base.toNat + (j + m) = gsi.toNat →
      find_pin gsi_base gsi n j (vecOf base) = .inl (vecOf (base + m)) := by
  induction n with
  | zero => intro j base m hm; exact absurd hm (Nat.not_lt_zero m)
  | succ n ih =>
    intro j base m hm hgsi
    rw [find_pin]
    cases m with
    | zero => rw [if_pos (by simpa using hgsi), Nat.add_zero]
    | succ m =>
      rw [if_neg (by omega), vecOf_add_one, ih (j + 1) (base + 1) m (by omega) (by omega)]
      congr 2
      omega

theorem find_pin_missing (gsi_base gsi : BitVec 32) (n : Nat) (j base : Nat)
    (hno : (∀ m < n, gsi_base.toNat + (j + m) ≠ gsi.toNat)) :
    find_pin gsi_base gsi n j (vecOf base) = .inr (vecOf (base + n)) := by
  induction n generalizing j base with
  | zero => rfl
  | succ n ih =>
    have hrest : ∀ m < n, gsi_base.toNat + (j + 1 + m) ≠ gsi.toNat := by
      intro m hm
      rw [Nat.add_assoc, Nat.add_comm 1 m]
      exact hno (m + 1) (by omega)
    rw [find_pin, if_neg (by simpa using hno 0 (by omega)), vecOf_add_one, ih (j + 1) (base + 1) hrest]
    congr 2
    omega

theorem number_zero (ioapics : List MadtIoapic) (j : Nat) : number ioapics 0 j = j :=
  Nat.zero_add j

theorem number_succ (ioapic : MadtIoapic) (ioapics : List MadtIoapic) (i j : Nat) :
    number (ioapic :: ioapics) (i + 1) j = ioapic.window.toNat + 1 + number ioapics i j := by
  rw [number, number, List.take_succ_cons, pins, Nat.add_assoc]

/-- **The pin at which the search of `ioapic_get_vector_by_gsi` stops**: that of the
GSI on the first IOAPIC that has it. -/
structure StopsAt (ioapics : List MadtIoapic) (gsi : BitVec 32) (i j : Nat) : Prop where
  pin : ∃ a, ioapics[i]? = some a ∧ j ≤ a.window.toNat ∧ a.gsi_base.toNat + j = gsi.toNat
  first : ∀ k < i, ∀ b, ioapics[k]? = some b → ¬ b.Handles gsi.toNat

variable {a : MadtIoapic} {ioapics : List MadtIoapic} {gsi : BitVec 32} {i j : Nat}

theorem stopsAt_cons_succ :
    StopsAt (a :: ioapics) gsi (i + 1) j ↔ ¬ a.Handles gsi.toNat ∧ StopsAt ioapics gsi i j := by
  constructor
  · intro h
    refine ⟨h.first 0 (Nat.succ_pos i) a rfl, h.pin, fun k hk b hb => ?_⟩
    exact h.first (k + 1) (Nat.succ_lt_succ hk) b hb
  · rintro ⟨hhead, h⟩
    refine ⟨h.pin, fun k hk b hb => ?_⟩
    cases k with
    | zero =>
      cases hb
      exact hhead
    | succ k => exact h.first k (Nat.lt_of_succ_lt_succ hk) b hb

theorem vector_from_stopsAt (gsi : BitVec 32) (ioapics : List MadtIoapic) :
    ∀ base i j, NeverFull ioapics base → StopsAt ioapics gsi i j →
      vector_from gsi ioapics (vecOf base) = vecOf (base + number ioapics i j) := by
  induction ioapics with
  | nil =>
    rintro base i j - ⟨⟨a, ha, -⟩, -⟩
    cases ha
  | cons ioapic ioapics ih =>
    intro base i j hfull hstop
    obtain ⟨hfirst, hrest⟩ := neverFull_cons.mp hfull
    rw [vector_from, if_pos hfirst]
    cases i with
    | zero =>
      obtain ⟨a, ha, hj, hgsi⟩ := hstop.pin
      cases ha
      rw [find_pin_found ioapic.gsi_base gsi _ 0 base j (by omega) (by omega), number_zero]
    | succ i =>
      obtain ⟨hhead, hstop'⟩ := stopsAt_cons_succ.mp hstop
      have hmiss : ∀ m < ioapic.window.toNat + 1,
          ioapic.gsi_base.toNat + (0 + m) ≠ gsi.toNat :=
        fun m hm heq => hhead ⟨by omega, by omega⟩
      rw [find_pin_missing ioapic.gsi_base gsi _ 0 base hmiss]
      simp only
      rw [ih _ i j hrest hstop', number_succ, Nat.add_assoc]

theorem Table.stopsAt (h : Table ioapics) (hi : ioapics[i]? = some a) (hj : j ≤ a.window.toNat)
    (hgsi : a.gsi_base.toNat + j = gsi.toNat) : StopsAt ioapics gsi i j := by
  refine ⟨⟨a, hi, hj, hgsi⟩, fun k hk b hb hhandles => ?_⟩
  obtain ⟨hi', rfl⟩ := List.getElem?_eq_some_iff.mp hi
  obtain ⟨hk', rfl⟩ := List.getElem?_eq_some_iff.mp hb
  exact List.pairwise_iff_getElem.mp h.disjoint k i hk' hi' hk gsi.toNat
    ⟨hhandles, by omega, by omega⟩

/-! ## §7. Agreement. -/

/-- The two flags mean the same polarity and the same trigger mode. -/
def SameMode (flags flags' : BitVec 16) : Prop :=
  flags.getLsbD 1 = flags'.getLsbD 1 ∧ flags.getLsbD 3 = flags'.getLsbD 3

/-- **What the two tables and the freed copy must be like**, for each pin of a GSI. -/
structure FlagsAgree (ioapics : List MadtIoapic) : Prop where
  /-- An ISO entry is for the running number of the pin: what the freed copy of the first
  one holds is what the GSI should have. -/
  found : ∀ (i j : Nat) (a : MadtIoapic) (gsi : BitVec 32) (iso : MadtIso),
    ioapics[i]? = some a → j ≤ a.window.toNat → a.gsi_base.toNat + j = gsi.toNat →
    isos.find? (fun iso => iso.gsi = BitVec.ofNat 32 (number ioapics i j)) = some iso →
    SameMode (freed (vecOf (number ioapics i j)) iso) (isoFlags isos gsi)
  /-- No entry is for that number: the GSI has none, or one with the defaults. -/
  missing : ∀ (i j : Nat) (a : MadtIoapic) (gsi : BitVec 32),
    ioapics[i]? = some a → j ≤ a.window.toNat → a.gsi_base.toNat + j = gsi.toNat →
    (∀ iso ∈ isos, iso.gsi ≠ BitVec.ofNat 32 (number ioapics i j)) →
    SameMode 0 (isoFlags isos gsi)

theorem vecOf_sub {n : Nat} (hn : n < 160) : (vecOf n).setWidth 32 - 0x40 = BitVec.ofNat 32 n := by
  refine BitVec.eq_of_toNat_eq ?_
  rw [BitVec.toNat_sub, BitVec.toNat_setWidth, vecOf, BitVec.toNat_ofNat, BitVec.toNat_ofNat]
  show (2 ^ 32 - 64 + (0x40 + n) % 2 ^ 8 % 2 ^ 32) % 2 ^ 32 = n % 2 ^ 32
  omega

theorem flags_for_found {n : Nat} (hn : n < 160) {iso : MadtIso}
    (h : isos.find? (fun iso => iso.gsi = BitVec.ofNat 32 n) = some iso) :
    flags_for isos freed (vecOf n) = freed (vecOf n) iso := by
  unfold flags_for ioapic_get_iso_by_gsi
  rw [vecOf_sub hn, h]

theorem flags_for_missing {n : Nat} (hn : n < 160)
    (h : isos.find? (fun iso => iso.gsi = BitVec.ofNat 32 n) = none) :
    flags_for isos freed (vecOf n) = 0 := by
  unfold flags_for ioapic_get_iso_by_gsi
  rw [vecOf_sub hn, h]

theorem number_lt_pins (hi : ioapics[i]? = some a) (hj : j ≤ a.window.toNat) :
    number ioapics i j < pins ioapics := by
  induction ioapics generalizing i with
  | nil => cases hi
  | cons ioapic ioapics ih =>
    rw [pins]
    cases i with
    | zero =>
      cases hi
      rw [number_zero]
      omega
    | succ i =>
      have := ih (i := i) hi
      rw [number_succ]
      omega

theorem flagsAgree_iff (hfew : pins ioapics < 160) :
    FlagsAgree isos freed ioapics
      ↔ ∀ (i j : Nat) (a : MadtIoapic) (gsi : BitVec 32), ioapics[i]? = some a →
          j ≤ a.window.toNat → a.gsi_base.toNat + j = gsi.toNat →
          SameMode (flags_for isos freed (vecOf (number ioapics i j))) (isoFlags isos gsi) := by
  constructor
  · intro h i j a gsi hi hj hgsi
    have hn := number_lt_pins hi hj
    cases hfind : isos.find? (fun iso => iso.gsi = BitVec.ofNat 32 (number ioapics i j)) with
    | none =>
      rw [flags_for_missing isos freed (by omega) hfind]
      refine h.missing i j a gsi hi hj hgsi fun iso hiso heq => ?_
      exact List.find?_eq_none.mp hfind iso hiso (decide_eq_true heq)
    | some iso =>
      rw [flags_for_found isos freed (by omega) hfind]
      exact h.found i j a gsi iso hi hj hgsi hfind
  · intro h
    constructor
    · intro i j a gsi iso hi hj hgsi hfind
      have hn := number_lt_pins hi hj
      rw [← flags_for_found isos freed (by omega) hfind]
      exact h i j a gsi hi hj hgsi
    · intro i j a gsi hi hj hgsi hno
      have hn := number_lt_pins hi hj
      have hfind : isos.find? (fun iso => iso.gsi = BitVec.ofNat 32 (number ioapics i j)) = none :=
        List.find?_eq_none.mpr fun iso hiso heq => hno iso hiso (of_decide_eq_true heq)
      rw [← flags_for_missing isos freed (by omega) hfind]
      exact h i j a gsi hi hj hgsi

/-- **When programming and lookup agree.**  For every table of IOAPICs with
disjoint windows and fewer than 160 pins and every ISO table, `ioapic_init`
passes its assertion, and afterwards the redirection entry of every GSI's pin
holds the vector that the lookup returns.  Its polarity and trigger mode are
those of the ISO entry for the GSI, for every GSI, exactly when `FlagsAgree`. -/
theorem ioapic_agreement_iff (ioapics : List MadtIoapic) (htable : Table ioapics) (regs : Regs) :
    ∃ regs', ioapic_init ioapics isos freed regs = some regs'
      ∧ (∀ (i j : Nat) (a : MadtIoapic) (gsi : BitVec 32), ioapics[i]? = some a →
          j ≤ a.window.toNat → a.gsi_base.toNat + j = gsi.toNat →
          vectorField regs' i j = ioapic_get_vector_by_gsi ioapics gsi)
      ∧ ((∀ (i j : Nat) (a : MadtIoapic) (gsi : BitVec 32), ioapics[i]? = some a →
            j ≤ a.window.toNat → a.gsi_base.toNat + j = gsi.toNat →
            polarity regs' i j = (isoFlags isos gsi).getLsbD 1
            ∧ trigger regs' i j = (isoFlags isos gsi).getLsbD 3)
        ↔ FlagsAgree isos freed ioapics) := by
  have hfull := neverFull_of_few ioapics 0 (by rw [Nat.zero_add]; exact htable.few)
  obtain ⟨hvec, -, hpins⟩ := init_from_spec isos freed ioapics 0 0 regs hfull
  simp only [Nat.zero_add] at hvec hpins
  refine ⟨(init_from isos freed ioapics 0 (vecOf 0) regs).2, ?_, ?_, ?_⟩
  · have hlt : (init_from isos freed ioapics 0 (vecOf 0) regs).1 < 0xE0 := by
      rw [hvec]
      exact vecOf_lt htable.few
    exact if_pos hlt
  · intro i j a gsi hi hj hgsi
    have hlookup := vector_from_stopsAt gsi ioapics 0 i j hfull (htable.stopsAt hi hj hgsi)
    rw [Nat.zero_add] at hlookup
    rw [vectorField, hpins i a j hi hj, programmed, (entry_bits _ _).1]
    exact hlookup.symm
  · rw [flagsAgree_iff isos freed htable.few]
    refine forall_congr' fun i => forall_congr' fun j => forall_congr' fun a =>
      forall_congr' fun gsi => forall_congr' fun hi => forall_congr' fun hj => ?_
    rw [polarity, trigger, hpins i a j hi hj, programmed, (entry_bits _ _).2.1,
      (entry_bits _ _).2.2]
    exact Iff.rfl

theorem FlagsAgree.of_numbers (h : ∀ (i j : Nat) (a : MadtIoapic), ioapics[i]? = some a →
    j ≤ a.window.toNat → a.gsi_base.toNat + j = number ioapics i j) :
    FlagsAgree isos (fun _ iso => iso.flags) ioapics := by
  have hgsi : ∀ (i j : Nat) (a : MadtIoapic) (gsi : BitVec 32), ioapics[i]? = some a →
      j ≤ a.window.toNat → a.gsi_base.toNat + j = gsi.toNat →
      BitVec.ofNat 32 (number ioapics i j) = gsi := by
    intro i j a gsi hi hj hgsi
    rw [← h i j a hi hj, hgsi, BitVec.ofNat_toNat, BitVec.setWidth_eq]
  constructor
  · intro i j a gsi iso hi hj hpin hfind
    rw [hgsi i j a gsi hi hj hpin] at hfind
    unfold isoFlags
    rw [hfind]
    exact ⟨rfl, rfl⟩
  · intro i j a gsi hi hj hpin hno
    rw [hgsi i j a gsi hi hj hpin] at hno
    have hfind : isos.find? (fun iso => iso.gsi = gsi) = none :=
      List.find?_eq_none.mpr fun iso hiso heq => hno iso hiso (of_decide_eq_true heq)
    unfold isoFlags
    rw [hfind]
    exact ⟨rfl, rfl⟩

/-- Two IOAPICs from GSI 0 on, and GSI 9 and 30 active low and level triggered. -/
theorem ioapic_agreement_two :
    ∃ regs', ioapic_init [⟨0, 23⟩, ⟨24, 23⟩] [⟨0, 9, 9, 0xF⟩, ⟨0, 3, 30, 0xF⟩]
        (fun _ iso => iso.flags) (fun _ _ => 0) = some regs'
      ∧ vectorField regs' 1 6 = 0x5E ∧ polarity regs' 1 6 = true ∧ trigger regs' 1 6 = true := by
  have htable : Table [⟨0, 23⟩, ⟨24, 23⟩] := by
    refine ⟨List.pairwise_pair.mpr ?_, by decide⟩
    rintro gsi ⟨⟨-, hhi⟩, hlo, -⟩
    exact absurd (Nat.le_trans hlo hhi) (by decide)
  obtain ⟨regs', hinit, hvec, hflags⟩ := ioapic_agreement_iff [⟨0, 9, 9, 0xF⟩, ⟨0, 3, 30, 0xF⟩]
    (fun _ iso => iso.flags) [⟨0, 23⟩, ⟨24, 23⟩] htable (fun _ _ => 0)
  have hpins := hflags.mpr (FlagsAgree.of_numbers _ fun i j a hi _ => by
    rcases i with _ | _ | i
    · cases hi
      rfl
    · cases hi
      rfl
    · cases hi)
  refine ⟨regs', hinit, ?_, ?_⟩
  · rw [hvec 1 6 ⟨24, 23⟩ 30 rfl (by decide) (by decide)]
    decide
  · exact hpins 1 6 ⟨24, 23⟩ 30 rfl (by decide) (by decide)

/-- **Two IOAPICs listed in the other order.**  GSI 2 is pin 2 of the second
one and has the running number 26; its ISO entry is not found, and the pin is
left edge triggered and active high. -/
theorem ioapic_iso_of_wrong_pin :
    ¬ ∀ (ioapics : List MadtIoapic) (isos : List MadtIso) (regs : Regs), Table ioapics →
        ∃ regs', ioapic_init ioapics isos (fun _ iso => iso.flags) regs = some regs'
          ∧ ∀ (i j : Nat) (a : MadtIoapic) (gsi : BitVec 32), ioapics[i]? = some a →
              j ≤ a.window.toNat → a.gsi_base.toNat + j = gsi.toNat →
              vectorField regs' i j = ioapic_get_vector_by_gsi ioapics gsi
              ∧ polarity regs' i j = (isoFlags isos gsi).getLsbD 1
              ∧ trigger regs' i j = (isoFlags isos gsi).getLsbD 3 := by
  intro h
  have htable : Table [⟨24, 23⟩, ⟨0, 23⟩] := by
    refine ⟨?_, by decide⟩
    simp only [List.pairwise_cons, List.mem_singleton, forall_eq, List.not_mem_nil, false_imp_iff,
      implies_true, List.Pairwise.nil, and_true]
    rintro gsi ⟨⟨hlo, -⟩, -, hhi⟩
    have hlo' : 24 ≤ gsi := hlo
    have hhi' : gsi ≤ 0 + 23 := hhi
    omega
  obtain ⟨regs', hinit, hagree⟩ := h _ [⟨0, 0, 2, 0xF⟩] (fun _ _ => 0) htable
  obtain ⟨-, hpol, -⟩ := hagree 1 2 ⟨0, 23⟩ 2 rfl (by decide) (by decide)
  have hreal : (ioapic_init [⟨24, 23⟩, ⟨0, 23⟩] [⟨0, 0, 2, 0xF⟩] (fun _ iso => iso.flags)
      (fun _ _ => 0)).map (fun regs => polarity regs 1 2) = some false := by decide +kernel
  rw [hinit] at hreal
  injection hreal with hreal
  rw [show polarity regs' 1 2 = false from hreal] at hpol
  exact absurd hpol (by decide)

end Quack.Ioapic
