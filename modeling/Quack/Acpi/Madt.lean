/-
  Quack.Acpi.Madt
  **`madt_init`: THE SCAN OF THE APIC TABLE.**

  The table is a row of bytes from `_madt` on: the 36 bytes of `sdt_t`, two
  words, then entries of a type byte, a length byte and data.  The scan moves by
  the length byte, reads the header of each entry and copies the structure of
  its type; `n_entries` is an unsigned difference.

    • `madt_scan_inside` — the scan returns and stays inside the table exactly
                         if it is long enough and its entries are scannable.
    • `madt_decodes`   — decoding after encoding.
-/
import Quack.Arch.Ioapic
import Quack.Lib.Fueled

namespace Quack.Madt

open Ioapic (MadtIso)
open Lib Lib.Traced

abbrev Byte := BitVec 8

/-! ## §1. The table. -/

/-- The bytes from `_madt` on. -/
abbrev Table := Nat → Byte

/-- The 32-bit word at an offset, the low byte first. -/
def word32 (t : Table) (p : Nat) : BitVec 32 := t (p + 3) ++ t (p + 2) ++ t (p + 1) ++ t p

/-- The 16-bit word at an offset. -/
def word16 (t : Table) (p : Nat) : BitVec 16 := t (p + 1) ++ t p

/-- `sdt.len`. -/
def sdt_len (t : Table) : BitVec 32 := word32 t 4

/-- `sizeof(madt)`, where `entries` starts. -/
def SIZEOF_MADT : Nat := 44

/-- `acpi_calc_checksum`. -/
def acpi_calc_checksum (t : Table) (len : Nat) : Byte :=
  (List.range len).foldl (fun sum i => sum + t i) 0

/-- `madt_lapic`. -/
structure MadtLapic where
  proc_id : BitVec 8
  apic_id : BitVec 8
  flags : BitVec 32
  deriving Repr, DecidableEq

/-- `madt_ioapic`. -/
structure MadtIoapic where
  ioapic_id : BitVec 8
  reserved : BitVec 8
  ioapic_addr : BitVec 32
  gsi_base : BitVec 32
  deriving Repr, DecidableEq

/-- `madt_nmi`. -/
structure MadtNmi where
  proc_id : BitVec 8
  flags : BitVec 16
  lint : BitVec 8
  deriving Repr, DecidableEq

/-- The packed structures, from their bytes. -/
def lapicAt (t : Table) (p : Nat) : MadtLapic := ⟨t p, t (p + 1), word32 t (p + 2)⟩

def ioapicAt (t : Table) (p : Nat) : MadtIoapic :=
  ⟨t p, t (p + 1), word32 t (p + 2), word32 t (p + 6)⟩

def isoAt (t : Table) (p : Nat) : MadtIso := ⟨t p, t (p + 1), word32 t (p + 2), word16 t (p + 6)⟩

def nmiAt (t : Table) (p : Nat) : MadtNmi := ⟨t p, word16 t (p + 1), t (p + 3)⟩

/-! ## §2. `madt.cpp`. -/

def TYPE_LAPIC : Byte := 0
def TYPE_IOAPIC : Byte := 1
def TYPE_ISO : Byte := 2
def TYPE_NMI : Byte := 4

/-- The four vectors. -/
structure Vectors where
  madt_lapics : List MadtLapic
  madt_ioapics : List MadtIoapic
  madt_isos : List MadtIso
  madt_nmis : List MadtNmi
  deriving Repr, DecidableEq

/-- A program that logs the offsets it reads. -/
abbrev Scan (α : Type) := Traced Nat Vectors α

/-- A byte of an entry. -/
def load (t : Table) (p : Nat) : Scan Byte := do
  log p
  pure (t p)

/-- `vector.push(*ptr)`: the structure of `size` bytes at `p` is copied. -/
def push (size p : Nat) (add : Vectors → Vectors) : Scan Unit := fun v =>
  ((List.range size).map fun i => p + i, some ((), add v))

/-- The `switch` on the type of an entry with its data at `p`. -/
def read_entry (t : Table) (p : Nat) (type : Byte) : Scan Unit :=
  if type = TYPE_LAPIC then
    push 6 p fun v => { v with madt_lapics := v.madt_lapics ++ [lapicAt t p] }
  else if type = TYPE_IOAPIC then
    push 10 p fun v => { v with madt_ioapics := v.madt_ioapics ++ [ioapicAt t p] }
  else if type = TYPE_ISO then
    push 8 p fun v => { v with madt_isos := v.madt_isos ++ [isoAt t p] }
  else if type = TYPE_NMI then
    push 4 p fun v => { v with madt_nmis := v.madt_nmis ++ [nmiAt t p] }
  else pure ()

/-- `while (off < n_entries)`. -/
def scan_entries (t : Table) (n_entries : BitVec 64) : (fuel : Nat) → (off : BitVec 64) → Scan Unit
  | 0, _ => stop
  | fuel + 1, off =>
    if off < n_entries then do
      let ent := SIZEOF_MADT + off.toNat
      let len ← load t (ent + 1)
      let type ← load t ent
      read_entry t (ent + 2) type
      scan_entries t n_entries fuel (off + len.setWidth 64)
    else pure ()

/-- `madt_init`, on the table `acpi_find_table` has found. -/
def madt_init (table : Option Table) (fuel : Nat) : Scan Unit :=
  match table with
  | none => pure ()
  | some t => scan_entries t ((sdt_len t).setWidth 64 - BitVec.ofNat 64 SIZEOF_MADT) fuel 0

/-! ## §3. Entries that can be scanned. -/

/-- The size of the structure copied for a type. -/
def structSize (type : Byte) : Nat :=
  if type = TYPE_LAPIC then 6 else if type = TYPE_IOAPIC then 10
  else if type = TYPE_ISO then 8 else if type = TYPE_NMI then 4 else 0

/-- **Entries with their headers and structures, of lengths other than 0.**  The
last one may be longer than what is left. -/
inductive Scannable : List Byte → Prop where
  | nil : Scannable []
  | entry {type len : Byte} {rest : List Byte} :
      len ≠ 0 → structSize type ≤ rest.length →
      Scannable ((type :: len :: rest).drop len.toNat) → Scannable (type :: len :: rest)

/-- The bytes from `p` on, `n` of them. -/
def bytesFrom (t : Table) (p n : Nat) : List Byte := (List.range n).map fun i => t (p + i)

theorem bytesFrom_length (t : Table) (p n : Nat) : (bytesFrom t p n).length = n := by
  simp [bytesFrom]

theorem bytesFrom_drop (t : Table) (p n k : Nat) :
    (bytesFrom t p n).drop k = bytesFrom t (p + k) (n - k) := by
  refine List.ext_getElem (by simp [bytesFrom]) fun i h1 h2 => ?_
  simp [bytesFrom, Nat.add_assoc]

theorem bytesFrom_succ (t : Table) (p n : Nat) :
    bytesFrom t p (n + 1) = t p :: bytesFrom t (p + 1) n := by
  simp only [bytesFrom, List.range_succ_eq_map, List.map_cons, List.map_map, List.cons.injEq]
  refine ⟨rfl, List.map_congr_left fun i _ => ?_⟩
  show t (p + (i + 1)) = t (p + 1 + i)
  rw [Nat.add_assoc p 1 i, Nat.add_comm 1 i]

theorem bytesFrom_append (t : Table) (p n m : Nat) :
    bytesFrom t p (n + m) = bytesFrom t p n ++ bytesFrom t (p + n) m := by
  simp only [bytesFrom, List.range_add, List.map_append, List.map_map]
  refine congrArg _ (List.map_congr_left fun i _ => ?_)
  show t (p + (n + i)) = t (p + n + i)
  rw [Nat.add_assoc]

theorem scannable_cons {type len : Byte} {rest : List Byte} :
    Scannable (type :: len :: rest)
      ↔ len ≠ 0 ∧ structSize type ≤ rest.length
        ∧ Scannable ((type :: len :: rest).drop len.toNat) := by
  constructor
  · intro h
    cases h with
    | entry hlen hsize hrest => exact ⟨hlen, hsize, hrest⟩
  · rintro ⟨hlen, hsize, hrest⟩
    exact Scannable.entry hlen hsize hrest

theorem not_scannable_single (b : Byte) : ¬ Scannable [b] := by
  intro h
  cases h

/-! ## §4. The scan reads headers and structures. -/

section scan

variable {t : Table} {stop : Nat} {v : Vectors}

theorem load_settles {P : Nat → Prop} (t : Table) (p : Nat) :
    Settles P (fun _ => load t p) v (P p) (fun b v' => b = t p ∧ v' = v) :=
  (Settles.log (R := fun _ v' => v' = v) rfl).seq fun _ _ h => Settles.pure ⟨rfl, h⟩

theorem load_inside (t : Table) {p : Nat} (h : p < stop) :
    Settles (· < stop) (fun _ => load t p) v True (fun b v' => b = t p ∧ v' = v) :=
  (load_settles t p).mono (iff_true_intro h) (fun _ _ h => h)

theorem load_outside (t : Table) {p : Nat} (h : stop ≤ p) :
    Settles (· < stop) (fun _ => load t p) v False (fun b v' => b = t p ∧ v' = v) :=
  (load_settles t p).mono (iff_of_false (Nat.not_lt.mpr h) not_false) (fun _ _ h => h)

theorem push_settles {size p : Nat} {add : Vectors → Vectors} (hp : p ≤ stop) :
    Settles (· < stop) (fun _ => push size p add) v (p + size ≤ stop) (fun _ v' => v' = add v) where
  only _ := by
    intro _ v' hres hin
    cases hres
    refine ⟨?_, rfl⟩
    cases size with
    | zero => exact hp
    | succ size =>
      exact hin (p + size) (List.mem_map.mpr ⟨size, List.mem_range.mpr (Nat.lt_succ_self _), rfl⟩)
  returns h := by
    refine ⟨0, (), _, rfl, fun _ _ => ⟨rfl, fun q hq => ?_⟩⟩
    obtain ⟨i, hi, rfl⟩ := List.mem_map.mp hq
    have := List.mem_range.mp hi
    show p + i < stop
    omega

theorem read_entry_settles {p : Nat} (type : Byte) (hp : p ≤ stop) :
    Settles (· < stop) (fun _ => read_entry t p type) v (p + structSize type ≤ stop)
      (fun _ _ => True) := by
  unfold read_entry structSize
  split
  · exact (push_settles hp).mono Iff.rfl fun _ _ _ => trivial
  split
  · exact (push_settles hp).mono Iff.rfl fun _ _ _ => trivial
  split
  · exact (push_settles hp).mono Iff.rfl fun _ _ _ => trivial
  split
  · exact (push_settles hp).mono Iff.rfl fun _ _ _ => trivial
  · exact Settles.done hp trivial

variable {n_entries : BitVec 64}

theorem scan_endless {P : Nat → Prop} {off : BitVec 64} (hoff : off < n_entries)
    (hlen : t (SIZEOF_MADT + off.toNat + 1) = 0) (fuel : Nat) :
    ∀ v, IfReturns P (scan_entries t n_entries fuel off) v (fun _ _ => False) := by
  induction fuel with
  | zero => intro v; exact IfReturns.stop
  | succ fuel ih =>
    intro v
    rw [scan_entries, if_pos hoff]
    refine ((load_settles t _).only 0).bind ?_
    rintro len _ ⟨-, rfl, rfl⟩
    refine ((load_settles t _).only 0).bind ?_
    rintro type _ ⟨-, rfl, rfl⟩
    refine IfReturns.bind (Q := fun _ _ => True) (fun _ _ _ _ => trivial) fun _ v' _ => ?_
    rw [hlen, show off + (0 : Byte).setWidth 64 = off from BitVec.add_zero off]
    exact ih v'

theorem scan_entries_settles (hstop : SIZEOF_MADT + n_entries.toNat = stop)
    (hsmall : n_entries.toNat < 2 ^ 32) :
    ∀ m k off v, k < m → k = n_entries.toNat - off.toNat →
      off.toNat < 2 ^ 33 →
      Settles (· < stop) (fun fuel => scan_entries t n_entries fuel off) v
        (Scannable (bytesFrom t (SIZEOF_MADT + off.toNat) k)) (fun _ _ => True) := by
  intro m
  induction m with
  | zero => intro k off v hm; exact absurd hm (Nat.not_lt_zero k)
  | succ m ih =>
    intro k off v hm hk hoff
    refine Settles.next rfl ?_
    simp only [scan_entries]
    by_cases hlt : off < n_entries
    swap
    · -- nothing is left
      have hk0 : k = 0 := by
        have := BitVec.not_lt.mp hlt
        rw [BitVec.le_def] at this
        omega
      subst hk0
      simp only [if_neg hlt]
      exact Settles.done Scannable.nil trivial
    simp only [if_pos hlt]
    rw [BitVec.lt_def] at hlt
    rcases k with _ | _ | k
    · omega
    · -- one byte is left: the length is read behind the end
      have hout : stop ≤ SIZEOF_MADT + off.toNat + 1 := by omega
      refine (Settles.fails (load_outside t hout)).mono ?_ (fun _ _ h => h)
      exact iff_of_false not_false (not_scannable_single _)
    · rw [bytesFrom_succ, bytesFrom_succ, scannable_cons, bytesFrom_length, ← bytesFrom_succ,
        ← bytesFrom_succ, bytesFrom_drop]
      have hheader : SIZEOF_MADT + off.toNat + 1 < stop := by omega
      refine (load_inside t hheader).andThen ?_
      rintro len _ ⟨rfl, rfl⟩
      refine (load_inside t (Nat.lt_of_succ_lt hheader)).andThen ?_
      rintro type _ ⟨rfl, rfl⟩
      generalize hbyte : t (SIZEOF_MADT + off.toNat + 1) = len
      by_cases hlen : len = 0
      · -- the cursor stays where it is
        subst hlen
        refine ⟨fun fuel => ?_, fun h => absurd rfl h.1⟩
        refine IfReturns.bind (Q := fun _ _ => True) (fun _ _ _ _ => trivial) fun _ v' _ => ?_
        rw [show off + (0 : Byte).setWidth 64 = off from BitVec.add_zero off]
        exact (scan_endless (BitVec.lt_def.mpr hlt) hbyte fuel v').mono fun _ _ h => h.elim
      · have hmove : (off + len.setWidth 64).toNat = off.toNat + len.toNat := by
          have := len.isLt
          rw [BitVec.toNat_add, BitVec.toNat_setWidth]
          omega
        have hpos : 0 < len.toNat := Nat.pos_of_ne_zero fun h => hlen (BitVec.eq_of_toNat_eq h)
        have hmax := len.isLt
        have hrest := fun v => ih (k + 1 + 1 - len.toNat) (off + len.setWidth 64) v
          (by omega) (by omega) (by omega)
        rw [hmove, ← Nat.add_assoc] at hrest
        refine ((read_entry_settles _ (by omega)).bind fun _ v' _ => hrest v').mono ?_
          (fun _ _ h => h)
        exact ⟨fun h => ⟨hlen, by omega, h.2⟩, fun h => ⟨by omega, h.2.2⟩⟩

end scan

/-! ## §5. Robustness of the scan. -/

theorem scan_short (t : Table) (v : Vectors) (h : (sdt_len t).toNat < SIZEOF_MADT) :
    Settles (· < (sdt_len t).toNat) (fun fuel => madt_init (some t) fuel) v False
      (fun _ _ => True) := by
  refine Settles.next rfl ?_
  have hwrap : (0 : BitVec 64) < (sdt_len t).setWidth 64 - BitVec.ofNat 64 SIZEOF_MADT := by
    rw [SIZEOF_MADT] at *
    rw [BitVec.lt_def, BitVec.toNat_sub, BitVec.toNat_setWidth, BitVec.toNat_ofNat,
      show (0 : BitVec 64).toNat = 0 from rfl]
    omega
  simp only [madt_init, scan_entries, if_pos hwrap]
  refine Settles.fails (load_outside t ?_)
  omega

theorem madt_init_settles (t : Table) (v : Vectors) :
    Settles (· < (sdt_len t).toNat) (fun fuel => madt_init (some t) fuel) v
      (SIZEOF_MADT ≤ (sdt_len t).toNat
        ∧ Scannable (bytesFrom t SIZEOF_MADT ((sdt_len t).toNat - SIZEOF_MADT)))
      (fun _ _ => True) := by
  by_cases h : SIZEOF_MADT ≤ (sdt_len t).toNat
  · have hlen := (sdt_len t).isLt
    have hn : ((sdt_len t).setWidth 64 - BitVec.ofNat 64 SIZEOF_MADT).toNat
        = (sdt_len t).toNat - SIZEOF_MADT := by
      rw [SIZEOF_MADT] at *
      rw [BitVec.toNat_sub, BitVec.toNat_setWidth, BitVec.toNat_ofNat]
      omega
    refine (scan_entries_settles (by omega) (by omega) _ ((sdt_len t).toNat - SIZEOF_MADT) 0 v
      (Nat.lt_succ_self _) (by rw [hn]; rfl) (by decide)).mono ?_ (fun _ _ h => h)
    exact (and_iff_right h).symm
  · exact (scan_short t v (Nat.not_le.mp h)).mono (iff_of_false not_false fun hc => h hc.1)
      (fun _ _ h => h)

/-- **The scan terminates and stays inside the table, exactly if** the table is
as long as its header and in its entries the header and the structure of each
are there and no length is 0.  For every table and whatever the vectors hold. -/
theorem madt_scan_inside (t : Table) (v : Vectors) :
    (∃ fuel r, (madt_init (some t) fuel v).2 = some r
        ∧ ∀ p ∈ (madt_init (some t) fuel v).1, p < (sdt_len t).toNat)
      ↔ SIZEOF_MADT ≤ (sdt_len t).toNat
        ∧ Scannable (bytesFrom t SIZEOF_MADT ((sdt_len t).toNat - SIZEOF_MADT)) :=
  settles_iff (madt_init_settles t v)

def tableOf (len checksum : Byte) (entries : List Byte) : Table := fun p =>
  if p < SIZEOF_MADT then
    ([0x41, 0x50, 0x49, 0x43, len, 0, 0, 0, 1, checksum] : List Byte).getD p 0
  else entries.getD (p - SIZEOF_MADT) 0

/-- Two tables with the right sum.  The entry of length 0 is read for ever; of
the one that is cut off the length byte is read behind the end. -/
theorem madt_scan_outside :
    (acpi_calc_checksum (tableOf 46 0xAF [5, 0]) 46 = 0
      ∧ sdt_len (tableOf 46 0xAF [5, 0]) = 46
      ∧ ∀ fuel, (madt_init (some (tableOf 46 0xAF [5, 0])) fuel ⟨[], [], [], []⟩).2 = none)
    ∧ (acpi_calc_checksum (tableOf 45 0xB0 [5]) 45 = 0
      ∧ sdt_len (tableOf 45 0xB0 [5]) = 45
      ∧ 45 ∈ (madt_init (some (tableOf 45 0xB0 [5])) 1 ⟨[], [], [], []⟩).1) := by
  refine ⟨⟨by decide, by decide, fun fuel => ?_⟩, by decide, by decide, by decide⟩
  cases hrun : (madt_init (some (tableOf 46 0xAF [5, 0])) fuel ⟨[], [], [], []⟩).2 with
  | none => rfl
  | some r =>
    exact absurd (scan_endless (P := fun _ => True) (by decide) (by decide) fuel _ r.1 r.2 hrun
      fun _ _ => trivial) not_false

/-! ## §6. The format, written. -/

/-- The bytes of a word, the low one first. -/
def le32 (x : BitVec 32) : List Byte :=
  [x.extractLsb' 0 8, x.extractLsb' 8 8, x.extractLsb' 16 8, x.extractLsb' 24 8]

def le16 (x : BitVec 16) : List Byte := [x.extractLsb' 0 8, x.extractLsb' 8 8]

/-- A type the scan does not know. -/
def Unknown (type : Byte) : Prop :=
  type ≠ TYPE_LAPIC ∧ type ≠ TYPE_IOAPIC ∧ type ≠ TYPE_ISO ∧ type ≠ TYPE_NMI

instance (type : Byte) : Decidable (Unknown type) := inferInstanceAs (Decidable (_ ∧ _))

/-- An entry of the table; its length fits the length byte. -/
inductive Entry where
  | lapic (e : MadtLapic)
  | ioapic (e : MadtIoapic)
  | iso (e : MadtIso)
  | nmi (e : MadtNmi)
  | other (type : Byte) (data : List Byte) (unknown : Unknown type) (fits : data.length + 2 < 256)

namespace Entry

def type : Entry → Byte
  | lapic _ => TYPE_LAPIC
  | ioapic _ => TYPE_IOAPIC
  | iso _ => TYPE_ISO
  | nmi _ => TYPE_NMI
  | other type _ _ _ => type

/-- What stands behind the header. -/
def payload : Entry → List Byte
  | lapic e => [e.proc_id, e.apic_id] ++ le32 e.flags
  | ioapic e => [e.ioapic_id, e.reserved] ++ le32 e.ioapic_addr ++ le32 e.gsi_base
  | iso e => [e.bus, e.irq] ++ le32 e.gsi ++ le16 e.flags
  | nmi e => [e.proc_id] ++ le16 e.flags ++ [e.lint]
  | other _ data _ _ => data

def encode (e : Entry) : List Byte :=
  e.type :: BitVec.ofNat 8 (e.payload.length + 2) :: e.payload

/-- The entries of each kind. -/
def lapic? : Entry → Option MadtLapic
  | lapic e => some e
  | _ => none

def ioapic? : Entry → Option MadtIoapic
  | ioapic e => some e
  | _ => none

def iso? : Entry → Option MadtIso
  | iso e => some e
  | _ => none

def nmi? : Entry → Option MadtNmi
  | nmi e => some e
  | _ => none

theorem payload_fits (e : Entry) : e.payload.length + 2 < 256 := by
  cases e with
  | other type data unknown fits => exact fits
  | _ => simp [payload, le32, le16]

theorem structSize_le (e : Entry) : structSize e.type ≤ e.payload.length := by
  cases e with
  | other type data unknown fits =>
    obtain ⟨h1, h2, h3, h4⟩ := unknown
    simp [Entry.type, structSize, h1, h2, h3, h4]
  | _ => simp [Entry.type, structSize, payload, le32, le16, TYPE_LAPIC, TYPE_IOAPIC, TYPE_ISO, TYPE_NMI]

end Entry

/-- The vectors with one more entry. -/
def Vectors.add (v : Vectors) (e : Entry) : Vectors where
  madt_lapics := v.madt_lapics ++ e.lapic?.toList
  madt_ioapics := v.madt_ioapics ++ e.ioapic?.toList
  madt_isos := v.madt_isos ++ e.iso?.toList
  madt_nmis := v.madt_nmis ++ e.nmi?.toList

/-- **A table that is the encoding of a list of entries.** -/
structure Encodes (t : Table) (entries : List Entry) : Prop where
  len : (sdt_len t).toNat = SIZEOF_MADT + (entries.flatMap Entry.encode).length
  bytes : bytesFrom t SIZEOF_MADT (entries.flatMap Entry.encode).length
    = entries.flatMap Entry.encode

variable {p : Nat} {t : Table}

theorem word32_le32 {x : BitVec 32} (h : bytesFrom t p 4 = le32 x) :
    word32 t p = x := by
  simp only [bytesFrom_succ, le32, List.cons.injEq] at h
  obtain ⟨h0, h1, h2, h3, -⟩ := h
  have hparts : word32 t p
      = x.extractLsb' 24 8 ++ x.extractLsb' 16 8 ++ x.extractLsb' 8 8 ++ x.extractLsb' 0 8 := by
    rw [word32, ← h0, ← h1, ← h2, ← h3]
  rw [hparts]
  refine BitVec.eq_of_getLsbD_eq fun i hi => ?_
  simp only [BitVec.getLsbD_append, BitVec.getLsbD_extractLsb']
  grind

theorem word16_le16 {x : BitVec 16} (h : bytesFrom t p 2 = le16 x) :
    word16 t p = x := by
  simp only [bytesFrom_succ, le16, List.cons.injEq] at h
  obtain ⟨h0, h1, -⟩ := h
  have hparts : word16 t p = x.extractLsb' 8 8 ++ x.extractLsb' 0 8 := by
    rw [word16, ← h0, ← h1]
  rw [hparts]
  refine BitVec.eq_of_getLsbD_eq fun i hi => ?_
  simp only [BitVec.getLsbD_append, BitVec.getLsbD_extractLsb']
  grind

theorem bytesFrom_split {n : Nat} {l r : List Byte}
    (h : bytesFrom t p n = l ++ r) :
    bytesFrom t p l.length = l ∧ bytesFrom t (p + l.length) r.length = r := by
  have hn : n = l.length + r.length := by
    rw [← List.length_append, ← h, bytesFrom_length]
  rw [hn, bytesFrom_append] at h
  exact List.append_inj h (bytesFrom_length ..)

theorem lapicAt_eq {e : MadtLapic}
    (h : bytesFrom t p 6 = [e.proc_id, e.apic_id] ++ le32 e.flags) : lapicAt t p = e := by
  obtain ⟨hids, hflags⟩ := bytesFrom_split h
  simp only [List.length_cons, List.length_nil, bytesFrom_succ, List.cons.injEq] at hids
  have hflags : word32 t (p + 2) = e.flags := word32_le32 hflags
  rw [lapicAt, hids.1, hids.2.1, hflags]

theorem ioapicAt_eq {e : MadtIoapic}
    (h : bytesFrom t p 10 = [e.ioapic_id, e.reserved] ++ le32 e.ioapic_addr ++ le32 e.gsi_base) :
    ioapicAt t p = e := by
  obtain ⟨hfirst, hbase⟩ := bytesFrom_split h
  obtain ⟨hids, haddr⟩ := bytesFrom_split hfirst
  simp only [List.length_cons, List.length_nil, bytesFrom_succ, List.cons.injEq] at hids
  have haddr : word32 t (p + 2) = e.ioapic_addr := word32_le32 haddr
  have hbase : word32 t (p + 6) = e.gsi_base := word32_le32 hbase
  rw [ioapicAt, hids.1, hids.2.1, haddr, hbase]

theorem isoAt_eq {e : MadtIso}
    (h : bytesFrom t p 8 = [e.bus, e.irq] ++ le32 e.gsi ++ le16 e.flags) : isoAt t p = e := by
  obtain ⟨hfirst, hflags⟩ := bytesFrom_split h
  obtain ⟨hids, hgsi⟩ := bytesFrom_split hfirst
  simp only [List.length_cons, List.length_nil, bytesFrom_succ, List.cons.injEq] at hids
  have hgsi : word32 t (p + 2) = e.gsi := word32_le32 hgsi
  have hflags : word16 t (p + 6) = e.flags := word16_le16 hflags
  rw [isoAt, hids.1, hids.2.1, hgsi, hflags]

theorem nmiAt_eq {e : MadtNmi}
    (h : bytesFrom t p 4 = [e.proc_id] ++ le16 e.flags ++ [e.lint]) : nmiAt t p = e := by
  obtain ⟨hfirst, hlint⟩ := bytesFrom_split h
  obtain ⟨hid, hflags⟩ := bytesFrom_split hfirst
  simp only [List.length_cons, List.length_nil, bytesFrom_succ, List.cons.injEq] at hid
  have hflags : word16 t (p + 1) = e.flags := word16_le16 hflags
  have hlint : t (p + 3) = e.lint := (List.cons.inj hlint).1
  rw [nmiAt, hid.1, hflags, hlint]

/-! ## §7. Decoding after encoding. -/

theorem read_entry_adds {e : Entry}
    (h : bytesFrom t p e.payload.length = e.payload) (v : Vectors) :
    (read_entry t p e.type v).2 = some ((), v.add e) := by
  cases e with
  | lapic e => simp [read_entry, Entry.type, push, Vectors.add, Entry.lapic?, Entry.ioapic?,
      Entry.iso?, Entry.nmi?, lapicAt_eq h]
  | ioapic e => simp [read_entry, Entry.type, TYPE_LAPIC, TYPE_IOAPIC, push, Vectors.add,
      Entry.lapic?, Entry.ioapic?, Entry.iso?, Entry.nmi?, ioapicAt_eq h]
  | iso e => simp [read_entry, Entry.type, TYPE_LAPIC, TYPE_IOAPIC, TYPE_ISO, push, Vectors.add,
      Entry.lapic?, Entry.ioapic?, Entry.iso?, Entry.nmi?, isoAt_eq h]
  | nmi e => simp [read_entry, Entry.type, TYPE_LAPIC, TYPE_IOAPIC, TYPE_ISO, TYPE_NMI, push,
      Vectors.add, Entry.lapic?, Entry.ioapic?, Entry.iso?, Entry.nmi?, nmiAt_eq h]
  | other type data unknown fits =>
    obtain ⟨h1, h2, h3, h4⟩ := unknown
    simp [read_entry, Entry.type, h1, h2, h3, h4, Vectors.add, Entry.lapic?, Entry.ioapic?,
      Entry.iso?, Entry.nmi?, pure_apply]

theorem scan_entries_decodes {stop : Nat} {n_entries : BitVec 64}
    (hstop : SIZEOF_MADT + n_entries.toNat = stop) (entries : List Entry) (off : BitVec 64)
    (v : Vectors)
    (hbytes : bytesFrom t (SIZEOF_MADT + off.toNat) (entries.flatMap Entry.encode).length
      = entries.flatMap Entry.encode)
    (hend : off.toNat + (entries.flatMap Entry.encode).length = n_entries.toNat) :
    Returns (· < stop) (fun fuel => scan_entries t n_entries fuel off) v
      (fun _ v' => v' = entries.foldl Vectors.add v) := by
  induction entries generalizing off v with
  | nil =>
    refine Returns.next ?_
    have hout : ¬ off < n_entries := by
      rw [BitVec.lt_def, ← hend]
      exact Nat.lt_irrefl _
    simp only [scan_entries, if_neg hout]
    exact Returns.pure rfl
  | cons e entries ih =>
    rw [List.flatMap_cons] at hbytes hend
    obtain ⟨hentry, hrest⟩ := bytesFrom_split hbytes
    have hlength : e.encode.length = e.payload.length + 2 := rfl
    have hfits := e.payload_fits
    rw [List.length_append] at hend
    -- the header
    rw [hlength, Entry.encode, bytesFrom_succ, bytesFrom_succ, List.cons.injEq,
      List.cons.injEq] at hentry
    obtain ⟨htype, hlen, hpayload⟩ := hentry
    have hin : off < n_entries := by
      rw [BitVec.lt_def]
      omega
    have hmove : (off + (BitVec.ofNat 8 (e.payload.length + 2)).setWidth 64).toNat
        = off.toNat + e.encode.length := by
      have := n_entries.isLt
      rw [BitVec.toNat_add, BitVec.toNat_setWidth, BitVec.toNat_ofNat]
      omega
    refine Returns.next ?_
    simp only [scan_entries, if_pos hin]
    refine ((load_inside t (by omega)).returns trivial).bind ?_
    rintro _ _ ⟨rfl, rfl⟩
    refine ((load_inside t (by omega)).returns trivial).bind ?_
    rintro _ _ ⟨rfl, rfl⟩
    rw [htype, hlen]
    have hsize := e.structSize_le
    refine ((read_entry_settles e.type (by omega)).result.returns (by omega)).bind ?_
    rintro _ v' ⟨-, hadd⟩
    rw [read_entry_adds hpayload] at hadd
    cases hadd
    refine ih _ _ ?_ (by rw [hmove]; omega)
    rw [hmove, ← Nat.add_assoc]
    exact hrest

theorem foldl_add (entries : List Entry) (v : Vectors) :
    entries.foldl Vectors.add v
      = ⟨v.madt_lapics ++ entries.filterMap Entry.lapic?,
        v.madt_ioapics ++ entries.filterMap Entry.ioapic?,
        v.madt_isos ++ entries.filterMap Entry.iso?,
        v.madt_nmis ++ entries.filterMap Entry.nmi?⟩ := by
  induction entries generalizing v with
  | nil => simp
  | cons e entries ih =>
    have hcons : ∀ {α : Type} (f : Entry → Option α),
        (e :: entries).filterMap f = (f e).toList ++ entries.filterMap f := by
      intro α f
      rw [List.filterMap_cons]
      cases f e <;> rfl
    rw [List.foldl_cons, ih]
    simp only [Vectors.add, hcons, List.append_assoc]

/-- **Decoding after encoding.**  For every table that encodes a list of entries
the scan returns, has read only bytes of the table, and has filled each vector
with the entries of its kind, in the order of the table. -/
theorem madt_decodes (t : Table) (entries : List Entry) (h : Encodes t entries) :
    ∃ n, ∀ fuel, n ≤ fuel →
      (madt_init (some t) fuel ⟨[], [], [], []⟩).2
          = some ((), ⟨entries.filterMap Entry.lapic?, entries.filterMap Entry.ioapic?,
              entries.filterMap Entry.iso?, entries.filterMap Entry.nmi?⟩)
        ∧ ∀ p ∈ (madt_init (some t) fuel ⟨[], [], [], []⟩).1, p < (sdt_len t).toNat := by
  have hn : ((sdt_len t).setWidth 64 - BitVec.ofNat 64 SIZEOF_MADT).toNat
      = (entries.flatMap Entry.encode).length := by
    have hlen := h.len
    have hlt := (sdt_len t).isLt
    rw [SIZEOF_MADT] at *
    rw [BitVec.toNat_sub, BitVec.toNat_setWidth, BitVec.toNat_ofNat]
    omega
  have hstop : SIZEOF_MADT + ((sdt_len t).setWidth 64 - BitVec.ofNat 64 SIZEOF_MADT).toNat
      = (sdt_len t).toNat := by
    rw [hn, h.len]
  obtain ⟨n, _, v', hv, hrun⟩ := scan_entries_decodes hstop entries 0 ⟨[], [], [], []⟩ h.bytes
    (by rw [hn]; exact Nat.zero_add _)
  rw [foldl_add] at hv
  subst hv
  exact ⟨n, hrun⟩

/-- A local APIC, an entry of type 9 with one byte, and an override. -/
theorem madt_decodes_three :
    ∃ n, ∀ fuel, n ≤ fuel →
      (madt_init (some (tableOf 65 0 [0, 8, 1, 2, 1, 0, 0, 0, 9, 3, 7, 2, 10, 0, 0, 2, 0, 0, 0, 5, 0]))
          fuel ⟨[], [], [], []⟩).2 = some ((), ⟨[⟨1, 2, 1⟩], [], [⟨0, 0, 2, 5⟩], []⟩)
        ∧ ∀ p ∈ (madt_init (some (tableOf 65 0
            [0, 8, 1, 2, 1, 0, 0, 0, 9, 3, 7, 2, 10, 0, 0, 2, 0, 0, 0, 5, 0]))
          fuel ⟨[], [], [], []⟩).1, p < 65 :=
  madt_decodes _ [.lapic ⟨1, 2, 1⟩, .other 9 [7] (by decide) (by decide), .iso ⟨0, 0, 2, 5⟩]
    ⟨by decide, by decide⟩

end Quack.Madt
