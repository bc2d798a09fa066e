/-
  Quack.Pci.Bars
  **CONFIGURATION SPACE AND `pci_dev::fetch_bar` (`pci.cpp`).**

  A function has 32-bit registers, and a write changes the writable bits of a
  register only.  A base address register has as many of them as the size of its
  range leaves; `fetch_bar` writes all ones to find out, and then writes the old
  value back.

    • `fetch_bar_sizes` — everything is right but the length, which is one less
      than the size for every register.
-/
import Mathlib.Logic.Function.Basic
import Mathlib.Algebra.Group.Nat.Defs

namespace Quack.Pci

/-! ## §1. The registers of one function. -/

/-- The registers by their offset, and the bits that a write can change. -/
structure Config where
  regs : BitVec 16 → BitVec 32
  writable : BitVec 16 → BitVec 32

def pci_read_dword (c : Config) (offset : BitVec 16) : BitVec 32 := c.regs (offset &&& 0xFFFC)

def pci_write_dword (c : Config) (offset : BitVec 16) (value : BitVec 32) : Config :=
  let o := offset &&& 0xFFFC
  let word := (c.regs o &&& ~~~c.writable o) ||| (value &&& c.writable o)
  { c with regs := Function.update c.regs o word }

inductive BarType where
  | io
  | mmio
  deriving Repr, DecidableEq

structure PciBar where
  type : BarType
  addr : BitVec 64
  length : BitVec 64
  prefetch : Bool
  deriving Repr, DecidableEq

/-- `bar0_off + bar * 4`, an `uint16_t`. -/
def bar_off (bar : Nat) : BitVec 16 := 0x10 + BitVec.ofNat 16 bar * 4

def sizing (c : Config) (offset : BitVec 16) (old : BitVec 64) : BitVec 64 × Config :=
  let written := pci_write_dword c offset 0xFFFFFFFF
  ((pci_read_dword written offset).setWidth 64, pci_write_dword written offset (old.setWidth 32))

/-- `pci_dev::fetch_bar`; `none` is `frg::null_opt`. -/
def fetch_bar (header_type : BitVec 8) (bar : Nat) (c : Config) : Option PciBar × Config :=
  if header_type &&& 0x7F ≠ 0 then (none, c)
  else
    let bar_lo := (pci_read_dword c (bar_off bar)).setWidth 64
    if bar_lo = 0 then (none, c)
    else
      let is_mmio := bar_lo &&& 1 == 0
      let is_prefetch := is_mmio && bar_lo &&& 8 != 0
      let is_64bit := is_mmio && bar_lo &&& 6 == 4
      let bar_hi := if is_64bit then (pci_read_dword c (bar_off bar + 4)).setWidth 64 else 0
      let mask : BitVec 64 := if is_mmio then 0xF else 0x3
      let base := ((bar_hi <<< 32) ||| bar_lo) &&& ~~~mask
      let lo := sizing c (bar_off bar) bar_lo
      let hi := if is_64bit then sizing lo.2 (bar_off bar + 4) bar_hi else (0xFFFFFFFF, lo.2)
      let size := ~~~(((hi.1 <<< 32) ||| lo.1) &&& ~~~mask)
      if is_mmio then (some ⟨.mmio, base, size, is_prefetch⟩, hi.2)
      else (some ⟨.io, base &&& 0xFFFF, size &&& 0xFFFF, is_prefetch⟩, hi.2)

/-! ## §2. Registers as the specification has them. -/

inductive Kind where
  /-- Ports; the upper 16 bits of the register may be wired to zero. -/
  | io (wide : Bool)
  | mem32
  | mem64
  deriving Repr, DecidableEq

/-- A range of `2 ^ k` bytes at `base`. -/
structure Range where
  kind : Kind
  k : Nat
  base : BitVec 64
  prefetch : Bool

namespace Range

/-- The address bits above the size. -/
def aligned (r : Range) : BitVec 64 := BitVec.allOnes 64 <<< r.k

/-- The read-only bits that tell the kind, and where they are. -/
def tag (r : Range) : BitVec 64 :=
  match r.kind with
  | .io _ => 1
  | .mem32 => if r.prefetch then 8 else 0
  | .mem64 => if r.prefetch then 12 else 4

def mask (r : Range) : BitVec 64 :=
  match r.kind with
  | .io _ => 3
  | _ => 0xF

/-- What the registers hold. -/
def word (r : Range) : BitVec 64 := r.base ||| r.tag

/-- The sizes there are, and a non-zero base that is a multiple of the size. -/
structure Valid (r : Range) : Prop where
  size : match r.kind with
    | .io _ => 2 ≤ r.k ∧ r.k ≤ 15
    | .mem32 => 4 ≤ r.k ∧ r.k ≤ 31
    | .mem64 => 4 ≤ r.k ∧ r.k ≤ 63
  natural : r.base &&& ~~~r.aligned = 0
  nonzero : r.base ≠ 0
  fits : r.kind ≠ .mem64 → r.base.toNat < 2 ^ 32
  narrow : r.kind = .io false → r.base.toNat < 2 ^ 16
  ports : ∀ wide, r.kind = .io wide → r.prefetch = false

/-- Register `bar` of the function, with the next one for a 64-bit range, is one for
this range. -/
structure At (r : Range) (c : Config) (bar : Nat) : Prop where
  index : if r.kind = .mem64 then bar + 1 < 6 else bar < 6
  lo : c.regs (bar_off bar) = r.word.setWidth 32
  loBits : c.writable (bar_off bar) = if r.kind = .io false
    then (r.aligned &&& 0xFFFF).setWidth 32 else r.aligned.setWidth 32
  hi : r.kind = .mem64 → c.regs (bar_off bar + 4) = (r.word >>> 32).setWidth 32
  hiBits : r.kind = .mem64 → c.writable (bar_off bar + 4) = (r.aligned >>> 32).setWidth 32

/-- What `fetch_bar` is to return. -/
def expected (r : Range) : PciBar :=
  ⟨match r.kind with
    | .io _ => .io
    | _ => .mmio, r.base, BitVec.ofNat 64 (2 ^ r.k), r.prefetch⟩

end Range

/-! ## §3. Sizing. -/

variable {c : Config} {bar : Nat} {r : Range}

theorem bar_off_aligned (h : bar < 6) : bar_off bar &&& 0xFFFC = bar_off bar := by
  revert bar
  decide

theorem bar_off_succ (bar : Nat) : bar_off bar + 4 = bar_off (bar + 1) := by
  unfold bar_off
  rw [BitVec.ofNat_add, BitVec.add_mul, BitVec.add_assoc]
  rfl

theorem sizing_eq (c : Config) {offset : BitVec 16} (hoff : offset &&& 0xFFFC = offset) :
    sizing c offset ((c.regs offset).setWidth 64)
      = ((c.regs offset ||| c.writable offset).setWidth 64, c) := by
  have hones : (c.regs offset &&& ~~~c.writable offset) ||| (0xFFFFFFFF &&& c.writable offset)
      = c.regs offset ||| c.writable offset := by
    have hall : (0xFFFFFFFF : BitVec 32) = BitVec.allOnes 32 := rfl
    rw [hall, BitVec.allOnes_and]
    ext i hi
    simp only [BitVec.getElem_or, BitVec.getElem_and, BitVec.getElem_not]
    cases (c.regs offset)[i] <;> cases (c.writable offset)[i] <;> rfl
  have hback : ((c.regs offset ||| c.writable offset) &&& ~~~c.writable offset)
      ||| (c.regs offset &&& c.writable offset) = c.regs offset := by
    ext i hi
    simp only [BitVec.getElem_or, BitVec.getElem_and, BitVec.getElem_not]
    cases (c.regs offset)[i] <;> cases (c.writable offset)[i] <;> rfl
  have hold : ((c.regs offset).setWidth 64).setWidth 32 = c.regs offset := by
    rw [BitVec.setWidth_setWidth_of_le _ (by decide), BitVec.setWidth_eq]
  unfold sizing pci_write_dword pci_read_dword
  simp only [hoff, hold, Function.update_self, Function.update_idem, hones, hback,
    Function.update_eq_self]

theorem join (x : BitVec 64) :
    (((x >>> 32).setWidth 32).setWidth 64 <<< 32) ||| (x.setWidth 32).setWidth 64 = x := by
  refine BitVec.eq_of_getLsbD_eq fun i hi => ?_
  simp only [BitVec.getLsbD_or, BitVec.getLsbD_shiftLeft, BitVec.getLsbD_setWidth,
    BitVec.getLsbD_ushiftRight]
  by_cases hlow : i < 32
  · simp [hlow, hi]
  · simp [hlow, hi, show 32 + (i - 32) = i by omega, show i - 32 < 32 by omega,
      show i - 32 < 64 by omega]

theorem getLsbD_of_lt {w n i : Nat} {x : BitVec w} (h : x.toNat < 2 ^ n) (hi : n ≤ i) :
    x.getLsbD i = false :=
  Nat.testBit_lt_two_pow (Nat.lt_of_lt_of_le h (Nat.pow_le_pow_right (by decide) hi))

namespace Range.Valid

theorem getLsbD_aligned (r : Range) (i : Nat) :
    r.aligned.getLsbD i = (decide (i < 64) && decide (r.k ≤ i)) := by
  unfold aligned
  simp only [BitVec.getLsbD_shiftLeft, BitVec.getLsbD_allOnes]
  by_cases hi : i < 64 <;> by_cases hk : r.k ≤ i <;> simp [hi, hk]
  omega

theorem not_aligned (r : Range) : ~~~r.aligned = BitVec.ofNat 64 (2 ^ r.k - 1) := by
  refine BitVec.eq_of_getLsbD_eq fun i hi => ?_
  rw [BitVec.getLsbD_not, getLsbD_aligned, BitVec.getLsbD_ofNat, Nat.testBit_two_pow_sub_one]
  by_cases hk : i < r.k
  · simp [hi, hk, Nat.not_le.mpr hk]
  · simp [hi, hk, Nat.le_of_not_lt hk]

theorem bits (h : r.Valid) (i : Nat) :
    (r.base.getLsbD i = true → r.aligned.getLsbD i = true)
      ∧ (r.tag.getLsbD i = true → r.mask.getLsbD i = true)
      ∧ (r.aligned.getLsbD i = true → r.mask.getLsbD i = false) := by
  have hsize := h.size
  have htag : r.tag &&& r.mask = r.tag := by
    unfold tag mask
    rcases r.kind with _ | _ | _ <;> cases r.prefetch <;> simp
  have hmask : r.mask.toNat < 2 ^ r.k := by
    have hpow : ∀ n, n ≤ r.k → 2 ^ n ≤ 2 ^ r.k := fun n => Nat.pow_le_pow_right (by decide)
    unfold mask
    rcases hkind : r.kind with _ | _ | _ <;> rw [hkind] at hsize
    · exact Nat.lt_of_lt_of_le (by decide : 3 < 2 ^ 2) (hpow 2 hsize.1)
    · exact Nat.lt_of_lt_of_le (by decide : 15 < 2 ^ 4) (hpow 4 hsize.1)
    · exact Nat.lt_of_lt_of_le (by decide : 15 < 2 ^ 4) (hpow 4 hsize.1)
  refine ⟨fun hb => ?_, fun ht => ?_, fun ha => ?_⟩
  · have hz := congrArg (fun x => x.getLsbD i) h.natural
    have hlt := BitVec.lt_of_getLsbD hb
    simpa [BitVec.getLsbD_and, BitVec.getLsbD_not, hb, hlt] using hz
  · rw [← htag, BitVec.getLsbD_and, Bool.and_eq_true] at ht
    exact ht.2
  · rw [getLsbD_aligned, Bool.and_eq_true, decide_eq_true_eq, decide_eq_true_eq] at ha
    exact getLsbD_of_lt hmask ha.2

theorem base_eq (h : r.Valid) : r.word &&& ~~~r.mask = r.base := by
  refine BitVec.eq_of_getLsbD_eq fun i hi => ?_
  have hbits := h.bits i
  simp only [word, BitVec.getLsbD_and, BitVec.getLsbD_or, BitVec.getLsbD_not, hi]
  grind

theorem aligned_eq (h : r.Valid) : (r.word ||| r.aligned) &&& ~~~r.mask = r.aligned := by
  refine BitVec.eq_of_getLsbD_eq fun i hi => ?_
  have hbits := h.bits i
  simp only [word, BitVec.getLsbD_and, BitVec.getLsbD_or, BitVec.getLsbD_not, hi]
  grind

theorem word_and (h : r.Valid) (m : BitVec 64) (hm : m &&& r.mask = m) :
    (r.word.setWidth 32).setWidth 64 &&& m = r.tag &&& m := by
  have hmask : r.mask.toNat < 2 ^ 4 := by
    unfold mask
    split <;> decide
  refine BitVec.eq_of_getLsbD_eq fun i hi => ?_
  have hbits := h.bits i
  have hlow := congrArg (fun x => x.getLsbD i) hm
  have htop : r.mask.getLsbD i = true → i < 32 := fun ht => by
    by_contra hge
    rw [getLsbD_of_lt hmask (by omega)] at ht
    cases ht
  simp only [word, BitVec.getLsbD_and, BitVec.getLsbD_or, BitVec.getLsbD_setWidth, hi] at hlow ⊢
  clear hm hmask
  grind

theorem upper (h : r.Valid) (hkind : r.kind ≠ .mem64) :
    ((r.word >>> 32).setWidth 32).setWidth 64 = 0
      ∧ (((r.word ||| r.aligned) >>> 32).setWidth 32).setWidth 64 = 0xFFFFFFFF := by
  have hsize := h.size
  have htag : r.tag.toNat < 2 ^ 32 := by
    unfold tag
    split <;> cases r.prefetch <;> decide
  have hword : ∀ i, 32 ≤ i → r.word.getLsbD i = false := fun i hi => by
    rw [word, BitVec.getLsbD_or, getLsbD_of_lt (h.fits hkind) hi, getLsbD_of_lt htag hi]
    rfl
  have hk : r.k ≤ 31 := by
    rcases hr : r.kind with _ | _ | _ <;> rw [hr] at hsize hkind
    · omega
    · omega
    · exact absurd rfl hkind
  have hones : (0xFFFFFFFF : BitVec 64) = BitVec.ofNat 64 (2 ^ 32 - 1) := rfl
  constructor
  · refine BitVec.eq_of_getLsbD_eq fun i hi => ?_
    simp only [BitVec.getLsbD_setWidth, BitVec.getLsbD_ushiftRight, hword (32 + i) (by omega)]
    simp
  · refine BitVec.eq_of_getLsbD_eq fun i hi => ?_
    rw [hones, BitVec.getLsbD_ofNat, Nat.testBit_two_pow_sub_one]
    simp only [BitVec.getLsbD_setWidth, BitVec.getLsbD_ushiftRight, BitVec.getLsbD_or,
      hword (32 + i) (by omega), getLsbD_aligned]
    grind

theorem flags (h : r.Valid) {lo : BitVec 64} (hlo : lo = (r.word.setWidth 32).setWidth 64) :
    lo ≠ 0 ∧ (lo &&& 1 == 0) = decide (r.expected.type = .mmio)
      ∧ (decide (r.expected.type = .mmio) && lo &&& 8 != 0) = r.prefetch
      ∧ (decide (r.expected.type = .mmio) && lo &&& 6 == 4) = decide (r.kind = .mem64) := by
  subst hlo
  have hand := h.word_and
  rcases hkind : r.kind with wide | _ | _
  · have hone := hand 1 (by simp [mask, hkind])
    have htag : r.tag = 1 := by simp only [tag, hkind]
    rw [htag] at hone
    refine ⟨fun hz => ?_, ?_, ?_, ?_⟩
    · rw [hz] at hone
      exact absurd hone (by decide)
    · rw [hone]
      simp [expected, hkind]
    · simp [expected, hkind, h.ports wide hkind]
    · simp [expected, hkind]
  · refine ⟨fun hz => h.nonzero ?_, ?_⟩
    · -- the tag may be zero here, but then the base is not
      rw [← h.base_eq, ← join r.word, (h.upper (by rw [hkind]; decide)).1, hz]
      simp
    · rw [hand 1 (by simp [mask, hkind]), hand 8 (by simp [mask, hkind]),
        hand 6 (by simp [mask, hkind])]
      cases hpf : r.prefetch <;> simp [expected, hkind, hpf, tag]
  · refine ⟨fun hz => ?_, ?_⟩
    · have hfour := hand 4 (by simp [mask, hkind])
      rw [hz] at hfour
      cases hpf : r.prefetch <;> simp [hkind, hpf, tag] at hfour
    · rw [hand 1 (by simp [mask, hkind]), hand 8 (by simp [mask, hkind]),
        hand 6 (by simp [mask, hkind])]
      cases hpf : r.prefetch <;> simp [expected, hkind, hpf, tag]

theorem port_length (h : r.Valid) {x : BitVec 64}
    (hx : ∀ i, i < 16 → x.getLsbD i = (r.word ||| r.aligned).getLsbD i) (hk : r.k ≤ 15) :
    ~~~(x &&& ~~~r.mask) &&& 0xFFFF = ~~~r.aligned := by
  have hones : (0xFFFF : BitVec 64) = BitVec.ofNat 64 (2 ^ 16 - 1) := rfl
  rw [hones]
  refine BitVec.eq_of_getLsbD_eq fun i hi => ?_
  have hbits := h.bits i
  have hx := hx i
  have ha := getLsbD_aligned r i
  simp only [word, BitVec.getLsbD_and, BitVec.getLsbD_or, BitVec.getLsbD_not, hi,
    BitVec.getLsbD_ofNat, Nat.testBit_two_pow_sub_one] at hx ⊢
  grind

end Range.Valid

/-! ## §4. `fetch_bar`. -/

def Range.fetched (r : Range) : PciBar :=
  { r.expected with
    addr := if r.expected.type = .io then r.base &&& 0xFFFF else r.base
    length := BitVec.ofNat 64 (2 ^ r.k - 1) }

theorem Range.At.upper (h : r.At c bar) (hr : r.Valid) :
    (if decide (r.kind = .mem64) = true then (pci_read_dword c (bar_off bar + 4)).setWidth 64
        else 0) = ((r.word >>> 32).setWidth 32).setWidth 64
    ∧ (if decide (r.kind = .mem64) = true
        then sizing c (bar_off bar + 4) (((r.word >>> 32).setWidth 32).setWidth 64)
        else (0xFFFFFFFF, c)) = ((((r.word ||| r.aligned) >>> 32).setWidth 32).setWidth 64, c) := by
  by_cases hkind : r.kind = .mem64
  · have hnext := h.index
    rw [if_pos hkind] at hnext
    have hoff := bar_off_aligned hnext
    rw [← bar_off_succ] at hoff
    have hs := sizing_eq c hoff
    rw [h.hi hkind, h.hiBits hkind] at hs
    rw [if_pos (decide_eq_true hkind), if_pos (decide_eq_true hkind), hs, pci_read_dword, hoff,
      h.hi hkind]
    simp [BitVec.ushiftRight_or_distrib]
  · obtain ⟨hzero, hones⟩ := hr.upper hkind
    rw [if_neg (by simpa using hkind), if_neg (by simpa using hkind), hzero, hones]
    exact ⟨rfl, rfl⟩

theorem fetch_bar_eq {header_type : BitVec 8} (hheader : header_type &&& 0x7F = 0)
    (hr : r.Valid) (h : r.At c bar) : fetch_bar header_type bar c = (some r.fetched, c) := by
  have hindex : bar < 6 := by
    have := h.index
    split at this <;> omega
  have hlo : pci_read_dword c (bar_off bar) = r.word.setWidth 32 := by
    rw [pci_read_dword, bar_off_aligned hindex, h.lo]
  obtain ⟨hne, hmmio, hprefetch, h64⟩ := hr.flags rfl
  obtain ⟨hread, hhigh⟩ := h.upper hr
  have hsizing := sizing_eq c (bar_off_aligned hindex)
  rw [h.lo] at hsizing
  have hmask : (if decide (r.expected.type = .mmio) = true then (0xF : BitVec 64) else 0x3)
      = r.mask := by
    unfold Range.expected Range.mask
    rcases r.kind with _ | _ | _ <;> rfl
  unfold fetch_bar
  rw [if_neg (not_not.mpr hheader)]
  simp only [hlo, if_neg hne, hmmio, hprefetch, h64, hsizing, hmask, hread, hhigh, join, hr.base_eq]
  have hbits := h.loBits
  unfold Range.fetched
  by_cases htype : r.expected.type = .io
  · obtain ⟨wide, hkind⟩ : ∃ wide, r.kind = .io wide := by
      cases hk : r.kind <;> simp [Range.expected, hk] at htype ⊢
    have hsize := hr.size
    rw [hkind] at hsize
    rw [if_neg (by rw [htype]; decide), hr.port_length ?_ hsize.2, Range.Valid.not_aligned,
      if_pos htype, ← htype]
    · rfl
    · intro i hi
      cases wide with
      | false =>
        rw [hbits, if_pos hkind]
        have hcut : (0xFFFF : BitVec 64) = BitVec.ofNat 64 (2 ^ 16 - 1) := rfl
        simp only [hcut, BitVec.getLsbD_or, BitVec.getLsbD_and, BitVec.getLsbD_setWidth,
          BitVec.getLsbD_shiftLeft, BitVec.getLsbD_ofNat, Nat.testBit_two_pow_sub_one]
        grind
      | true =>
        rw [hbits, if_neg (by rw [hkind]; decide), ← BitVec.setWidth_or, join]
  · have hmem : r.expected.type = .mmio := by
      cases hk : r.expected.type with
      | io => exact absurd hk htype
      | mmio => rfl
    have hkind : r.kind ≠ .io false := fun hk => htype (by simp only [Range.expected, hk])
    rw [if_pos (by rw [hmem]; decide), hbits, if_neg hkind, ← BitVec.setWidth_or, join,
      hr.aligned_eq, Range.Valid.not_aligned, if_neg htype, ← hmem]
    rfl

theorem Range.Valid.k_lt (h : r.Valid) : r.k < 64 := by
  have hsize := h.size
  rcases hkind : r.kind with _ | _ | _ <;> rw [hkind] at hsize <;> omega

/-- **What `fetch_bar` finds out.**  For every type-0 function and every base address
register as the specification has it, the kind and the prefetch bit are right, the
configuration space is as before, and so is the address, unless it is a port above
`0xFFFF`.  The length is one less than the size; so the answer is never the expected one. -/
theorem fetch_bar_sizes (header_type : BitVec 8) (hheader : header_type &&& 0x7F = 0) (bar : Nat)
    (c : Config) (r : Range) (hr : r.Valid) (h : r.At c bar) :
    (∃ b, fetch_bar header_type bar c = (some b, c) ∧ b.type = r.expected.type
      ∧ b.prefetch = r.prefetch ∧ b.length.toNat = 2 ^ r.k - 1
      ∧ (b.addr = r.base ↔ (r.expected.type = .io → r.base.toNat < 2 ^ 16)))
    ∧ (fetch_bar header_type bar c = (some r.expected, c) ↔ False) := by
  have hfetch := fetch_bar_eq hheader hr h
  have hpow : 2 ^ r.k < 2 ^ 64 := Nat.pow_lt_pow_right (by decide) hr.k_lt
  have hlength : r.fetched.length.toNat = 2 ^ r.k - 1 := by
    show (BitVec.ofNat 64 (2 ^ r.k - 1)).toNat = _
    rw [BitVec.toNat_ofNat, Nat.mod_eq_of_lt (by omega)]
  refine ⟨⟨r.fetched, hfetch, rfl, rfl, hlength, ?_⟩, iff_false_intro fun hexp => ?_⟩
  · show (if r.expected.type = .io then r.base &&& 0xFFFF else r.base) = r.base ↔ _
    by_cases htype : r.expected.type = .io
    · have hand : (r.base &&& 0xFFFF).toNat = r.base.toNat % 2 ^ 16 :=
        Nat.and_two_pow_sub_one_eq_mod r.base.toNat 16
      rw [if_pos htype, ← BitVec.toNat_inj, hand, imp_iff_right htype]
      omega
    · rw [if_neg htype]
      exact iff_of_true rfl fun hio => absurd hio htype
  · rw [hfetch] at hexp
    have hsame : r.fetched = r.expected := Option.some.inj (congrArg Prod.fst hexp)
    have hsize : r.expected.length.toNat = 2 ^ r.k := by
      show (BitVec.ofNat 64 (2 ^ r.k)).toNat = _
      rw [BitVec.toNat_ofNat, Nat.mod_eq_of_lt hpow]
    rw [hsame, hsize] at hlength
    have hpos := Nat.two_pow_pos r.k
    omega

/-- A page of memory at `0xFEBF1000`, in the first register. -/
def pageRange : Range := ⟨.mem32, 12, 0xFEBF1000, false⟩

def pageConfig : Config where
  regs offset := if offset = 0x10 then 0xFEBF1000 else 0
  writable offset := if offset = 0x10 then 0xFFFFF000 else 0

theorem pageRange_valid : pageRange.Valid :=
  ⟨(by decide : 4 ≤ 12 ∧ 12 ≤ 31), by decide, by decide, fun _ => by decide, fun h => absurd h (by decide),
    fun _ _ => rfl⟩

theorem pageRange_at : pageRange.At pageConfig 0 :=
  ⟨by decide, by decide, by decide, fun h => absurd h (by decide), fun h => absurd h (by decide)⟩

theorem fetch_bar_sizes_page :
    ∃ b, fetch_bar 0 0 pageConfig = (some b, pageConfig) ∧ b.addr = 0xFEBF1000
      ∧ b.length.toNat = 0xFFF := by
  obtain ⟨⟨b, hfetch, -, -, hlength, haddr⟩, -⟩ :=
    fetch_bar_sizes 0 rfl 0 pageConfig pageRange pageRange_valid pageRange_at
  exact ⟨b, hfetch, haddr.mpr fun h => absurd h (by decide), hlength⟩

/-- A page is found to be 4095 bytes long. -/
theorem fetch_bar_one_short :
    ¬ ∀ (bar : Nat) (c : Config) (r : Range), r.Valid → r.At c bar →
      fetch_bar 0 bar c = (some r.expected, c) := by
  intro h
  have hpage := congrArg Prod.fst (h 0 pageConfig pageRange pageRange_valid pageRange_at)
  exact absurd hpage (by decide)

end Quack.Pci
