/-
  Quack.Util.Stdlib
  **`itoa` AND `atoi` (`stdlib.cpp`).**

  `itoa` writes the digits from the lowest on and reverses them in place.  An
  `int` is a word of 32 bits.

    • `number_round_trip` — `itoa` gives the numeral, and `atoi` reads it back.
-/
import Quack.Util.NumberText

namespace Quack.Stdlib

open Util Vsnprintf

/-! ## §1. The code. -/

/-- `isspace`. -/
def isspace (ch : Byte) : Bool := ch = 0x20 || (0x09 ≤ ch && ch ≤ 0x0D)

/-- The loop of `atoi`. -/
def atoi_digits : (res : BitVec 32) → List Byte → BitVec 32
  | res, [] => res
  | res, c :: str => if isdigit c then atoi_digits (res * 10 + (c.setWidth 32 - 0x30)) str else res

/-- `atoi` from the sign on. -/
def atoi_sign (str : List Byte) : BitVec 32 :=
  let minus := str.head? = some (ascii '-')
  let str := if minus then str.tail else str
  let str := if str.head? = some (ascii '+') then str.tail else str
  (if minus then -1 else 1) * atoi_digits 0 str

def atoi (str : List Byte) : BitVec 32 := atoi_sign (str.dropWhile isspace)

/-- The loop of `itoa`; `none` is out of fuel. -/
def itoa_digits (base : Nat) : (fuel n : Nat) → Option (List Byte)
  | 0, _ => none
  | fuel + 1, n =>
    let c := digits_upper.getD (n % base) 0
    if 0 < n / base then (itoa_digits base fuel (n / base)).map (c :: ·) else some [c]

/-- The loop of `reverse`. -/
def reverse_from (s : List Byte) (i j : Nat) : List Byte :=
  if i < j then reverse_from ((s.set i (s.getD j 0)).set j (s.getD i 0)) (i + 1) (j - 1) else s
termination_by j - i

def itoa (fuel n base : Nat) : Option (List Byte) :=
  (itoa_digits base fuel n).map fun s => reverse_from s 0 (s.length - 1)

/-! ## §2. `itoa`. -/

theorem itoa_digits_eq {base : Nat} (hbase : 1 < base) (fuel n : Nat) (h : n < fuel) :
    itoa_digits base fuel n = some (numeral base digits_upper n).reverse := by
  unfold numeral shown
  rw [List.reverse_reverse]
  induction fuel generalizing n with
  | zero => omega
  | succ fuel ih =>
    rw [itoa_digits]
    by_cases hn : n = 0
    · simp [hn]
    · have hlt := Nat.div_lt_self (Nat.pos_of_ne_zero hn) hbase
      rw [Nat.digits_def' hbase (Nat.pos_of_ne_zero hn), if_neg hn]
      by_cases hq : n / base = 0
      · simp [hq]
      · rw [if_pos (Nat.pos_of_ne_zero hq), ih _ (by omega), if_neg hq]
        rfl

theorem reverse_from_getElem? (s : List Byte) (i j : Nat) (hj : j < s.length) (k : Nat) :
    (reverse_from s i j)[k]? = if i ≤ k ∧ k ≤ j then s[i + j - k]? else s[k]? := by
  fun_induction reverse_from s i j with
  | case1 s i j hlt ih =>
    rw [ih (by simp; omega)]
    simp only [List.getElem?_set, List.getD_eq_getElem?_getD]
    grind
  | case2 s i j hge =>
    split
    · rw [show i + j - k = k by omega]
    · rfl

theorem reverse_eq (s : List Byte) (h : s ≠ []) : reverse_from s 0 (s.length - 1) = s.reverse := by
  have hlen := List.length_pos_iff.mpr h
  refine List.ext_getElem? fun k => ?_
  rw [reverse_from_getElem? s 0 _ (by omega) k]
  grind

theorem itoa_eq {base : Nat} (hbase : 1 < base) (fuel n : Nat) (h : n < fuel) :
    itoa fuel n base = some (numeral base digits_upper n) := by
  have hne : numeral base digits_upper n ≠ [] := by
    refine shown_ne_nil ?_
    split
    · exact List.cons_ne_nil 0 []
    · next hn => exact Nat.digits_ne_nil_iff_ne_zero.mpr hn
  rw [itoa, itoa_digits_eq hbase fuel n h, Option.map_some, reverse_eq _ (by simpa using hne),
    List.reverse_reverse]

/-! ## §3. `atoi`. -/

theorem readDigits_cons {c : Byte} {cs : List Byte} {acc n : Nat}
    (h : readDigits 10 acc (c :: cs) = some n) :
    0x30 ≤ c.toNat ∧ c.toNat ≤ 0x39 ∧ readDigits 10 (acc * 10 + (c.toNat - 48)) cs = some n := by
  rw [readDigits] at h
  cases hd : digitValue c with
  | none =>
    rw [hd] at h
    cases h
  | some d =>
    rw [hd] at h
    simp only [digitValue, BitVec.le_def, show (ascii '0').toNat = 48 from rfl,
      show (ascii '9').toNat = 57 from rfl] at hd h
    grind

theorem atoi_digits_eq (cs : List Byte) : ∀ acc n, readDigits 10 acc cs = some n →
    atoi_digits (BitVec.ofNat 32 acc) cs = BitVec.ofNat 32 n := by
  induction cs with
  | nil =>
    rintro acc n ⟨⟩
    rfl
  | cons c cs ih =>
    intro acc n h
    obtain ⟨hlo, hhi, h⟩ := readDigits_cons h
    have hdigit : isdigit c = true := by
      simp only [isdigit, Bool.and_eq_true, decide_eq_true_eq, BitVec.le_def]
      exact ⟨hlo, hhi⟩
    have hnext : BitVec.ofNat 32 acc * 10 + (c.setWidth 32 - 0x30)
        = BitVec.ofNat 32 (acc * 10 + (c.toNat - 48)) := by
      bv_omega
    rw [atoi_digits, if_pos hdigit, hnext, ih _ n h]

theorem readDigits_first {c : Byte} {cs : List Byte} {n : Nat}
    (h : readDigits 10 0 (c :: cs) = some n) :
    isspace c = false ∧ c ≠ ascii '-' ∧ c ≠ ascii '+' := by
  obtain ⟨hlo, hhi, -⟩ := readDigits_cons h
  refine ⟨?_, ?_, ?_⟩
  · simp [isspace, BitVec.le_def, ← BitVec.toNat_inj]
    omega
  · rintro rfl
    exact absurd hlo (by decide)
  · rintro rfl
    exact absurd hlo (by decide)

theorem atoi_of_parse {ws s : List Byte} {z : Int} (hws : ∀ c ∈ ws, isspace c = true)
    (h : parse 10 s = some z) : atoi (ws ++ s) = BitVec.ofInt 32 z := by
  have hzero : (0 : BitVec 32) = BitVec.ofNat 32 0 := rfl
  rw [atoi, List.dropWhile_append_of_pos hws]
  cases s with
  | nil => cases h
  | cons c cs =>
    rw [parse] at h
    split at h
    · next hc =>
        subst hc
        obtain ⟨n, hread, rfl⟩ := Option.map_eq_some_iff.mp h
        have hplus : cs.head? ≠ some (ascii '+') := by
          cases cs with
          | nil => simp
          | cons d cs => simpa using (readDigits_first hread).2.2
        rw [List.dropWhile_cons_of_neg (by decide)]
        simp only [atoi_sign, List.head?_cons, if_true, List.tail_cons, if_neg hplus]
        rw [hzero, atoi_digits_eq cs 0 n hread, BitVec.ofInt_neg, BitVec.ofInt_natCast,
          BitVec.neg_mul]
        exact congrArg (- ·) (BitVec.one_mul _)
    · next hc =>
        obtain ⟨n, hread, rfl⟩ := Option.map_eq_some_iff.mp h
        obtain ⟨hspace, -, hplus⟩ := readDigits_first hread
        rw [List.dropWhile_cons_of_neg (by simp [hspace])]
        simp only [atoi_sign, List.head?_cons, Option.some.injEq, hc, hplus, if_false]
        rw [hzero, atoi_digits_eq (c :: cs) 0 n hread]
        simp

/-- **The round trip.** -/
theorem number_round_trip (n : BitVec 32) :
    (∀ base, 2 ≤ base → base ≤ 16 → ∀ fuel > n.toNat,
        itoa fuel n.toNat base = some (numeral base digits_upper n.toNat))
      ∧ (n.toNat < 2 ^ 31 → ∀ fuel > n.toNat, ∀ s, itoa fuel n.toNat 10 = some s →
        ∀ ws, (∀ c ∈ ws, isspace c = true) →
          (atoi (ws ++ s)).toInt = n.toNat ∧ (atoi (ws ++ ascii '-' :: s)).toInt = -n.toNat) := by
  refine ⟨fun base hlo _ fuel hfuel => itoa_eq hlo fuel _ hfuel, ?_⟩
  intro hn fuel hfuel s hs ws hws
  rw [itoa_eq (by decide) fuel _ hfuel, Option.some.injEq] at hs
  obtain ⟨hpos, hneg⟩ := parse_numeral readable_upper (show 1 < 10 by decide) (by decide) n.toNat
  rw [← hs, atoi_of_parse hws hpos, atoi_of_parse hws hneg, BitVec.toInt_ofInt, BitVec.toInt_ofInt]
  constructor <;> rw [Int.bmod_def] <;> omega

theorem number_round_trip_42 :
    (atoi (bytes [' '] ++ ascii '-' :: numeral 10 digits_upper 42)).toInt = -42 :=
  ((number_round_trip 42).2 (by decide) 43 (by decide) _
    ((number_round_trip 42).1 10 (by decide) (by decide) 43 (by decide)) (bytes [' ']) (by decide)).2

/-- **`atoi` reads what `%d` and `%ld` print**, but for the least `int`, where it overflows. -/
theorem atoi_of_vsnprintf (z : Int) (hz : -2 ^ 31 < z ∧ z < 2 ^ 31) :
    ∃ text, (atoi text).toInt = z ∧ ∀ len, text.length < len →
      vsnprintf len (bytes ['%', 'd']) [.int (BitVec.ofInt 32 z)] = some (text ++ [0])
        ∧ vsnprintf len (bytes ['%', 'l', 'd']) [.long (BitVec.ofInt 64 z)] = some (text ++ [0]) := by
  have h32 : (BitVec.ofInt 32 z).toInt = z := by
    rw [BitVec.toInt_ofInt, Int.bmod_def]
    omega
  have hlow : (BitVec.ofInt 64 z).setWidth 32 = BitVec.ofInt 32 z := by
    simp [← BitVec.toNat_inj, BitVec.toNat_ofInt]
    omega
  have h64 : shown64 (BitVec.ofInt 64 z) .d = z := by
    have hbit := BitVec.msb_eq_toInt (x := BitVec.ofInt 32 z)
    rw [h32, ← hlow, BitVec.msb_setWidth] at hbit
    change (BitVec.ofInt 64 z).getLsbD 31 = _ at hbit
    simp only [shown64, hbit, hlow, h32, decide_eq_true_eq, BitVec.toNat_ofInt]
    omega
  refine ⟨IntConv.d.render z, ?_, fun len hlen => ⟨?_, ?_⟩⟩
  · exact (@atoi_of_parse [] _ z (by simp) (parse_render (c := .d) (Or.inl rfl))) ▸ h32
  · exact vsnprintf_directive rfl ((show shown32 _ .d = z from h32) ▸ convert_int .d _) hlen
  · exact vsnprintf_directive rfl (h64 ▸ convert_long .d _) hlen

theorem atoi_of_vsnprintf_negative :
    ∃ text, (atoi text).toInt = -42 ∧ ∀ len, text.length < len →
      vsnprintf len (bytes ['%', 'd']) [.int (-42)] = some (text ++ [0])
        ∧ vsnprintf len (bytes ['%', 'l', 'd']) [.long (-42)] = some (text ++ [0]) :=
  atoi_of_vsnprintf (-42) (by decide)

end Quack.Stdlib
