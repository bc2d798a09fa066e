/-
  Quack.Util.NumberText
  **`vsnprintf`: WHAT THE NUMBERS READ.**

  `va_arg` widens an `int` with its sign, and `num_fmt` tests the sign of the low
  32 bits; `%x` stops after 8 or 16 digits, the other conversions after none.

    • `integer_formatting` — when the number that is read back is the argument.
-/
import Quack.Util.Vsnprintf
import Mathlib.Data.Nat.Digits.Lemmas

namespace Quack.Vsnprintf

open Util

/-! ## §1. Numerals. -/

/-- The characters of a list of digits, the lowest digit first. -/
def shown (digits : List Byte) (ds : List Nat) : List Byte :=
  (ds.map fun d => digits.getD d 0).reverse

/-- The numeral of `n`. -/
def numeral (base : Nat) (digits : List Byte) (n : Nat) : List Byte :=
  shown digits (if n = 0 then [0] else Nat.digits base n)

/-- The decimal numeral of an integer: a leading minus iff it is negative. -/
def signedNumeral (z : Int) : List Byte :=
  if z < 0 then ascii '-' :: numeral 10 digits_lower z.natAbs
  else numeral 10 digits_lower z.natAbs

/-- The value of a digit character. -/
def digitValue (c : Byte) : Option Nat :=
  if ascii '0' ≤ c ∧ c ≤ ascii '9' then some (c.toNat - 48)
  else if ascii 'a' ≤ c ∧ c ≤ ascii 'f' then some (c.toNat - 97 + 10)
  else if ascii 'A' ≤ c ∧ c ≤ ascii 'F' then some (c.toNat - 65 + 10)
  else none

/-- Reading digits from the left. -/
def readDigits (base : Nat) : (acc : Nat) → List Byte → Option Nat
  | acc, [] => some acc
  | acc, c :: cs =>
    match digitValue c with
    | none => none
    | some d => if d < base then readDigits base (acc * base + d) cs else none

/-- Reading a number: an optional minus, then at least one digit. -/
def parse (base : Nat) : List Byte → Option Int
  | [] => none
  | c :: cs =>
    if c = ascii '-' then (readDigits base 0 cs).map fun n : Nat => -(n : Int)
    else (readDigits base 0 (c :: cs)).map fun n : Nat => (n : Int)

/-- The two tables of `vsnprintf.cpp` have the digits of base 16 in order. -/
def Readable (digits : List Byte) : Prop :=
  ∀ d, d < 16 → digitValue (digits.getD d 0) = some d ∧ digits.getD d 0 ≠ ascii '-'

theorem readable_lower : Readable digits_lower := by
  unfold Readable
  decide

theorem readable_upper : Readable digits_upper := by
  unfold Readable
  decide

section Reading

variable {base : Nat} {digits : List Byte}

theorem readDigits_append (cs cs' : List Byte) :
    ∀ acc, readDigits base acc (cs ++ cs')
      = (readDigits base acc cs).bind fun n => readDigits base n cs' := by
  induction cs with
  | nil =>
    intro acc
    rfl
  | cons c cs ih =>
    intro acc
    simp only [List.cons_append, readDigits]
    cases digitValue c with
    | none => rfl
    | some d =>
      simp only
      split
      · exact ih _
      · rfl

theorem readDigits_shown (hdigits : Readable digits) (hbase : base ≤ 16) (ds : List Nat) :
    (∀ d ∈ ds, d < base) →
      ∀ acc, readDigits base acc (shown digits ds)
        = some (acc * base ^ ds.length + Nat.ofDigits base ds) := by
  induction ds with
  | nil =>
    intro _ acc
    show some acc = some (acc * base ^ 0 + 0)
    rw [Nat.pow_zero, Nat.mul_one, Nat.add_zero]
  | cons d ds ih =>
    intro hlt acc
    have hd : d < base := hlt d List.mem_cons_self
    have hds : ∀ e ∈ ds, e < base := fun e he => hlt e (List.mem_cons_of_mem d he)
    -- the lowest digit is the last character
    have hcons : shown digits (d :: ds) = shown digits ds ++ [digits.getD d 0] := by
      unfold shown
      rw [List.map_cons, List.reverse_cons]
    rw [hcons, readDigits_append, ih hds acc, Option.bind_some]
    simp only [readDigits, (hdigits d (by omega)).1, if_pos hd, Option.some.injEq,
      List.length_cons, Nat.ofDigits_cons, Nat.pow_succ]
    rw [Nat.add_mul, Nat.mul_assoc, Nat.mul_comm base (Nat.ofDigits base ds)]
    omega

theorem shown_ne_nil {ds : List Nat} (h : ds ≠ []) : shown digits ds ≠ [] := by
  unfold shown
  rw [ne_eq, List.reverse_eq_nil_iff, List.map_eq_nil_iff]
  exact h

theorem minus_not_mem_shown (hdigits : Readable digits) {ds : List Nat}
    (hlt : ∀ d ∈ ds, d < 16) : ascii '-' ∉ shown digits ds := by
  unfold shown
  rw [List.mem_reverse, List.mem_map]
  rintro ⟨d, hd, hc⟩
  exact (hdigits d (hlt d hd)).2 hc

theorem numeral_digits_lt (hbase : 1 < base) (n : Nat) :
    ∀ d ∈ (if n = 0 then [0] else Nat.digits base n), d < base := by
  intro d hd
  split at hd
  · rw [List.mem_singleton.mp hd]
    omega
  · exact Nat.digits_lt_base hbase hd

theorem parse_numeral (hdigits : Readable digits) (hbase : 1 < base) (hle : base ≤ 16) (n : Nat) :
    parse base (numeral base digits n) = some (n : Int)
    ∧ parse base (ascii '-' :: numeral base digits n) = some (-(n : Int)) := by
  have hlt := numeral_digits_lt hbase n
  have hread : readDigits base 0 (numeral base digits n) = some n := by
    unfold numeral
    rw [readDigits_shown hdigits hle _ hlt, Nat.zero_mul, Nat.zero_add]
    split
    · next hn => rw [hn]; rfl
    · rw [Nat.ofDigits_digits]
  constructor
  · have hminus : ascii '-' ∉ numeral base digits n :=
      minus_not_mem_shown hdigits fun d hd => by
        have hd := hlt d hd
        omega
    cases htext : numeral base digits n with
    | nil =>
      refine absurd htext (shown_ne_nil ?_)
      split
      · exact List.cons_ne_nil 0 []
      · next hn => exact Nat.digits_ne_nil_iff_ne_zero.mpr hn
    | cons c cs =>
      rw [htext] at hread hminus
      have hc : c ≠ ascii '-' := fun hc => hminus (hc ▸ List.mem_cons_self)
      simp only [parse, if_neg hc, hread, Option.map_some]
  · simp only [parse, if_true, hread, Option.map_some]

theorem parse_signedNumeral (z : Int) : parse 10 (signedNumeral z) = some z := by
  have hpos : parse 10 (numeral 10 digits_lower z.natAbs) = some (z.natAbs : Int) :=
    (parse_numeral readable_lower (by decide) (by decide) _).1
  have hneg : parse 10 (ascii '-' :: numeral 10 digits_lower z.natAbs) = some (-(z.natAbs : Int)) :=
    (parse_numeral readable_lower (by decide) (by decide) _).2
  unfold signedNumeral
  split
  · rw [hneg]
    congr 1
    omega
  · rw [hpos]
    congr 1
    omega

end Reading

/-! ## §2. The digit loop. -/

/-- The digits the loop writes of `n`: all of them, or the low `len`. -/
def shownDigits (base : Nat) (len : Int) (n : Nat) : List Nat :=
  if n = 0 then [0]
  else if len = -1 then Nat.digits base n
  else (Nat.digits base n).take len.toNat

theorem shownDigits_step {base : Nat} (hbase : 1 < base) {len : Int} (hlen : len = -1 ∨ 0 < len)
    {n : Nat} (hrest : n / base ≠ 0)
    (hgo : (if 0 < len then len - 1 else len) = -1 ∨ (if 0 < len then len - 1 else len) ≠ 0) :
    shownDigits base len n
      = n % base :: shownDigits base (if 0 < len then len - 1 else len) (n / base) := by
  have hn : n ≠ 0 := by
    rintro rfl
    exact hrest (Nat.zero_div base)
  unfold shownDigits
  rw [if_neg hn, if_neg hrest, Nat.digits_def' hbase (by omega)]
  rcases hlen with rfl | hpos
  · rfl
  · rw [if_pos hpos] at hgo ⊢
    rw [if_neg (by omega), if_neg (by omega), show len.toNat = (len - 1).toNat + 1 by omega,
      List.take_succ_cons]

theorem shownDigits_last {base : Nat} (hbase : 1 < base) {len : Int} (hlen : len = -1 ∨ 0 < len)
    {n : Nat}
    (hstop : ¬ (n / base ≠ 0
      ∧ ((if 0 < len then len - 1 else len) = -1 ∨ (if 0 < len then len - 1 else len) ≠ 0))) :
    shownDigits base len n = [n % base] := by
  unfold shownDigits
  by_cases hn : n = 0
  · rw [if_pos hn, hn, Nat.zero_mod]
  · rw [if_neg hn, Nat.digits_def' hbase (by omega)]
    by_cases hrest : n / base = 0
    · rw [hrest, Nat.digits_zero]
      rcases hlen with rfl | hpos
      · rfl
      · rw [if_neg (by omega), show len.toNat = (len - 1).toNat + 1 by omega, List.take_succ_cons,
          List.take_nil]
    · -- one digit was asked for
      have hone : len = 1 := by
        rcases hlen with rfl | hpos
        · exact absurd ⟨hrest, Or.inl rfl⟩ hstop
        · by_contra hne
          exact hstop ⟨hrest, Or.inr (by rw [if_pos hpos]; omega)⟩
      subst hone
      rfl

theorem toNat_pred {padding : BitVec 32} (h : padding ≠ 0) :
    (padding - 1).toNat = padding.toNat - 1 ∧ 0 < padding.toNat := by
  have hone : (1 : BitVec 32).toNat = 1 := rfl
  have hpos : 0 < padding.toNat := Nat.pos_of_ne_zero fun h0 => h (BitVec.eq_of_toNat_eq h0)
  have hlt := padding.isLt
  rw [BitVec.toNat_sub, hone]
  omega

theorem num_digits_eq {base : Nat} (hbase : 1 < base) (digits : List Byte) (k : Nat) :
    ∀ ptr i padding len text, 0 < k → k ≤ ptr → i < base ^ k →
      ∃ p text' padding', num_digits base digits (ptr + 1) ptr i padding len text
          = some ⟨p, text', padding', p + 1⟩
        ∧ p < ptr ∧ ptr ≤ p + k ∧ padding'.toNat = padding.toNat - (ptr - p)
        ∧ text'.length + p = text.length + ptr
        ∧ (len = -1 ∨ 0 < len → text' = shown digits (shownDigits base len i) ++ text) := by
  induction k with
  | zero =>
    intro ptr i padding len text h0
    exact absurd h0 (Nat.lt_irrefl 0)
  | succ k ih =>
    intro ptr i padding len text _ hptr hi
    obtain ⟨p, rfl⟩ : ∃ p, ptr = p + 1 := ⟨ptr - 1, by omega⟩
    have hleft : (if padding ≠ 0 then padding - 1 else padding).toNat = padding.toNat - 1 := by
      split
      · next hne => exact (toNat_pred hne).1
      · next hz =>
          rw [not_not.mp hz]
          rfl
    have hshown : ∀ d ds, shown digits (d :: ds) ++ text
        = shown digits ds ++ digits.getD d 0 :: text := by
      intro d ds
      unfold shown
      rw [List.map_cons, List.reverse_cons, List.append_assoc]
      rfl
    unfold num_digits
    dsimp only
    generalize (if padding ≠ 0 then padding - 1 else padding) = left at hleft ⊢
    generalize hlen' : (if 0 < len then len - 1 else len) = len'
    split
    · next hgo =>
        subst hlen'
        have hdiv : i / base < base ^ k := by
          rw [Nat.div_lt_iff_lt_mul (by omega)]
          rwa [Nat.pow_succ] at hi
        -- another digit: then `i` had more than one
        have hk : 0 < k := by
          rcases Nat.eq_zero_or_pos k with rfl | hk
          · exact absurd (Nat.lt_one_iff.mp hdiv) hgo.1
          · exact hk
        obtain ⟨q, text', padding', hq, hlt, hle, hpad, hroom, htext⟩ := ih p (i / base) left
          (if 0 < len then len - 1 else len) (digits.getD (i % base) 0 :: text) hk (by omega) hdiv
        rw [List.length_cons] at hroom
        refine ⟨q, text', padding', hq, by omega, by omega, by omega, by omega, fun hlen => ?_⟩
        rw [htext (by split <;> omega), shownDigits_step hbase hlen hgo.1 hgo.2.1, hshown]
    · next hgo =>
        subst hlen'
        refine ⟨p, _, _, rfl, by omega, by omega, by omega, by rw [List.length_cons]; omega, ?_⟩
        intro hlen
        rw [shownDigits_last hbase hlen fun h => hgo ⟨h.1, h.2, Nat.succ_ne_zero p⟩, hshown]
        rfl

def signTest (i : BitVec 64) (handle_signed : Bool) : Bool := (i.setWidth 32).msb && handle_signed

def magnitude (i : BitVec 64) (handle_signed : Bool) : Nat :=
  (if signTest i handle_signed then (-(i.setWidth 32)).setWidth 64 else i).toNat

theorem magnitude_lt (i : BitVec 64) {base : Nat} (hbase : 8 ≤ base) (handle_signed : Bool) :
    magnitude i handle_signed < base ^ 22 := by
  calc magnitude i handle_signed < 2 ^ 64 := BitVec.isLt _
    _ ≤ 8 ^ 22 := by decide
    _ ≤ base ^ 22 := Nat.pow_le_pow_left hbase 22

theorem num_fmt_shows (i : BitVec 64) {base : Nat} (hbase : 8 ≤ base) (pad_with : Byte)
    (handle_signed upper : Bool) {len : Int} (hlen : len = -1 ∨ 0 < len) :
    num_fmt NUM_BUF_LEN i base 0 pad_with handle_signed upper len
      = some ((if signTest i handle_signed then [ascii '-'] else [])
          ++ shown (if upper then digits_upper else digits_lower)
            (shownDigits base len (magnitude i handle_signed))) := by
  obtain ⟨p, text, padding, hp, hlt, hle, hpad, -, htext⟩ := num_digits_eq (by omega)
    (if upper then digits_upper else digits_lower) 22 47 _ 0 len [] (by decide) (by decide)
    (magnitude_lt i hbase handle_signed)
  obtain rfl : padding = 0 := BitVec.eq_of_toNat_eq (hpad.trans (Nat.zero_sub _))
  unfold num_fmt
  simp only [Option.bind_eq_bind, NUM_BUF_LEN, show 48 - 1 = 47 from rfl]
  show (num_digits base _ 48 47 (magnitude i handle_signed) 0 len []).bind _ = _
  rw [hp, Option.bind_some, htext hlen, List.append_nil]
  -- there is no padding, and room for the sign
  simp only [num_pad, if_true, Option.bind_some, num_sign]
  show (if (signTest i handle_signed && p + 1 != 0) = true then _ else _) = _
  cases hsign : signTest i handle_signed with
  | false => rfl
  | true => simp [show p ≠ 0 by omega]

/-! ## §3. Room in the buffer. -/

theorem num_pad_room (pad_with : Byte) (p : Nat) :
    ∀ padding text, (padding.toNat ≤ p → ∃ text',
        num_pad pad_with (p + 1) p padding text
          = some ⟨p - padding.toNat, text', 0, p - padding.toNat + 1⟩
        ∧ text'.length + (p - padding.toNat) = text.length + p)
      ∧ (p < padding.toNat → num_pad pad_with (p + 1) p padding text = none) := by
  induction p with
  | zero =>
    intro padding text
    unfold num_pad
    by_cases hz : padding = 0
    · subst hz
      exact ⟨fun _ => ⟨text, rfl, rfl⟩, fun h => absurd h (Nat.lt_irrefl 0)⟩
    · have := toNat_pred hz
      exact ⟨fun h => by omega, fun _ => if_neg hz⟩
  | succ p ih =>
    intro padding text
    unfold num_pad
    by_cases hz : padding = 0
    · subst hz
      exact ⟨fun _ => ⟨text, rfl, rfl⟩, fun h => absurd h (Nat.not_lt_zero _)⟩
    · have hpred := toNat_pred hz
      simp only [if_neg hz]
      refine ⟨fun h => ?_, fun h => (ih _ _).2 (by omega)⟩
      obtain ⟨text', heq, hlen⟩ := (ih (padding - 1) (pad_with :: text)).1 (by omega)
      rw [List.length_cons] at hlen
      rw [show p - (padding - 1).toNat = p + 1 - padding.toNat by omega] at heq hlen
      exact ⟨text', heq, by omega⟩

/-- **When `num_fmt` stays in its buffer**: the width and a minus take at most the 47 bytes
before the NUL.  The count of the bytes left starts at 48. -/
theorem num_fmt_inside_iff (i : BitVec 64) (base : Nat) (padding : BitVec 32) (pad_with : Byte)
    (handle_signed upper : Bool) (len : Int) (hbase : base = 8 ∨ base = 10 ∨ base = 16) :
    (∃ text, num_fmt NUM_BUF_LEN i base padding pad_with handle_signed upper len = some text
        ∧ text.length < NUM_BUF_LEN)
      ↔ padding.toNat + (if signTest i handle_signed then 1 else 0) < NUM_BUF_LEN := by
  obtain ⟨p, text, padding', hp, hlt, hle, hpad, hlen, -⟩ := num_digits_eq (by omega)
    (if upper then digits_upper else digits_lower) 22 47 _ padding len [] (by decide) (by decide)
    (magnitude_lt i (show 8 ≤ base by omega) handle_signed)
  rw [List.length_nil] at hlen
  unfold num_fmt
  simp only [Option.bind_eq_bind, NUM_BUF_LEN, show 48 - 1 = 47 from rfl]
  change (∃ t, (num_digits base _ 48 47 (magnitude i handle_signed) padding len []).bind _ = some t
    ∧ _) ↔ _
  rw [hp, Option.bind_some]
  by_cases hwidth : padding'.toNat ≤ p
  · obtain ⟨text', heq, hlen'⟩ := (num_pad_room pad_with p padding' text).1 hwidth
    simp only [heq, Option.bind_some, num_sign]
    change (∃ t, (if (signTest i handle_signed && p - padding'.toNat + 1 != 0) = true
      then _ else _) = some t ∧ _) ↔ _
    cases hsign : signTest i handle_signed with
    | false => simp; omega
    | true =>
      by_cases hzero : p - padding'.toNat = 0
      · simp [hzero]
        omega
      · simp [hzero]
        omega
  · simp only [(num_pad_room pad_with p padding' text).2 (by omega), Option.bind_none]
    refine iff_of_false (fun ⟨_, h, _⟩ => by cases h) ?_
    split <;> omega

theorem num_fmt_inside_47 : ∃ text, num_fmt NUM_BUF_LEN 5 10 47 (ascii ' ') true false (-1) = some text
    ∧ text.length < NUM_BUF_LEN :=
  (num_fmt_inside_iff 5 10 47 (ascii ' ') true false (-1) (by decide)).mpr (by decide)

/-- A width of 48, and a negative number with a width of 47. -/
theorem num_fmt_outside : num_fmt NUM_BUF_LEN 5 10 48 (ascii ' ') true false (-1) = none
    ∧ num_fmt NUM_BUF_LEN (-5) 10 47 (ascii ' ') true false (-1) = none := by
  decide

/-! ## §4. The conversions. -/

/-- The conversions for integers. -/
inductive IntConv where
  | d | u | o | x | X
  deriving Repr, DecidableEq

namespace IntConv

def char : IntConv → Byte
  | d => ascii 'd'
  | u => ascii 'u'
  | o => ascii 'o'
  | x => ascii 'x'
  | X => ascii 'X'

def base : IntConv → Nat
  | d => 10
  | u => 10
  | o => 8
  | x => 16
  | X => 16

def digits : IntConv → List Byte
  | X => digits_upper
  | _ => digits_lower

/-- The number an argument stands for: signed for `%d`, unsigned otherwise. -/
def value {w : Nat} (v : BitVec w) : IntConv → Int
  | d => v.toInt
  | _ => v.toNat

/-- The numeral of a number, as a conversion writes it. -/
def render (z : Int) : IntConv → List Byte
  | d => signedNumeral z
  | c => numeral c.base c.digits z.toNat

/-- The directive without a width: `%d`, `%ld` and so on. -/
def directive (wide : Bool) (c : IntConv) : List Byte :=
  ascii '%' :: (if wide then [ascii 'l', c.char] else [c.char])

end IntConv

theorem parse_render {c : IntConv} {z : Int} (h : c = .d ∨ 0 ≤ z) :
    parse c.base (c.render z) = some z := by
  have hnat : 0 ≤ z → ∀ base digits, Readable digits → 1 < base →
      base ≤ 16 → parse base (numeral base digits z.toNat) = some z := by
    intro hz base digits hdigits hbase hle
    rw [(parse_numeral hdigits hbase hle z.toNat).1, Int.toNat_of_nonneg hz]
  cases c with
  | d => exact parse_signedNumeral z
  | u => exact hnat (h.resolve_left (by decide)) _ _ readable_lower (by decide) (by decide)
  | o => exact hnat (h.resolve_left (by decide)) _ _ readable_lower (by decide) (by decide)
  | x => exact hnat (h.resolve_left (by decide)) _ _ readable_lower (by decide) (by decide)
  | X => exact hnat (h.resolve_left (by decide)) _ _ readable_upper (by decide) (by decide)

/-- The number shown of an `int`: for `%u` and `%o` its widened form. -/
def shown32 (v : BitVec 32) : IntConv → Int
  | .u => (v.signExtend 64).toNat
  | .o => (v.signExtend 64).toNat
  | c => c.value v

/-- The number shown of a `long`: `%d` decides by bit 31. -/
def shown64 (v : BitVec 64) : IntConv → Int
  | .d => if v.getLsbD 31 then (v.setWidth 32).toInt else v.toNat
  | c => c.value v

theorem toNat_widened (v : BitVec 32) :
    (v.signExtend 64).toNat = if 2 ^ 31 ≤ v.toNat then v.toNat + (2 ^ 64 - 2 ^ 32) else v.toNat := by
  have hmsb : v.msb = decide (2 ^ 31 ≤ v.toNat) := BitVec.msb_eq_decide v
  rw [BitVec.toNat_signExtend, BitVec.toNat_setWidth_of_le (by decide), hmsb]
  by_cases h : 2 ^ 31 ≤ v.toNat
  · rw [if_pos h, if_pos (decide_eq_true h)]
  · rw [if_neg h, if_neg (by rw [decide_eq_true_eq]; exact h), Nat.add_zero]

theorem shown_all (base : Nat) (hbase : 1 < base) (digits : List Byte) {len : Int} {n : Nat}
    (h : len = -1 ∨ n < base ^ len.toNat) :
    shown digits (shownDigits base len n) = numeral base digits n := by
  unfold numeral shownDigits
  congr 1
  by_cases hn : n = 0
  · rw [if_pos hn, if_pos hn]
  · rw [if_neg hn, if_neg hn]
    rcases h with rfl | hlt
    · rfl
    · split
      · rfl
      · exact List.take_of_length_le ((Nat.digits_length_le_iff hbase n).mpr hlt)

theorem shown_widened (digits : List Byte) (v : BitVec 32) :
    shown digits (shownDigits 16 8 (v.signExtend 64).toNat) = numeral 16 digits v.toNat := by
  by_cases hbig : 2 ^ 31 ≤ v.toNat
  · have hlen : (Nat.digits 16 v.toNat).length = 8 := by
      have hle := (Nat.digits_length_le_iff (show 1 < 16 by decide) (k := 8) v.toNat).mpr v.isLt
      have hlt := (Nat.lt_digits_length_iff (show 1 < 16 by decide) (k := 7) v.toNat).mpr (by omega)
      omega
    -- the digits of the widening come after those of the `int`
    have happend := Nat.digits_append_digits (b := 16) (n := v.toNat) (m := 2 ^ 32 - 1) (by decide)
    have htake : (Nat.digits 16 (v.signExtend 64).toNat).take 8 = Nat.digits 16 v.toNat := by
      rw [hlen] at happend
      rw [toNat_widened, if_pos hbig,
        show v.toNat + (2 ^ 64 - 2 ^ 32) = v.toNat + 16 ^ 8 * (2 ^ 32 - 1) by omega, ← happend]
      exact List.take_left' hlen
    have hne : (v.signExtend 64).toNat ≠ 0 := by
      rw [toNat_widened, if_pos hbig]
      omega
    unfold numeral shownDigits
    rw [if_neg hne, if_neg (show ¬ ((8 : Int) = -1) by decide), if_neg (show ¬ v.toNat = 0 by omega)]
    show shown digits ((Nat.digits 16 _).take 8) = _
    rw [htake]
  · rw [toNat_widened, if_neg hbig]
    exact shown_all 16 (by decide) digits (Or.inr (by
      show v.toNat < 16 ^ 8
      omega))

theorem shown_signed (i : BitVec 64) :
    (if signTest i true then [ascii '-'] else [])
        ++ shown digits_lower (shownDigits 10 (-1) (magnitude i true))
      = signedNumeral (if i.getLsbD 31 then (i.setWidth 32).toInt else i.toNat) := by
  have hmsb : signTest i true = i.getLsbD 31 := by
    unfold signTest
    rw [Bool.and_true, BitVec.msb_eq_getLsbD_last, BitVec.getLsbD_setWidth]
    rfl
  rw [shown_all 10 (by decide) digits_lower (Or.inl rfl)]
  unfold magnitude signedNumeral
  rw [hmsb]
  cases hbit : i.getLsbD 31 with
  | false => simp [show ¬ ((i.toNat : Int) < 0) by omega]
  | true =>
    have hneg : (i.setWidth 32).msb = true := by
      rw [← hbit, ← hmsb, signTest, Bool.and_true]
    have hlt : (i.setWidth 32).toInt < 0 := by
      rw [BitVec.toInt_eq_msb_cond, if_pos hneg]
      have := (i.setWidth 32).isLt
      omega
    have hnat : ((-(i.setWidth 32)).setWidth 64).toNat = (i.setWidth 32).toInt.natAbs := by
      have hlow := (i.setWidth 32).isLt
      have hhigh : 2 ^ 31 ≤ (i.setWidth 32).toNat := by
        rw [BitVec.msb_eq_decide, decide_eq_true_eq] at hneg
        exact hneg
      rw [BitVec.toNat_setWidth_of_le (by decide), BitVec.toNat_neg, BitVec.toInt_eq_msb_cond,
        if_pos hneg]
      omega
    simp only [if_true, if_pos hlt, hnat, List.singleton_append]

theorem num_fmt_unsigned (v : BitVec 64) (base : Nat) (upper : Bool) (len : Int) (hbase : 8 ≤ base)
    (hlen : len = -1 ∨ 0 < len) :
    num_fmt NUM_BUF_LEN v base 0 (ascii ' ') false upper len
      = some (shown (if upper then digits_upper else digits_lower)
          (shownDigits base len v.toNat)) := by
  rw [num_fmt_shows _ hbase _ _ _ hlen, magnitude, signTest, Bool.and_false]
  rfl

theorem convert_int (c : IntConv) (v : BitVec 32) :
    convert ⟨0, ascii ' ', false⟩ c.char [.int v] = some (some (c.render (shown32 v c)), []) := by
  cases c with
  | d =>
    show some (num_fmt NUM_BUF_LEN (v.signExtend 64) 10 0 (ascii ' ') true false (-1), []) = _
    rw [num_fmt_shows _ (by decide) _ _ _ (Or.inl rfl)]
    simp only [Bool.false_eq_true, if_false, shown_signed]
    -- bit 31 is the sign of the `int`
    have hbit : (v.signExtend 64).getLsbD 31 = v.msb := by
      rw [BitVec.getLsbD_signExtend, BitVec.msb_eq_getLsbD_last]
      rfl
    have hlow : (v.signExtend 64).setWidth 32 = v := by
      apply BitVec.eq_of_getLsbD_eq
      intro i hi
      rw [BitVec.getLsbD_setWidth, BitVec.getLsbD_signExtend]
      simp [hi, show i < 64 by omega]
    rw [hbit, hlow]
    congr 4
    show _ = v.toInt
    rw [BitVec.toInt_eq_msb_cond]
    cases hmsb : v.msb with
    | true => simp only [if_true]
    | false =>
      rw [BitVec.msb_eq_decide, decide_eq_false_iff_not] at hmsb
      simp only [Bool.false_eq_true, if_false]
      rw [toNat_widened, if_neg hmsb]
  | u =>
    show some (num_fmt NUM_BUF_LEN (v.signExtend 64) 10 0 (ascii ' ') false false (-1), []) = _
    rw [num_fmt_unsigned _ 10 _ _ (by decide) (Or.inl rfl), shown_all 10 (by decide) _ (Or.inl rfl)]
    rfl
  | o =>
    show some (num_fmt NUM_BUF_LEN (v.signExtend 64) 8 0 (ascii ' ') false false (-1), []) = _
    rw [num_fmt_unsigned _ 8 _ _ (by decide) (Or.inl rfl), shown_all 8 (by decide) _ (Or.inl rfl)]
    rfl
  | x =>
    show some (num_fmt NUM_BUF_LEN (v.signExtend 64) 16 0 (ascii ' ') false false 8, []) = _
    rw [num_fmt_unsigned _ 16 _ _ (by decide) (Or.inr (by decide)), shown_widened]
    rfl
  | X =>
    show some (num_fmt NUM_BUF_LEN (v.signExtend 64) 16 0 (ascii ' ') false true 8, []) = _
    rw [num_fmt_unsigned _ 16 _ _ (by decide) (Or.inr (by decide)), shown_widened]
    rfl

theorem convert_long (c : IntConv) (v : BitVec 64) :
    convert ⟨0, ascii ' ', true⟩ c.char [.long v] = some (some (c.render (shown64 v c)), []) := by
  have hhex : v.toNat < 16 ^ 16 := v.isLt
  cases c with
  | d =>
    show some (num_fmt NUM_BUF_LEN v 10 0 (ascii ' ') true false (-1), []) = _
    rw [num_fmt_shows _ (by decide) _ _ _ (Or.inl rfl)]
    simp only [Bool.false_eq_true, if_false, shown_signed]
    rfl
  | u =>
    show some (num_fmt NUM_BUF_LEN v 10 0 (ascii ' ') false false (-1), []) = _
    rw [num_fmt_unsigned _ 10 _ _ (by decide) (Or.inl rfl), shown_all 10 (by decide) _ (Or.inl rfl)]
    rfl
  | o =>
    show some (num_fmt NUM_BUF_LEN v 8 0 (ascii ' ') false false (-1), []) = _
    rw [num_fmt_unsigned _ 8 _ _ (by decide) (Or.inl rfl), shown_all 8 (by decide) _ (Or.inl rfl)]
    rfl
  | x =>
    show some (num_fmt NUM_BUF_LEN v 16 0 (ascii ' ') false false 16, []) = _
    rw [num_fmt_unsigned _ 16 _ _ (by decide) (Or.inr (by decide)), shown_all 16 (by decide) _ (Or.inr hhex)]
    rfl
  | X =>
    show some (num_fmt NUM_BUF_LEN v 16 0 (ascii ' ') false true 16, []) = _
    rw [num_fmt_unsigned _ 16 _ _ (by decide) (Or.inr (by decide)), shown_all 16 (by decide) _ (Or.inr hhex)]
    rfl

/-! ## §5. The whole call. -/

theorem vsnprintf_directive {fmt : List Byte} {flags : Flags} {conv : Byte} {args args' : List Arg}
    {text : List Byte} (hflags : read_flags fmt = (flags, [conv]))
    (hconv : convert flags conv args = some (some text, args')) {len : Nat}
    (hlen : text.length < len) :
    vsnprintf len (ascii '%' :: fmt) args = some (text ++ [0]) := by
  have hexp : Expands (ascii '%' :: fmt) args (itemsOf (some text) ++ []) :=
    .directive hflags hconv (.nil args')
  have hleft : len - text.length ≠ 0 := by omega
  have hformatted : formatted len (ascii '%' :: fmt) args = some (text, len - text.length) := by
    have hfits : ¬ len < text.length := by omega
    rw [formatted_eq hexp, itemsOf, emit_puts, fmt_put_eq, List.take_of_length_le (by omega)]
    obtain ⟨l, hl⟩ := Nat.exists_eq_succ_of_ne_zero hleft
    simp only [hfits, decide_false, hl, Bool.false_eq_true, if_false, emit, Option.map_some,
      List.append_nil]
  unfold vsnprintf
  rw [hformatted, Option.map_some, if_neg hleft, List.append_nil]

/-- Is an `int` shown as it is? -/
def Shows32 (v : BitVec 32) (c : IntConv) : Prop := c = .u ∨ c = .o → v.toNat < 2 ^ 31

/-- Is a `long` shown as it is? -/
def Shows64 (v : BitVec 64) (c : IntConv) : Prop :=
  c = .d → (-2 ^ 31 ≤ v.toInt ∧ v.toInt < 0) ∨ (0 ≤ v.toInt ∧ v.getLsbD 31 = false)

theorem shown32_eq_iff (v : BitVec 32) (c : IntConv) :
    shown32 v c = c.value v ↔ Shows32 v c := by
  have hwide : ((v.signExtend 64).toNat : Int) = v.toNat ↔ v.toNat < 2 ^ 31 := by
    rw [toNat_widened]
    split <;> omega
  cases c with
  | d => simp [shown32, Shows32]
  | u => simpa [shown32, Shows32, IntConv.value] using hwide
  | o => simpa [shown32, Shows32, IntConv.value] using hwide
  | x => simp [shown32, Shows32]
  | X => simp [shown32, Shows32]

theorem shown64_eq_iff (v : BitVec 64) (c : IntConv) :
    shown64 v c = c.value v ↔ Shows64 v c := by
  cases c with
  | d =>
    -- in numbers: bit 31 is the upper half of the low word
    have hv := v.isLt
    have hint : v.toInt = if v.toNat < 2 ^ 63 then (v.toNat : Int) else v.toNat - 2 ^ 64 := by
      rw [BitVec.toInt_eq_toNat_cond]
      split <;> split <;> omega
    have hlow : (v.setWidth 32).toInt = if v.toNat % 2 ^ 32 < 2 ^ 31
        then ((v.toNat % 2 ^ 32 : Nat) : Int) else (v.toNat % 2 ^ 32 : Nat) - 2 ^ 32 := by
      rw [BitVec.toInt_eq_toNat_cond, BitVec.toNat_setWidth]
      split <;> split <;> omega
    have hbit : v.getLsbD 31 = decide (2 ^ 31 ≤ v.toNat % 2 ^ 32) := by
      have hmsb : (v.setWidth 32).msb = decide (2 ^ 31 ≤ (v.setWidth 32).toNat) :=
        BitVec.msb_eq_decide _
      rw [BitVec.msb_eq_getLsbD_last, BitVec.getLsbD_setWidth, BitVec.toNat_setWidth] at hmsb
      simpa using hmsb
    simp only [shown64, Shows64, IntConv.value, forall_const, hlow, hint, hbit,
      decide_eq_true_eq, decide_eq_false_iff_not]
    split <;> split <;> omega
  | u => simp [shown64, Shows64]
  | o => simp [shown64, Shows64]
  | x => simp [shown64, Shows64]
  | X => simp [shown64, Shows64]

theorem value_readable {w : Nat} (v : BitVec w) (c : IntConv) : c = .d ∨ 0 ≤ c.value v := by
  cases c
  case d => exact Or.inl rfl
  all_goals exact Or.inr (Int.natCast_nonneg _)

theorem shown32_readable (v : BitVec 32) (c : IntConv) : c = .d ∨ 0 ≤ shown32 v c := by
  cases c
  case d => exact Or.inl rfl
  all_goals exact Or.inr (Int.natCast_nonneg _)

theorem shown64_readable (v : BitVec 64) (c : IntConv) : c = .d ∨ 0 ≤ shown64 v c := by
  cases c
  case d => exact Or.inl rfl
  all_goals exact Or.inr (Int.natCast_nonneg _)

theorem render_shows {c : IntConv} {z z' : Int} {P : Prop} (hz : c = .d ∨ 0 ≤ z)
    (hz' : c = .d ∨ 0 ≤ z') (h : z = z' ↔ P) :
    (c.render z = c.render z' ↔ P) ∧ (parse c.base (c.render z) = some z' ↔ P) := by
  have hparse := parse_render hz
  constructor
  · rw [← h]
    constructor
    · intro heq
      have hread := parse_render hz'
      rw [← heq, hparse] at hread
      exact Option.some.inj hread
    · intro heq
      rw [heq]
  · rw [hparse, Option.some.injEq]
    exact h

/-- **Integer formatting.**  For every conversion without a width and every
argument, `vsnprintf` writes a text that is the numeral of the argument, and is
read back as the argument, exactly if

  • it is an `int`, and not one with bit 31 set for `%u` or `%o`,
  • it is a `long`, and for `%ld` it is negative and fits an `int`, or is not
    negative and has bit 31 clear. -/
theorem integer_formatting (c : IntConv) :
    (∀ v : BitVec 32, ∃ text,
      (∀ len, text.length < len → vsnprintf len (c.directive false) [.int v] = some (text ++ [0]))
      ∧ (text = c.render (c.value v) ↔ Shows32 v c)
      ∧ (parse c.base text = some (c.value v) ↔ Shows32 v c))
    ∧ ∀ v : BitVec 64, ∃ text,
      (∀ len, text.length < len → vsnprintf len (c.directive true) [.long v] = some (text ++ [0]))
      ∧ (text = c.render (c.value v) ↔ Shows64 v c)
      ∧ (parse c.base text = some (c.value v) ↔ Shows64 v c) := by
  have hshort : read_flags [c.char] = (⟨0, ascii ' ', false⟩, [c.char]) := by
    cases c <;> rfl
  have hlong : read_flags [ascii 'l', c.char] = (⟨0, ascii ' ', true⟩, [c.char]) := by
    cases c <;> rfl
  constructor
  · intro v
    refine ⟨c.render (shown32 v c), fun len hlen => ?_, ?_⟩
    · exact vsnprintf_directive hshort (convert_int c v) hlen
    · exact render_shows (shown32_readable v c) (value_readable v c) (shown32_eq_iff v c)
  · intro v
    refine ⟨c.render (shown64 v c), fun len hlen => ?_, ?_⟩
    · exact vsnprintf_directive hlong (convert_long c v) hlen
    · exact render_shows (shown64_readable v c) (value_readable v c) (shown64_eq_iff v c)

/-- `%u` and `%o` of 2^32 - 1 show the widened number, and `%ld` of 2^31 a negative one:
none is the numeral due. -/
theorem integer_formatting_widened :
    (vsnprintf 64 (IntConv.directive false .u) [.int 0xFFFFFFFF]
        = some (numeral 10 digits_lower 18446744073709551615 ++ [0])
      ∧ vsnprintf 64 (IntConv.directive false .u) [.int 0xFFFFFFFF]
        ≠ some (IntConv.u.render (IntConv.u.value (0xFFFFFFFF : BitVec 32)) ++ [0]))
    ∧ (vsnprintf 64 (IntConv.directive false .o) [.int 0xFFFFFFFF]
        = some (numeral 8 digits_lower 18446744073709551615 ++ [0])
      ∧ vsnprintf 64 (IntConv.directive false .o) [.int 0xFFFFFFFF]
        ≠ some (IntConv.o.render (IntConv.o.value (0xFFFFFFFF : BitVec 32)) ++ [0]))
    ∧ vsnprintf 64 (IntConv.directive true .d) [.long 0x80000000]
        = some (signedNumeral (-2147483648) ++ [0])
      ∧ vsnprintf 64 (IntConv.directive true .d) [.long 0x80000000]
        ≠ some (IntConv.d.render (IntConv.d.value (0x80000000 : BitVec 64)) ++ [0]) := by
  refine ⟨⟨?_, ?_⟩, ⟨?_, ?_⟩, ?_, ?_⟩ <;> decide +kernel

end Quack.Vsnprintf
