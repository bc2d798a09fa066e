/-
  Quack.Util.Vsnprintf
  **`vsnprintf`: HOW MUCH IT WRITES.**

  `vsnprintf(buf, len, fmt, arg)` copies literal characters with `*buf++` and
  writes the text of a directive through `FMT_PUT`, which counts `len` down and
  leaves the function at 0.  Literal characters are not counted.
-/
import Quack.Util.Strings

namespace Quack.Vsnprintf

open Util

/-! ## §1. Numbers. -/

def digits_upper : List Byte :=
  bytes ['0', '1', '2', '3', '4', '5', '6', '7', '8', '9', 'A', 'B', 'C', 'D', 'E', 'F']

def digits_lower : List Byte :=
  bytes ['0', '1', '2', '3', '4', '5', '6', '7', '8', '9', 'a', 'b', 'c', 'd', 'e', 'f']

/-- `num_buf` while a number is built from its end: the offset `ptr`, what
stands from there to the NUL, and the countdowns. -/
structure NumBuf where
  ptr : Nat
  text : List Byte
  padding : BitVec 32
  buf_len : Nat
  deriving Repr, DecidableEq

def num_digits (base : Nat) (digits : List Byte) :
    (buf_len ptr : Nat) → (i : Nat) → BitVec 32 → (len : Int) → List Byte → Option NumBuf
  | buf_len + 1, ptr + 1, i, padding, len, text =>
    let text := digits.getD (i % base) 0 :: text
    let padding := if padding ≠ 0 then padding - 1 else padding
    let len := if 0 < len then len - 1 else len
    if i / base ≠ 0 ∧ (len = -1 ∨ len ≠ 0) ∧ buf_len ≠ 0 then
      num_digits base digits buf_len ptr (i / base) padding len text
    else some ⟨ptr, text, padding, buf_len⟩
  | _, _, _, _, _, _ => none

/-- The padding loop. -/
def num_pad (pad_with : Byte) : (buf_len ptr : Nat) → BitVec 32 → List Byte → Option NumBuf
  | 0, ptr, padding, text => some ⟨ptr, text, padding, 0⟩
  | buf_len + 1, ptr, padding, text =>
    if padding = 0 then some ⟨ptr, text, padding, buf_len + 1⟩
    else
      match ptr with
      | 0 => none
      | ptr + 1 => num_pad pad_with buf_len ptr (padding - 1) (pad_with :: text)

/-- The sign: `if (neg && buf_len) *--ptr = '-'`. -/
def num_sign (neg : Bool) (b : NumBuf) : Option (List Byte) :=
  if neg && b.buf_len != 0 then
    if b.ptr = 0 then none else some (ascii '-' :: b.text)
  else some b.text

def num_fmt (buf_len : Nat) (i : BitVec 64) (base : Nat) (padding : BitVec 32) (pad_with : Byte)
    (handle_signed upper : Bool) (len : Int) : Option (List Byte) := do
  -- `(signed)i < 0`, also for a `long`
  let neg := (i.setWidth 32).msb && handle_signed
  let i := if neg then (-(i.setWidth 32)).setWidth 64 else i
  let digits := if upper then digits_upper else digits_lower
  let b ← num_digits base digits buf_len (buf_len - 1) i.toNat padding len []
  let b ← num_pad pad_with b.buf_len b.ptr b.padding b.text
  num_sign neg b

def NUM_BUF_LEN : Nat := 48

/-! ## §2. Directives. -/

/-- An argument, by the type it was passed with; a string is what stands
before its NUL. -/
inductive Arg where
  | int (v : BitVec 32)
  | long (v : BitVec 64)
  | ptr (v : BitVec 64)
  | str (s : List Byte)
  deriving Repr, DecidableEq

/-- What stands between the `%` and the conversion character. -/
structure Flags where
  padding : BitVec 32
  pad_with : Byte
  wide : Bool
  deriving Repr, DecidableEq

/-- The loop over the digits of the width. -/
def read_padding : BitVec 32 → List Byte → BitVec 32 × List Byte
  | padding, [] => (padding, [])
  | padding, c :: fmt =>
    if isdigit c then read_padding (padding * 10 + (c.setWidth 32 - 0x30)) fmt
    else (padding, c :: fmt)

/-- The loop over `l`. -/
def read_wide : Bool → List Byte → Bool × List Byte
  | wide, [] => (wide, [])
  | wide, c :: fmt => if c = ascii 'l' then read_wide true fmt else (wide, c :: fmt)

def read_flags (fmt : List Byte) : Flags × List Byte :=
  let zero := fmt.head? = some (ascii '0')
  let pad_with := if zero then ascii '0' else ascii ' '
  let fmt := if zero then fmt.tail else fmt
  let p := read_padding 0 fmt
  let w := read_wide false p.2
  (⟨p.1, pad_with, w.1⟩, w.2)

/-- `va_arg(arg, long int)` or `va_arg(arg, int)`, widened to 64 bits. -/
def va_number (wide : Bool) : List Arg → Option (BitVec 64 × List Arg)
  | .int v :: args => if wide then none else some (v.signExtend 64, args)
  | .long v :: args => if wide then some (v, args) else none
  | _ => none

def convert (flags : Flags) (conv : Byte) (args : List Arg) :
    Option (Option (List Byte) × List Arg) :=
  let upper := conv == ascii 'X' || conv == ascii 'P'
  let number (i : BitVec 64) (base : Nat) (handle_signed : Bool) (len : Int) :=
    num_fmt NUM_BUF_LEN i base flags.padding flags.pad_with handle_signed upper len
  if conv = ascii 'c' then
    match args with
    | .int v :: args => some (some [v.setWidth 8], args)
    | _ => none
  else if conv = ascii 'd' then
    (va_number flags.wide args).map fun r => (number r.1 10 true (-1), r.2)
  else if conv = ascii 'u' then
    (va_number flags.wide args).map fun r => (number r.1 10 false (-1), r.2)
  else if conv = ascii 'o' then
    (va_number flags.wide args).map fun r => (number r.1 8 false (-1), r.2)
  else if conv = ascii 'X' ∨ conv = ascii 'x' then
    (va_number flags.wide args).map fun r =>
      (number r.1 16 false (if flags.wide then 16 else 8), r.2)
  else if conv = ascii 'P' ∨ conv = ascii 'p' then
    match args with
    | .ptr v :: args => some (number v 16 false 16, args)
    | _ => none
  else if conv = ascii 's' then
    match args with
    | .str s :: args => some (some s, args)
    | _ => none
  else if conv = ascii '%' then some (some [ascii '%'], args)
  else some (some [], args)

/-! ## §3. The main loop. -/

def fmt_put : (len : Nat) → List Byte → List Byte × Nat × Bool
  | len, [] => ([], len, false)
  -- `if (!len) goto end;` before every character
  | 0, _ :: _ => ([], 0, true)
  | len + 1, c :: cs =>
    let r := fmt_put len cs
    (c :: r.1, r.2)

def format : (fuel len : Nat) → List Byte → List Arg → Option (List Byte × Nat)
  | _, len, [], _ => some ([], len)
  | 0, _, _ :: _, _ => none
  | fuel + 1, len, c :: fmt, args =>
    if len = 0 then some ([], 0)
    -- a character that is copied does not count against `len`
    else if c ≠ ascii '%' then (format fuel len fmt args).map fun r => (c :: r.1, r.2)
    else
      match read_flags fmt with
      | (_, []) => none
      | (flags, conv :: fmt) =>
        match convert flags conv args with
        | some (some text, args) =>
          match fmt_put len text with
          | (written, len, true) => some (written, len)
          | (written, len, false) =>
            (format fuel len fmt args).map fun r => (written ++ r.1, r.2)
        | _ => none

def formatted (len : Nat) (fmt : List Byte) (args : List Arg) : Option (List Byte × Nat) :=
  format fmt.length len fmt args

/-- `vsnprintf`: the bytes written to `buf`, the dots and the NUL included. -/
def vsnprintf (len : Nat) (fmt : List Byte) (args : List Arg) : Option (List Byte) :=
  (formatted len fmt args).map fun r =>
    r.1 ++ (if r.2 = 0 then bytes ['.', '.', '.'] else []) ++ [0]

/-! ## §4. What a format string stands for. -/

/-- One item of the expansion: a literal character, a character put by a
directive, or a number that does not fit `num_buf`. -/
inductive Item where
  | literal (c : Byte)
  | put (c : Byte)
  | wild
  deriving Repr, DecidableEq

/-- The items of a directive. -/
def itemsOf : Option (List Byte) → List Item
  | some text => text.map Item.put
  | none => [Item.wild]

/-- **A complete format string with matching arguments**, and its items. -/
inductive Expands : List Byte → List Arg → List Item → Prop where
  | nil (args : List Arg) : Expands [] args []
  | literal {c : Byte} {fmt : List Byte} {args : List Arg} {items : List Item} :
      c ≠ ascii '%' → Expands fmt args items → Expands (c :: fmt) args (.literal c :: items)
  | directive {fmt rest : List Byte} {flags : Flags} {conv : Byte} {args args' : List Arg}
      {text : Option (List Byte)} {items : List Item} :
      read_flags fmt = (flags, conv :: rest) → convert flags conv args = some (text, args') →
      Expands rest args' items → Expands (ascii '%' :: fmt) args (itemsOf text ++ items)

/-- The countdown over the items. -/
def emit : (len : Nat) → List Item → Option (List Byte × Nat)
  | 0, _ => some ([], 0)
  | len + 1, [] => some ([], len + 1)
  | len + 1, .literal c :: items => (emit (len + 1) items).map fun r => (c :: r.1, r.2)
  | len + 1, .put c :: items => (emit len items).map fun r => (c :: r.1, r.2)
  | _ + 1, .wild :: _ => none

/-! ## §5. `vsnprintf` counts down over the items. -/

theorem read_padding_length (fmt : List Byte) :
    ∀ padding, (read_padding padding fmt).2.length ≤ fmt.length := by
  induction fmt with
  | nil => intro padding; exact Nat.le_refl _
  | cons c fmt ih =>
    intro padding
    unfold read_padding
    split
    · exact Nat.le_succ_of_le (ih _)
    · exact Nat.le_refl _

theorem read_wide_length (fmt : List Byte) :
    ∀ wide, (read_wide wide fmt).2.length ≤ fmt.length := by
  induction fmt with
  | nil => intro wide; exact Nat.le_refl _
  | cons c fmt ih =>
    intro wide
    unfold read_wide
    split
    · exact Nat.le_succ_of_le (ih _)
    · exact Nat.le_refl _

theorem read_flags_length (fmt : List Byte) : (read_flags fmt).2.length ≤ fmt.length := by
  unfold read_flags
  refine Nat.le_trans (read_wide_length _ _) (Nat.le_trans (read_padding_length _ _) ?_)
  split
  · rw [List.length_tail]
    exact Nat.sub_le _ _
  · exact Nat.le_refl _

theorem fmt_put_eq (text : List Byte) :
    ∀ len, fmt_put len text = (text.take len, len - text.length, decide (len < text.length)) := by
  induction text with
  | nil => intro len; simp [fmt_put]
  | cons c text ih =>
    intro len
    cases len with
    | zero => simp [fmt_put]
    | succ len => simp [fmt_put, ih len]

theorem emit_puts (text : List Byte) (items : List Item) :
    ∀ len, emit len (text.map Item.put ++ items)
      = if (fmt_put len text).2.2 then some ((fmt_put len text).1, (fmt_put len text).2.1)
        else (emit (fmt_put len text).2.1 items).map fun r => ((fmt_put len text).1 ++ r.1, r.2) := by
  induction text with
  | nil =>
    intro len
    cases h : emit len items <;> simp [fmt_put, h]
  | cons c text ih =>
    intro len
    cases len with
    | zero => rfl
    | succ len =>
      simp only [List.map_cons, List.cons_append, emit, fmt_put, ih len]
      by_cases hend : (fmt_put len text).2.2 = true
      · simp only [hend, if_true, Option.map_some]
      · simp only [hend, Bool.false_eq_true, if_false, Option.map_map]
        rfl

theorem emit_zero (items : List Item) : emit 0 items = some ([], 0) := by
  cases items <;> rfl

variable {args : List Arg} {fmt out text : List Byte} {items : List Item} {len left : Nat}
  {c : Byte}

theorem format_eq_emit (h : Expands fmt args items) :
    ∀ fuel len, fmt.length ≤ fuel → format fuel len fmt args = emit len items := by
  induction h with
  | nil args =>
    intro fuel len _
    cases len <;> cases fuel <;> rfl
  | @literal c fmt args items hc _ ih =>
    intro fuel len hfuel
    cases fuel with
    | zero => exact absurd hfuel (Nat.not_succ_le_zero _)
    | succ fuel =>
      cases len with
      | zero => rfl
      | succ len =>
        simp only [format, Nat.succ_ne_zero, if_false, if_pos hc, emit,
          ih fuel (len + 1) (Nat.le_of_succ_le_succ hfuel)]
  | @directive fmt rest flags conv args args' text items hflags hconv _ ih =>
    intro fuel len hfuel
    cases fuel with
    | zero => exact absurd hfuel (Nat.not_succ_le_zero _)
    | succ fuel =>
      cases len with
      | zero => rw [emit_zero]; rfl
      | succ len =>
        have hrest : rest.length ≤ fuel := by
          have hlen := read_flags_length fmt
          rw [hflags] at hlen
          simp only [List.length_cons] at hlen hfuel
          omega
        simp only [format, Nat.succ_ne_zero, if_false, ne_eq, not_true_eq_false, hflags,
          hconv]
        cases text with
        | none => rfl
        | some text =>
          simp only [itemsOf, emit_puts]
          cases hput : fmt_put (len + 1) text with
          | mk written r =>
            obtain ⟨len', ended⟩ := r
            cases ended with
            | true => rfl
            | false =>
              simp only [ih fuel len' hrest, Bool.false_eq_true, if_false]

theorem formatted_eq
    (h : Expands fmt args items) (len : Nat) : formatted len fmt args = emit len items :=
  format_eq_emit h fmt.length len (Nat.le_refl _)

theorem vsnprintf_length : vsnprintf len fmt args = some out →
      ∃ text left, formatted len fmt args = some (text, left)
        ∧ out.length = text.length + if left = 0 then 4 else 1 := by
  intro h
  obtain ⟨⟨text, left⟩, ht, rfl⟩ := Option.map_eq_some_iff.mp h
  refine ⟨text, left, ht, ?_⟩
  simp only [List.length_append, List.length_singleton]
  split <;> rfl

theorem vsnprintf_returns (h : formatted len fmt args = some (text, left)) :
    ∃ out, vsnprintf len fmt args = some out
      ∧ out.length = text.length + if left = 0 then 4 else 1 := by
  refine ⟨_, by rw [vsnprintf, h]; rfl, ?_⟩
  simp only [List.length_append, List.length_singleton]
  split <;> rfl

/-! ## §6. How much is written. -/

/-- The literal characters among the items. -/
def literals (items : List Item) : Nat := items.countP fun i => i matches .literal _

/-- The directive characters among the items. -/
def puts (items : List Item) : Nat := items.countP fun i => i matches .put _

def Contained (len : Nat) (items : List Item) : Prop :=
  (items.length ≤ len ∧ Item.wild ∉ items) ∨ ∀ i ∈ items.take len, ∃ c, i = .put c

theorem emit_literal_eq_some : emit (len + 1) (.literal c :: items) = some (text, left)
      ↔ ∃ t, emit (len + 1) items = some (t, left) ∧ text = c :: t := by
  simp only [emit, Option.map_eq_some_iff, Prod.exists, Prod.mk.injEq]
  constructor
  · rintro ⟨t, l, ht, rfl, rfl⟩
    exact ⟨t, ht, rfl⟩
  · rintro ⟨t, ht, rfl⟩
    exact ⟨t, left, ht, rfl, rfl⟩

theorem emit_put_eq_some : emit (len + 1) (.put c :: items) = some (text, left)
      ↔ ∃ t, emit len items = some (t, left) ∧ text = c :: t := by
  simp only [emit, Option.map_eq_some_iff, Prod.exists, Prod.mk.injEq]
  constructor
  · rintro ⟨t, l, ht, rfl, rfl⟩
    exact ⟨t, ht, rfl⟩
  · rintro ⟨t, ht, rfl⟩
    exact ⟨t, left, ht, rfl, rfl⟩

@[simp] theorem puts_literal (c : Byte) (items : List Item) :
    puts (.literal c :: items) = puts items := by simp [puts]

@[simp] theorem puts_put (c : Byte) (items : List Item) :
    puts (.put c :: items) = puts items + 1 := by simp [puts]

@[simp] theorem literals_literal (c : Byte) (items : List Item) :
    literals (.literal c :: items) = literals items + 1 := by simp [literals]

@[simp] theorem literals_put (c : Byte) (items : List Item) :
    literals (.put c :: items) = literals items := by simp [literals]

theorem emit_cases (items : List Item) :
    ∀ (len : Nat) (text : List Byte) (left : Nat), emit len items = some (text, left) →
      ((0 < left ∧ text.length = items.length ∧ Item.wild ∉ items ∧ puts items < len)
        ∨ (left = 0 ∧ len ≤ text.length))
      ∧ text.length + left ≤ len + literals items := by
  induction items with
  | nil =>
    intro len text left h
    cases len with
    | zero =>
      injection h with h
      injection h with ht hl
      subst ht hl
      exact ⟨Or.inr ⟨rfl, Nat.le_refl _⟩, Nat.le_refl _⟩
    | succ len =>
      injection h with h
      injection h with ht hl
      subst ht hl
      exact ⟨Or.inl ⟨Nat.succ_pos _, rfl, List.not_mem_nil, Nat.succ_pos _⟩,
        by simp⟩
  | cons i items ih =>
    intro len text left h
    cases len with
    | zero =>
      injection h with h
      injection h with ht hl
      subst ht hl
      exact ⟨Or.inr ⟨rfl, Nat.le_refl _⟩, Nat.zero_le _⟩
    | succ len =>
      cases i with
      | wild => cases h
      | literal c =>
        -- the countdown does not move
        obtain ⟨t, ht, rfl⟩ := emit_literal_eq_some.mp h
        obtain ⟨hend, hle⟩ := ih (len + 1) t left ht
        simp only [List.length_cons, puts_literal, literals_literal, List.mem_cons,
          reduceCtorEq, false_or]
        refine ⟨?_, by omega⟩
        rcases hend with ⟨hpos, hlen, hwild, hputs⟩ | ⟨hz, hlen⟩
        · exact Or.inl ⟨hpos, by rw [hlen], hwild, hputs⟩
        · exact Or.inr ⟨hz, by omega⟩
      | put c =>
        obtain ⟨t, ht, rfl⟩ := emit_put_eq_some.mp h
        obtain ⟨hend, hle⟩ := ih len t left ht
        simp only [List.length_cons, puts_put, literals_put, List.mem_cons,
          reduceCtorEq, false_or]
        refine ⟨?_, by omega⟩
        rcases hend with ⟨hpos, hlen, hwild, hputs⟩ | ⟨hz, hlen⟩
        · exact Or.inl ⟨hpos, by rw [hlen], hwild, by omega⟩
        · exact Or.inr ⟨hz, by omega⟩

theorem emit_all (items : List Item) :
    ∀ len, puts items < len → Item.wild ∉ items →
      ∃ text, emit len items = some (text, len - puts items) ∧ text.length = items.length := by
  induction items with
  | nil =>
    intro len hlen _
    cases len with
    | zero => exact absurd hlen (Nat.not_lt_zero _)
    | succ len => exact ⟨[], rfl, rfl⟩
  | cons i items ih =>
    intro len hlen hwild
    simp only [List.mem_cons, not_or] at hwild
    cases len with
    | zero => exact absurd hlen (Nat.not_lt_zero _)
    | succ len =>
      cases i with
      | wild => exact absurd rfl hwild.1
      | literal c =>
        rw [puts_literal] at hlen ⊢
        obtain ⟨t, ht, hl⟩ := ih (len + 1) hlen hwild.2
        exact ⟨c :: t, emit_literal_eq_some.mpr ⟨t, ht, rfl⟩, by simp [hl]⟩
      | put c =>
        rw [puts_put] at hlen ⊢
        obtain ⟨t, ht, hl⟩ := ih len (by omega) hwild.2
        rw [Nat.add_sub_add_right]
        exact ⟨c :: t, emit_put_eq_some.mpr ⟨t, ht, rfl⟩, by simp [hl]⟩

theorem contained_put_iff : Contained (len + 1) (.put c :: items) ↔ Contained len items := by
  simp [Contained]

theorem contained_literal_iff :
    Contained (len + 1) (.literal c :: items) ↔ items.length ≤ len ∧ Item.wild ∉ items := by
  simp [Contained]

theorem emit_le_iff (items : List Item) :
    ∀ len, (∃ text left, emit len items = some (text, left) ∧ text.length ≤ len)
      ↔ Contained len items := by
  induction items with
  | nil =>
    intro len
    refine ⟨fun _ => Or.inl ⟨Nat.zero_le _, List.not_mem_nil⟩, fun _ => ?_⟩
    cases len with
    | zero => exact ⟨[], 0, rfl, Nat.le_refl _⟩
    | succ len => exact ⟨[], len + 1, rfl, Nat.zero_le _⟩
  | cons i items ih =>
    intro len
    cases len with
    | zero =>
      refine ⟨fun _ => Or.inr fun i hi => ?_, fun _ => ⟨[], 0, rfl, Nat.le_refl _⟩⟩
      rw [List.take_zero] at hi
      cases hi
    | succ len =>
      cases i with
      | wild =>
        constructor
        · rintro ⟨text, left, h, -⟩
          cases h
        · rintro (⟨-, hwild⟩ | hput)
          · exact absurd List.mem_cons_self hwild
          · obtain ⟨c, hc⟩ := hput .wild (by simp)
            cases hc
      | put c =>
        -- one character of the text for one of `len`
        rw [contained_put_iff, ← ih len]
        constructor
        · rintro ⟨text, left, h, hlen⟩
          obtain ⟨t, ht, rfl⟩ := emit_put_eq_some.mp h
          exact ⟨t, left, ht, Nat.le_of_succ_le_succ hlen⟩
        · rintro ⟨t, left, ht, hlen⟩
          exact ⟨c :: t, left, emit_put_eq_some.mpr ⟨t, ht, rfl⟩, Nat.succ_le_succ hlen⟩
      | literal c =>
        -- `len` is not counted down: only a full expansion leaves room
        rw [contained_literal_iff]
        constructor
        · rintro ⟨text, left, h, hlen⟩
          obtain ⟨t, ht, rfl⟩ := emit_literal_eq_some.mp h
          have hlen' : t.length ≤ len := Nat.le_of_succ_le_succ hlen
          rcases (emit_cases items (len + 1) t left ht).1 with
            ⟨-, hall, hwild, -⟩ | ⟨-, hge⟩
          · exact ⟨hall ▸ hlen', hwild⟩
          · omega
        · rintro ⟨hlen, hwild⟩
          have hputs : puts items ≤ items.length := List.countP_le_length
          obtain ⟨t, ht, hl⟩ := emit_all items (len + 1) (by omega) hwild
          refine ⟨c :: t, _, emit_literal_eq_some.mpr ⟨t, ht, rfl⟩, ?_⟩
          rw [List.length_cons, hl]
          exact Nat.succ_le_succ hlen

theorem vsnprintf_fits_iff (h : Expands fmt args items) (len : Nat) :
    (∃ out, vsnprintf len fmt args = some out ∧ out.length ≤ len + 4)
      ↔ Contained len items
        ∨ (items.length ≤ len + 3 ∧ Item.wild ∉ items ∧ puts items < len) := by
  have hfmt := formatted_eq h len
  constructor
  · rintro ⟨out, hout, hlen⟩
    obtain ⟨text, left, ht, hl⟩ := vsnprintf_length hout
    rw [hfmt] at ht
    rcases (emit_cases items len text left ht).1 with ⟨hpos, hall, hwild, hputs⟩ | ⟨hz, -⟩
    · -- no dots: everything is written
      rw [if_neg (by omega)] at hl
      exact Or.inr ⟨by omega, hwild, hputs⟩
    · rw [if_pos hz] at hl
      exact Or.inl ((emit_le_iff items len).mp ⟨text, left, ht, by omega⟩)
  · rintro (hcont | ⟨hlen, hwild, hputs⟩)
    · obtain ⟨text, left, ht, hl⟩ := (emit_le_iff items len).mpr hcont
      obtain ⟨out, hout, hol⟩ := vsnprintf_returns (hfmt.trans ht)
      exact ⟨out, hout, by split at hol <;> omega⟩
    · obtain ⟨text, ht, hl⟩ := emit_all items len hputs hwild
      obtain ⟨out, hout, hol⟩ := vsnprintf_returns (hfmt.trans ht)
      rw [if_neg (by omega)] at hol
      exact ⟨out, hout, by omega⟩

theorem vsnprintf_length_le (h : Expands fmt args items)
    (hout : vsnprintf len fmt args = some out) : out.length ≤ len + literals items + 4 := by
  obtain ⟨text, left, ht, hl⟩ := vsnprintf_length hout
  rw [formatted_eq h len] at ht
  have hle := (emit_cases items len text left ht).2
  split at hl <;> omega

/-- **How much `vsnprintf` writes.**  For a complete format string with
matching arguments that stands for `items`, and every `len`:

  • at most `len` characters are formatted exactly when the items are
    contained in `len`,
  • nothing is written past `buf[len+3]` exactly when they are, or all of them
    are written and are at most `len + 3`,
  • and in any case nothing past one byte more per literal character. -/
theorem vsnprintf_bounded_iff (len : Nat) (fmt : List Byte) (args : List Arg) (items : List Item)
    (h : Expands fmt args items) :
    ((∃ text left, formatted len fmt args = some (text, left) ∧ text.length ≤ len)
      ↔ Contained len items)
    ∧ ((∃ out, vsnprintf len fmt args = some out ∧ out.length ≤ len + 4)
        ↔ Contained len items
          ∨ (items.length ≤ len + 3 ∧ Item.wild ∉ items ∧ puts items < len))
    ∧ ∀ out, vsnprintf len fmt args = some out → out.length ≤ len + literals items + 4 := by
  refine ⟨?_, vsnprintf_fits_iff h len, fun out hout => vsnprintf_length_le h hout⟩
  rw [formatted_eq h len]
  exact emit_le_iff items len

/-- A number and a string in front of the literal text: ten characters are
asked for, and the first ten come from directives. -/
theorem vsnprintf_bounded_long_string :
    ∃ out, vsnprintf 10
        (bytes ['%', '0', '4', 'd', '%', 's', ' ', 'e', 'n', 'd'])
        [.int (-7), .str (bytes ['q', 'u', 'a', 'c', 'k', 'q', 'u', 'a', 'c', 'k'])] = some out
      ∧ out.length ≤ 14 := by
  refine ((vsnprintf_bounded_iff 10 _ _ _ (.directive rfl rfl (.directive rfl rfl
    (.literal (by decide) (.literal (by decide) (.literal (by decide) (.literal (by decide)
      (.nil _)))))))).2.1).mpr (Or.inl (Or.inr ?_))
  decide

/-- **Literal text is not counted.**  With `len = 128` (the buffer of `panic`
has 144 bytes) a message of 200 literal characters is written in full. -/
theorem vsnprintf_literals_uncounted :
    ¬ ∀ (len : Nat) (fmt : List Byte) (args : List Arg) (items : List Item),
        Expands fmt args items →
          ∃ out, vsnprintf len fmt args = some out ∧ out.length ≤ len + 4 := by
  intro h
  have hexp : ∀ n, Expands (List.replicate n (ascii 'a')) []
      (List.replicate n (.literal (ascii 'a'))) := by
    intro n
    induction n with
    | zero => exact .nil []
    | succ n ih => exact .literal (by decide) ih
  obtain ⟨out, hout, hlen⟩ := h 128 _ [] _ (hexp 200)
  have hlong : (vsnprintf 128 (List.replicate 200 (ascii 'a')) []).map List.length = some 201 := by
    decide +kernel
  rw [hout] at hlong
  injection hlong with hlong
  omega

end Quack.Vsnprintf
