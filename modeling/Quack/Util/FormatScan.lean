/-
  Quack.Util.FormatScan
  **`vsnprintf`: WHAT IT READS OF THE FORMAT.**

  The format is a C string in memory, and `fmt` moves over it in six places:
  behind a literal, a `%`, a `0`, a digit of the width, an `l`, and behind the
  conversion character.  The last of these is unconditional: where the string
  ends inside a directive the conversion "character" is the terminating NUL,
  and the loop goes on behind it.
-/
import Quack.Util.Vsnprintf
import Quack.Lib.Fueled

namespace Quack.Vsnprintf

open Util Lib Lib.Traced

/-! ## §1. The loop over memory. -/

/-- `while (isdigit(*fmt))`. -/
def scan_padding (mem : Nat → Byte) :
    (fuel fmt : Nat) → (padding : BitVec 32) → Traced Nat Unit (BitVec 32 × Nat)
  | 0, _, _ => stop
  | fuel + 1, fmt, padding => do
    let c ← fetch mem fmt
    if isdigit c then scan_padding mem fuel (fmt + 1) (padding * 10 + (c.setWidth 32 - 0x30))
    else pure (padding, fmt)

/-- `while (*fmt == 'l')`. -/
def scan_wide (mem : Nat → Byte) :
    (fuel fmt : Nat) → (wide : Bool) → Traced Nat Unit (Bool × Nat)
  | 0, _, _ => stop
  | fuel + 1, fmt, wide => do
    let c ← fetch mem fmt
    if c = ascii 'l' then scan_wide mem fuel (fmt + 1) true
    else pure (wide, fmt)

def scan_flags (mem : Nat → Byte) (fuel fmt : Nat) : Traced Nat Unit (Flags × Nat) := do
  let c ← fetch mem fmt
  let pad_with := if c = ascii '0' then ascii '0' else ascii ' '
  let fmt := if c = ascii '0' then fmt + 1 else fmt
  let p ← scan_padding mem fuel fmt 0
  let w ← scan_wide mem fuel p.2 false
  pure (⟨p.1, pad_with, w.1⟩, w.2)

abbrev Lost := Flags → Byte → List Arg → List Byte × List Arg

/-- The text of a directive and the arguments left. -/
def converted (lost : Lost) (flags : Flags) (conv : Byte) (args : List Arg) :
    List Byte × List Arg :=
  match convert flags conv args with
  | some (some text, args) => (text, args)
  | _ => lost flags conv args

/-- The `while (*fmt && len)` loop, with `fmt` a position in memory. -/
def scan (mem : Nat → Byte) (lost : Lost) :
    (fuel fmt len : Nat) → List Arg → Traced Nat Unit (List Byte × Nat)
  | 0, _, _, _ => stop
  | fuel + 1, fmt, len, args => do
    let c ← fetch mem fmt
    if c = 0 ∨ len = 0 then pure ([], len)
    else if c ≠ ascii '%' then do
      let r ← scan mem lost fuel (fmt + 1) len args
      pure (c :: r.1, r.2)
    else do
      let f ← scan_flags mem fuel (fmt + 1)
      let conv ← fetch mem f.2
      let text := converted lost f.1 conv args
      match fmt_put len text.1 with
      | (written, len, true) => pure (written, len)
      | (written, len, false) => do
        -- `fmt++`, also where `conv` is the NUL
        let r ← scan mem lost fuel (f.2 + 1) len text.2
        pure (written ++ r.1, r.2)

/-! ## §2. Strings that end inside a directive. -/

/-- The C string `fmt` at `p`. -/
def CString (mem : Nat → Byte) : (p : Nat) → (fmt : List Byte) → Prop
  | p, [] => mem p = 0
  | p, c :: fmt => mem p = c ∧ CString mem (p + 1) fmt

/-- **The string ends inside a directive**: after a `%` only a `0`, digits and `l`s
are left.  The directives before it put `n` characters. -/
inductive Dangles (lost : Lost) : List Byte → List Arg → (n : Nat) → Prop where
  | here {fmt : List Byte} {args : List Arg} :
      (read_flags fmt).2 = [] → Dangles lost (ascii '%' :: fmt) args 0
  | literal {c : Byte} {fmt : List Byte} {args : List Arg} {n : Nat} :
      c ≠ ascii '%' → Dangles lost fmt args n → Dangles lost (c :: fmt) args n
  | directive {fmt rest : List Byte} {flags : Flags} {conv : Byte} {args : List Arg} {n : Nat} :
      read_flags fmt = (flags, conv :: rest) →
      Dangles lost rest (converted lost flags conv args).2 n →
      Dangles lost (ascii '%' :: fmt) args ((converted lost flags conv args).1.length + n)

variable {lost : Lost} {fmt rest : List Byte} {args : List Arg} {c conv : Byte} {flags : Flags}
  {len : Nat}

theorem not_dangles_nil : ¬ ∃ n < len, Dangles lost [] args n := by
  rintro ⟨n, -, h⟩
  cases h

theorem dangles_literal (hc : c ≠ ascii '%') :
    (∃ n < len, Dangles lost (c :: fmt) args n) ↔ ∃ n < len, Dangles lost fmt args n := by
  constructor
  · rintro ⟨n, hn, h⟩
    cases h with
    | here => exact absurd rfl hc
    | literal _ h => exact ⟨n, hn, h⟩
    | directive => exact absurd rfl hc
  · rintro ⟨n, hn, h⟩
    exact ⟨n, hn, Dangles.literal hc h⟩

theorem dangles_directive (hflags : read_flags fmt = (flags, conv :: rest)) :
    (∃ n < len, Dangles lost (ascii '%' :: fmt) args n)
      ↔ ∃ n < len - (converted lost flags conv args).1.length,
          Dangles lost rest (converted lost flags conv args).2 n := by
  constructor
  · rintro ⟨n, hn, h⟩
    cases h with
    | here hend =>
      rw [hflags] at hend
      cases hend
    | literal hc => exact absurd rfl hc
    | directive hflags' h =>
      rw [hflags] at hflags'
      cases hflags'
      exact ⟨_, by omega, h⟩
  · rintro ⟨n, hn, h⟩
    exact ⟨_, by omega, Dangles.directive hflags h⟩

/-! ## §3. The rest of the string. -/

/-- The string from `p` on, with its NUL at `stop`. -/
structure Rest (mem : Nat → Byte) (stop p : Nat) (fmt : List Byte) : Prop where
  holds : CString mem p fmt
  nul : 0 ∉ fmt
  ends : p + fmt.length = stop

namespace Rest

variable {mem : Nat → Byte} {stop p : Nat}

theorem le (h : Rest mem stop p fmt) : p ≤ stop := by
  rw [← h.ends]
  exact Nat.le_add_right p _

theorem tail (h : Rest mem stop p (c :: fmt)) : Rest mem stop (p + 1) fmt where
  holds := h.holds.2
  nul hmem := h.nul (List.mem_cons_of_mem c hmem)
  ends := by
    rw [← h.ends, List.length_cons]
    omega

theorem ne_zero (h : Rest mem stop p (c :: fmt)) : c ≠ 0 :=
  fun hc => h.nul (hc ▸ List.mem_cons_self)

theorem fetch {Q : Byte → Unit → Prop} (h : Rest mem stop p fmt) (hq : Q (mem p) ()) :
    Settles (· ≤ stop) (fun _ => fetch mem p) () True Q :=
  ((Settles.log (R := fun _ _ => True) trivial).bind fun _ _ _ => Settles.pure hq).mono
    (iff_true_intro ⟨h.le, trivial⟩) (fun _ _ h => h)

end Rest

/-! ## §4. The inner loops stay inside. -/

section inner

variable {mem : Nat → Byte} {stop : Nat}

theorem scan_padding_settles (fmt : List Byte) (p : Nat) (padding : BitVec 32)
    (h : Rest mem stop p fmt) :
    Settles (· ≤ stop) (fun fuel => scan_padding mem fuel p padding) () True
      (fun r _ => r.1 = (read_padding padding fmt).1
        ∧ Rest mem stop r.2 (read_padding padding fmt).2) := by
  induction fmt generalizing p padding with
  | nil =>
    refine Settles.next rfl ((h.fetch (Q := fun c _ => c = 0) h.holds).andThen ?_)
    rintro c _ rfl
    exact Settles.pure ⟨rfl, h⟩
  | cons c fmt ih =>
    refine Settles.next rfl ((h.fetch (Q := fun c' _ => c' = c) h.holds.1).andThen ?_)
    rintro c' _ rfl
    rw [read_padding]
    by_cases hc : isdigit c' = true
    · simp only [if_pos hc]
      exact ih (p + 1) _ h.tail
    · simp only [if_neg hc]
      exact Settles.pure ⟨rfl, h⟩

theorem scan_wide_settles (fmt : List Byte) (p : Nat) (wide : Bool) (h : Rest mem stop p fmt) :
    Settles (· ≤ stop) (fun fuel => scan_wide mem fuel p wide) () True
      (fun r _ => r.1 = (read_wide wide fmt).1
        ∧ Rest mem stop r.2 (read_wide wide fmt).2) := by
  induction fmt generalizing p wide with
  | nil =>
    refine Settles.next rfl ((h.fetch (Q := fun c _ => c = 0) h.holds).andThen ?_)
    rintro c _ rfl
    exact Settles.pure ⟨rfl, h⟩
  | cons c fmt ih =>
    refine Settles.next rfl ((h.fetch (Q := fun c' _ => c' = c) h.holds.1).andThen ?_)
    rintro c' _ rfl
    rw [read_wide]
    by_cases hc : c' = ascii 'l'
    · simp only [if_pos hc]
      exact ih (p + 1) _ h.tail
    · simp only [if_neg hc]
      exact Settles.pure ⟨rfl, h⟩

theorem scan_flags_settles {p : Nat} (h : Rest mem stop p fmt) :
    Settles (· ≤ stop) (fun fuel => scan_flags mem fuel p) () True
      (fun r _ => r.1 = (read_flags fmt).1 ∧ Rest mem stop r.2 (read_flags fmt).2) := by
  -- where the digits of the width start
  have hwidth : Rest mem stop (if mem p = ascii '0' then p + 1 else p)
      (if fmt.head? = some (ascii '0') then fmt.tail else fmt)
      ∧ (mem p = ascii '0' ↔ fmt.head? = some (ascii '0')) := by
    cases fmt with
    | nil =>
      have hp : mem p = 0 := h.holds
      simp only [hp, List.head?_nil]
      exact ⟨h, by decide⟩
    | cons c fmt =>
      have hp : mem p = c := h.holds.1
      simp only [hp, List.head?_cons, Option.some.injEq, List.tail_cons, iff_self, and_true]
      split
      · exact h.tail
      · exact h
  refine (h.fetch (Q := fun c _ => c = mem p) rfl).andThen ?_
  rintro c _ rfl
  refine (scan_padding_settles _ _ 0 hwidth.1).andThen ?_
  rintro ⟨padding, p'⟩ _ ⟨hpad, hp'⟩
  refine (scan_wide_settles _ _ false hp').andThen ?_
  rintro ⟨wide, p''⟩ _ ⟨hwide, hp''⟩
  refine Settles.pure ⟨?_, hp''⟩
  simp only at hpad hwide
  simp only [read_flags, hpad, hwide, hwidth.2]

end inner

/-! ## §5. The loop stays inside unless the directive dangles. -/

theorem converted_some {text : List Byte} {args' : List Arg}
    (h : convert flags conv args = some (some text, args')) :
    converted lost flags conv args = (text, args') := by
  rw [converted, h]

variable {stop fuel : Nat}

theorem scan_outside (mem : Nat → Byte) {p : Nat} (hp : stop < p)
    {Q : List Byte × Nat → Unit → Prop} :
    Settles (· ≤ stop) (fun fuel => scan mem lost fuel p len args) () False Q := by
  refine Settles.next rfl (Settles.fails (Q := fun _ _ => True) ?_)
  refine ((Settles.log (R := fun _ _ => True) trivial).bind fun _ _ _ =>
    Settles.pure (Q := fun _ _ => True) trivial).mono ?_ (fun _ _ h => h)
  exact iff_of_false (fun h => absurd h.1 (Nat.not_le.mpr hp)) not_false

theorem format_literal {r : List Byte × Nat} (hlen : len ≠ 0) (hc : c ≠ ascii '%')
    (h : format fuel len (c :: fmt) args = some r) :
    ∃ fuel' r', format fuel' len fmt args = some r' ∧ r = (c :: r'.1, r'.2) := by
  cases fuel with
  | zero => cases h
  | succ fuel =>
    rw [format, if_neg hlen, if_pos hc] at h
    obtain ⟨r', hr', rfl⟩ := Option.map_eq_some_iff.mp h
    exact ⟨fuel, r', hr', rfl⟩

theorem format_directive (lost : Lost) {r : List Byte × Nat} (hlen : len ≠ 0)
    (hflags : read_flags fmt = (flags, conv :: rest))
    (h : format fuel len (ascii '%' :: fmt) args = some r) :
    if len < (converted lost flags conv args).1.length
    then r = ((converted lost flags conv args).1.take len,
      len - (converted lost flags conv args).1.length)
    else ∃ fuel' r', format fuel' (len - (converted lost flags conv args).1.length) rest
        (converted lost flags conv args).2 = some r'
      ∧ r = ((converted lost flags conv args).1.take len ++ r'.1, r'.2) := by
  cases fuel with
  | zero => cases h
  | succ fuel =>
    rw [format, if_neg hlen, if_neg (not_not.mpr rfl), hflags] at h
    simp only at h
    split at h
    · next text args' hconv =>
        rw [converted_some hconv]
        rw [fmt_put_eq] at h
        by_cases hover : len < text.length
        · simp only [hover, decide_true] at h
          rw [if_pos hover]
          exact (Option.some.inj h).symm
        · simp only [hover, decide_false] at h
          obtain ⟨r', hr', rfl⟩ := Option.map_eq_some_iff.mp h
          rw [if_neg hover]
          exact ⟨fuel, r', hr', rfl⟩
    · cases h

def Scans (lost : Lost) (mem : Nat → Byte) (stop p len : Nat) (fmt : List Byte)
    (args : List Arg) : Prop :=
  Settles (· ≤ stop) (fun fuel => scan mem lost fuel p len args) ()
    (¬ ∃ n < len, Dangles lost fmt args n)
    (fun r _ => ∀ fuel r', format fuel len fmt args = some r' → r = r')

section rounds

variable {mem : Nat → Byte} {stop p : Nat}

theorem scan_nil (h : Rest mem stop p []) : Scans lost mem stop p len [] args := by
  refine Settles.next rfl ((h.fetch (Q := fun c _ => c = 0) h.holds).andThen ?_)
  rintro c _ rfl
  simp only [true_or, if_true]
  refine Settles.done not_dangles_nil ?_
  intro fuel r' hr'
  cases fuel <;> exact Option.some.inj hr'

theorem scan_full (h : Rest mem stop p (c :: fmt)) : Scans lost mem stop p 0 (c :: fmt) args := by
  refine Settles.next rfl ((h.fetch (Q := fun c' _ => c' = c) h.holds.1).andThen ?_)
  rintro c' _ rfl
  simp only [or_true, if_true]
  refine Settles.done ?_ ?_
  · rintro ⟨n, hn, -⟩
    exact absurd hn (Nat.not_lt_zero n)
  intro fuel r' hr'
  cases fuel with
  | zero => cases hr'
  | succ fuel => exact Option.some.inj hr'

theorem scan_literal (h : Rest mem stop p (c :: fmt)) (hlen : len ≠ 0) (hc : c ≠ ascii '%')
    (hrest : Scans lost mem stop (p + 1) len fmt args) :
    Scans lost mem stop p len (c :: fmt) args := by
  refine Settles.next rfl ((h.fetch (Q := fun c' _ => c' = c) h.holds.1).andThen ?_)
  rintro c' _ rfl
  simp only [h.ne_zero, hlen, or_self, if_false, if_pos hc, dangles_literal hc]
  refine hrest.seq ?_
  intro r _ hr
  refine Settles.pure fun fuel r' hr' => ?_
  obtain ⟨fuel', r'', hr'', rfl⟩ := format_literal hlen hc hr'
  rw [hr fuel' r'' hr'']

theorem scan_dangling (h : Rest mem stop p (ascii '%' :: fmt)) (hlen : len ≠ 0)
    (hend : (read_flags fmt).2 = []) : Scans lost mem stop p len (ascii '%' :: fmt) args := by
  refine Settles.next rfl ((h.fetch (Q := fun c' _ => c' = ascii '%') h.holds.1).andThen ?_)
  rintro c' _ rfl
  simp only [h.ne_zero, hlen, or_self, if_false, ne_eq, not_true_eq_false]
  refine (scan_flags_settles h.tail).andThen ?_
  rintro ⟨flags, q⟩ _ ⟨-, hq⟩
  rw [hend] at hq
  refine (hq.fetch (Q := fun conv _ => conv = 0) hq.holds).andThen ?_
  rintro conv _ rfl
  -- the NUL is no directive: nothing is put and no argument is taken
  rw [show converted lost flags 0 args = ([], args) from rfl]
  simp only [fmt_put]
  have hout : stop < q + 1 := Nat.lt_succ_of_le (Nat.le_of_eq hq.ends.symm)
  refine (Settles.fails (Q := fun _ _ => True) (scan_outside mem hout)).mono ?_ (fun _ _ h => h)
  exact iff_of_false not_false
    fun hno => hno ⟨0, Nat.pos_of_ne_zero hlen, Dangles.here hend⟩

theorem scan_directive (h : Rest mem stop p (ascii '%' :: fmt)) (hlen : len ≠ 0)
    (hflags : read_flags fmt = (flags, conv :: rest))
    (hrest : ∀ q, Rest mem stop q rest →
      Scans lost mem stop q (len - (converted lost flags conv args).1.length) rest
        (converted lost flags conv args).2) :
    Scans lost mem stop p len (ascii '%' :: fmt) args := by
  refine Settles.next rfl ((h.fetch (Q := fun c' _ => c' = ascii '%') h.holds.1).andThen ?_)
  rintro c' _ rfl
  simp only [h.ne_zero, hlen, or_self, if_false, ne_eq, not_true_eq_false]
  refine (scan_flags_settles h.tail).andThen ?_
  rintro ⟨flags', q⟩ _ ⟨hfl, hq⟩
  rw [hflags] at hfl hq
  cases hfl
  refine (hq.fetch (Q := fun conv' _ => conv' = conv) hq.holds.1).andThen ?_
  rintro conv' _ rfl
  rw [dangles_directive hflags]
  simp only [fmt_put_eq]
  by_cases hover : len < (converted lost flags conv' args).1.length
  · -- `goto end`
    simp only [hover, decide_true]
    refine Settles.done ?_ ?_
    · rintro ⟨n, hn, -⟩
      omega
    · intro fuel r' hr'
      have hput := format_directive lost hlen hflags hr'
      rw [if_pos hover] at hput
      exact hput.symm
  · simp only [hover, decide_false]
    refine (hrest (q + 1) hq.tail).seq ?_
    intro r _ hr
    refine Settles.pure fun fuel r' hr' => ?_
    have hput := format_directive lost hlen hflags hr'
    rw [if_neg hover] at hput
    obtain ⟨fuel', r'', hr'', rfl⟩ := hput
    rw [hr fuel' r'' hr'']

end rounds

theorem scan_settles {mem : Nat → Byte} :
    ∀ k fmt p len args, fmt.length < k →
      Rest mem stop p fmt → Scans lost mem stop p len fmt args := by
  intro k
  induction k with
  | zero => intro fmt p len args hk; exact absurd hk (Nat.not_lt_zero _)
  | succ k ih =>
    intro fmt p len args hk h
    cases fmt with
    | nil => exact scan_nil h
    | cons c fmt =>
      simp only [List.length_cons] at hk
      rcases Nat.eq_zero_or_pos len with rfl | hpos
      · exact scan_full h
      have hlen : len ≠ 0 := Nat.ne_of_gt hpos
      by_cases hc : c = ascii '%'
      · subst hc
        cases hrest : (read_flags fmt).2 with
        | nil => exact scan_dangling h hlen hrest
        | cons conv rest =>
          have hshort : rest.length < k := by
            have hle := read_flags_length fmt
            rw [hrest, List.length_cons] at hle
            omega
          exact scan_directive h hlen (Prod.ext rfl hrest)
            fun q hq => ih rest q _ _ hshort hq
      · exact scan_literal h hlen hc (ih fmt (p + 1) len args (by omega) h.tail)

/-! ## §6. Format scanning. -/

/-- **Scanning stays inside the format and terminates, exactly unless the string
ends inside a directive that is reached with some of `len` left.**  For every
C string, whatever stands behind its NUL, all arguments, and whatever a
directive puts where its text is lost. -/
theorem format_scan_inside (lost : Lost) (mem : Nat → Byte) (fmt : List Byte) (len : Nat)
    (args : List Arg) (hmem : CString mem 0 fmt) (hnul : 0 ∉ fmt) :
    (∃ fuel r, (scan mem lost fuel 0 len args ()).2 = some r
        ∧ ∀ p ∈ (scan mem lost fuel 0 len args ()).1, p ≤ fmt.length)
      ↔ ¬ ∃ n < len, Dangles lost fmt args n :=
  settles_iff (scan_settles (fmt.length + 1) fmt 0 len args (Nat.lt_succ_self _)
    ⟨hmem, hnul, Nat.zero_add _⟩)

/-- `"%%"` in memory, with no NUL but its own. -/
def percents : Nat → Byte := fun p => if p = 2 then 0 else ascii '%'

theorem format_scan_inside_percents :
    ∃ fuel r, (scan percents (fun _ _ args => ([], args)) fuel 0 1 [] ()).2 = some r
      ∧ ∀ p ∈ (scan percents (fun _ _ args => ([], args)) fuel 0 1 [] ()).1, p ≤ 2 := by
  refine (format_scan_inside _ percents (bytes ['%', '%']) 1 [] ⟨rfl, rfl, rfl⟩
    (by decide)).mpr ?_
  have hflags : read_flags (bytes ['%']) = (⟨0, ascii ' ', false⟩, [ascii '%']) := rfl
  rw [show bytes ['%', '%'] = ascii '%' :: bytes ['%'] from rfl, dangles_directive hflags]
  exact not_dangles_nil

/-- `"%"` in memory, with zeros behind it. -/
def danglingPercent : Nat → Byte := fun p => if p = 0 then ascii '%' else 0

/-- The string is one character long; the loop reads the byte behind its NUL. -/
theorem format_scan_behind_nul :
    CString danglingPercent 0 (bytes ['%']) ∧ 0 ∉ bytes ['%']
    ∧ (scan danglingPercent (fun _ _ args => ([], args)) 3 0 1 [] ()).1 = [0, 1, 1, 1, 1, 2]
    ∧ ¬ ∃ fuel r, (scan danglingPercent (fun _ _ args => ([], args)) fuel 0 1 [] ()).2 = some r
      ∧ ∀ p ∈ (scan danglingPercent (fun _ _ args => ([], args)) fuel 0 1 [] ()).1, p ≤ 1 := by
  have hmem : CString danglingPercent 0 (bytes ['%']) := ⟨rfl, rfl⟩
  refine ⟨hmem, by decide, by decide, fun hrun => ?_⟩
  have hscan : Scans (fun _ _ args => ([], args)) danglingPercent 1 0 1 (bytes ['%']) [] :=
    scan_settles 2 (bytes ['%']) 0 1 [] (by decide) ⟨hmem, by decide, rfl⟩
  exact (settles_iff hscan).mp hrun ⟨0, by decide, Dangles.here rfl⟩

end Quack.Vsnprintf
