/-
  Quack.Util.Cmdline
  **THE KERNEL COMMAND LINE: two nested counted splitters.**

  `cmdline_init` cuts the line at spaces, `parse_arg` cuts the text after a
  `=` at commas.  Both count the separators first and then advance with
  `strchr(p, sep) + 1`, which is a wild pointer after the last piece: the count
  has to run out before it is followed.  A wild pointer is `none` here, and
  following it is a fault.

    • `cmdline_grammar` — the whole line, and the four queries.
-/
import Quack.Util.Strings
import Mathlib.Data.List.TakeWhile

namespace Quack.Cmdline

open Util

/-! ## §1. `cmdline.cpp`. -/

/-- `cmd_arg_t`; `values` is `none` for the null pointer. -/
structure CmdArg where
  key : List Byte
  values : Option (List (List Byte))
  value_count : Nat
  deriving Repr, DecidableEq

/-- `strchr(p, ch) + 1`: a wild pointer when there is no `ch`. -/
def strchrNext (ch : Byte) (p : List Byte) : Option (List Byte) :=
  (strchr ch p).map List.tail

/-- What stands before the first `ch`, or the whole string. -/
def upTo (ch : Byte) (p : List Byte) : List Byte :=
  match strchr ch p with
  | none => p
  | some sep => p.take (p.length - sep.length)

/-- The `while (param_count--)` loop. -/
def values_loop : (param_count : Nat) → (param : Option (List Byte)) →
    Option (List (List Byte))
  | 0, _ => some []
  -- the count would have to be wrong for this: a read through the wild pointer
  | _ + 1, none => none
  | n + 1, some param =>
    (values_loop n (strchrNext (ascii ',') param)).map (upTo (ascii ',') param :: ·)

/-- `parse_arg`: the argument that is stored. -/
def parse_arg (str : List Byte) : Option CmdArg :=
  match strchrNext (ascii '=') str with
  | none => some ⟨str, none, 0⟩
  | some params =>
    -- `*params = '\0'` ends the name at the `=`
    let name := upTo (ascii '=') str
    let param_count := count_chars (ascii ',') params + 1
    if params = [] then some ⟨name, none, 0⟩
    else
      (values_loop param_count (some params)).map fun values =>
        ⟨name, some values, param_count⟩

def init_loop (capacity : Nat) : (cmd_arg_count : Nat) → (c : Option (List Byte)) →
    (arg_list : List CmdArg) → Option (List CmdArg)
  | 0, _, arg_list => some arg_list
  | _ + 1, none, _ => none
  | n + 1, some c, arg_list =>
    -- `break` at the end of the line
    if c = [] then some arg_list
    else
      (parse_arg (upTo (ascii ' ') c)).bind fun arg =>
        -- a store past the end of `arg_list` stops the program
        if arg_list.length < capacity then
          init_loop capacity n (strchrNext (ascii ' ') c) (arg_list ++ [arg])
        else none

/-- `cmdline_init`: the contents of `arg_list`. -/
def cmdline_init (cmdline : List Byte) : Option (List CmdArg) :=
  let cmd_arg_count := count_chars (ascii ' ') cmdline + 1
  init_loop cmd_arg_count cmd_arg_count (some cmdline) []

/-- `cmdline_is_enabled`. -/
def cmdline_is_enabled (arg_list : List CmdArg) (name : List Byte) : Bool :=
  arg_list.any fun arg => strcmp name arg.key == 0

/-- The first argument with the key. -/
def first_arg (arg_list : List CmdArg) (name : List Byte) : Option CmdArg :=
  arg_list.find? fun arg => strcmp name arg.key == 0

/-- `cmdline_get_value_count`. -/
def cmdline_get_value_count (arg_list : List CmdArg) (name : List Byte) : Nat :=
  match first_arg arg_list name with
  | some arg => arg.value_count
  | none => 0

/-- `cmdline_get_values`. -/
def cmdline_get_values (arg_list : List CmdArg) (name : List Byte) : Option (List (List Byte)) :=
  match first_arg arg_list name with
  | some arg => arg.values
  | none => none

def has_value_from (values : List (List Byte)) (value : List Byte) :
    (n j : Nat) → Option Bool
  | 0, _ => some false
  | n + 1, j =>
    match values[j]? with
    | none => none
    | some v => if strcmp value v = 0 then some true else has_value_from values value n (j + 1)

/-- `cmdline_has_value`. -/
def cmdline_has_value : (arg_list : List CmdArg) → (name value : List Byte) → Option Bool
  | [], _, _ => some false
  | arg :: arg_list, name, value =>
    if strcmp name arg.key = 0 then
      (has_value_from (arg.values.getD []) value arg.value_count 0).bind fun found =>
        if found then some true else cmdline_has_value arg_list name value
    else cmdline_has_value arg_list name value

/-! ## §2. The grammar. -/

/-- The line split at single spaces, a final empty token excepted. -/
def tokens (s : List Byte) : List (List Byte) :=
  let ts := s.splitOn (ascii ' ')
  if ts.getLast? = some [] then ts.dropLast else ts

/-- The key of a token: up to its first `=`. -/
def keyOf (token : List Byte) : List Byte := token.takeWhile (· ≠ ascii '=')

def valuesOf (token : List Byte) : List (List Byte) :=
  match token.dropWhile (· ≠ ascii '=') with
  | [] => []
  | [_] => []
  | _ :: text => text.splitOn (ascii ',')

/-- The argument a token stands for. -/
def argOf (token : List Byte) : CmdArg :=
  ⟨keyOf token, if valuesOf token = [] then none else some (valuesOf token),
    (valuesOf token).length⟩

/-! ## §3. The two splitters. -/

variable {pre s token value name : List Byte}

theorem upTo_append {ch : Byte} (hpre : ch ∉ pre) (rest : List Byte) :
    upTo ch (pre ++ ch :: rest) = pre := by
  rw [upTo, strchr_append pre rest hpre]
  simp only [List.length_append, Nat.add_sub_cancel, List.take_left]

theorem upTo_of_not_mem {ch : Byte} {p : List Byte} (h : ch ∉ p) : upTo ch p = p := by
  rw [upTo, strchr_eq_none p h]

theorem strchrNext_append {ch : Byte} (hpre : ch ∉ pre) (rest : List Byte) :
    strchrNext ch (pre ++ ch :: rest) = some rest := by
  rw [strchrNext, strchr_append pre rest hpre]
  rfl

theorem values_loop_spec (n : Nat) :
    ∀ param, count_chars (ascii ',') param = n →
      values_loop (n + 1) (some param) = some (param.splitOn (ascii ',')) := by
  induction n with
  | zero =>
    intro param hn
    have hno := count_chars_eq_zero param hn
    rw [values_loop, upTo_of_not_mem hno, List.splitOn_eq_singleton hno]
    rfl
  | succ n ih =>
    intro param hn
    obtain ⟨pre, rest, rfl, hpre, hrest⟩ := exists_split param hn
    rw [values_loop, upTo_append hpre, strchrNext_append hpre, ih rest hrest,
      splitOn_append hpre]
    rfl

theorem keyOf_append (hpre : ascii '=' ∉ pre) (rest : List Byte) :
    keyOf (pre ++ ascii '=' :: rest) = pre := by
  rw [keyOf, List.takeWhile_append_of_pos]
  · simp
  · intro x hx
    simpa using fun h : x = ascii '=' => hpre (h ▸ hx)

theorem valuesOf_append (hpre : ascii '=' ∉ pre) (rest : List Byte) :
    valuesOf (pre ++ ascii '=' :: rest) = if rest = [] then [] else rest.splitOn (ascii ',') := by
  have hdrop : (pre ++ ascii '=' :: rest).dropWhile (· ≠ ascii '=') = ascii '=' :: rest := by
    rw [List.dropWhile_append_of_pos]
    · simp
    · intro x hx
      simpa using fun h : x = ascii '=' => hpre (h ▸ hx)
  rw [valuesOf, hdrop]
  cases rest with
  | nil => rfl
  | cons c rest => rfl

theorem parse_arg_eq (token : List Byte) : parse_arg token = some (argOf token) := by
  by_cases hmem : ascii '=' ∈ token
  · -- split at the first `=`
    obtain ⟨n, hn⟩ : ∃ n, count_chars (ascii '=') token = n + 1 := by
      refine ⟨count_chars (ascii '=') token - 1, ?_⟩
      have hpos : count_chars (ascii '=') token ≠ 0 := fun h => count_chars_eq_zero token h hmem
      omega
    obtain ⟨pre, rest, rfl, hpre, -⟩ := exists_split token hn
    rw [parse_arg, strchrNext_append hpre, argOf, keyOf_append hpre, valuesOf_append hpre,
      upTo_append hpre]
    by_cases hrest : rest = []
    · simp [hrest]
    · have hlen := length_splitOn (ascii ',') _ rest rfl
      have hne : rest.splitOn (ascii ',') ≠ [] := by
        intro h
        rw [h] at hlen
        cases hlen
      simp only [hrest, if_false, hne, values_loop_spec _ rest rfl, Option.map_some, hlen]
  · have hkey : keyOf token = token := by
      rw [keyOf, List.takeWhile_eq_self_iff]
      intro x hx
      simpa using fun h : x = ascii '=' => hmem (h ▸ hx)
    have hvalues : valuesOf token = [] := by
      have hdrop : token.dropWhile (· ≠ ascii '=') = [] := by
        rw [List.dropWhile_eq_nil_iff]
        intro x hx
        simpa using fun h : x = ascii '=' => hmem (h ▸ hx)
      rw [valuesOf, hdrop]
    rw [parse_arg, strchrNext, strchr_eq_none token hmem, argOf, hkey, hvalues]
    rfl

theorem tokens_of_not_mem (h : ascii ' ' ∉ s) :
    tokens s = if s = [] then [] else [s] := by
  rw [tokens, List.splitOn_eq_singleton h]
  simp

theorem tokens_append (hpre : ascii ' ' ∉ pre) (rest : List Byte) :
    tokens (pre ++ ascii ' ' :: rest) = pre :: tokens rest := by
  have hlen := length_splitOn (ascii ' ') _ rest rfl
  have hne : rest.splitOn (ascii ' ') ≠ [] := by
    intro h
    rw [h] at hlen
    cases hlen
  simp only [tokens, splitOn_append hpre]
  obtain ⟨t, ts, hts⟩ := List.exists_cons_of_ne_nil hne
  rw [hts, List.getLast?_cons_cons]
  split <;> rfl

theorem init_loop_spec (capacity n : Nat) (c : List Byte) (arg_list : List CmdArg)
    (hn : count_chars (ascii ' ') c = n) (hcap : arg_list.length + n < capacity) :
    init_loop capacity (n + 1) (some c) arg_list
      = some (arg_list ++ (tokens c).map argOf) := by
  induction n generalizing c arg_list with
  | zero =>
    have hno := count_chars_eq_zero c hn
    rw [init_loop, tokens_of_not_mem hno]
    by_cases hc : c = []
    · simp [hc]
    · rw [if_neg hc, if_neg hc, upTo_of_not_mem hno, parse_arg_eq, Option.bind_some,
        if_pos (by omega)]
      rfl
  | succ n ih =>
    obtain ⟨pre, rest, rfl, hpre, hrest⟩ := exists_split c hn
    have hne : pre ++ ascii ' ' :: rest ≠ [] := by simp
    rw [init_loop, if_neg hne, upTo_append hpre, parse_arg_eq, Option.bind_some,
      if_pos (by omega), strchrNext_append hpre, ih rest _ hrest (by simp; omega),
      tokens_append hpre]
    simp

theorem cmdline_init_eq (s : List Byte) : cmdline_init s = some ((tokens s).map argOf) := by
  rw [cmdline_init, init_loop_spec _ _ s [] rfl (by simp)]
  rfl

/-! ## §4. The queries. -/

theorem mem_of_mem_tokens (h : token ∈ tokens s) :
    ∀ x ∈ token, x ∈ s := by
  refine mem_of_mem_splitOn (ascii ' ') _ s rfl token ?_
  unfold tokens at h
  simp only at h
  split at h
  · exact (List.dropLast_sublist _).mem h
  · exact h

theorem keyOf_nul (h : 0 ∉ token) : 0 ∉ keyOf token :=
  fun hk => h ((List.takeWhile_sublist _).mem hk)

theorem valuesOf_nul (h : 0 ∉ token) : ∀ v ∈ valuesOf token, 0 ∉ v := by
  intro v hv h0
  unfold valuesOf at hv
  split at hv
  · cases hv
  · cases hv
  · next c text _ hdrop =>
      have hmem : (0 : Byte) ∈ token.dropWhile (· ≠ ascii '=') := by
        rw [hdrop]
        exact List.mem_cons_of_mem c (mem_of_mem_splitOn (ascii ',') _ text rfl v hv 0 h0)
      exact h ((List.dropWhile_sublist _).mem hmem)

theorem has_value_from_eq {values : List (List Byte)}
    (hvalues : ∀ v ∈ values, 0 ∉ v) (hvalue : 0 ∉ value) (n : Nat) :
    ∀ j, j + n = values.length →
      has_value_from values value n j = some (decide (value ∈ values.drop j)) := by
  induction n with
  | zero =>
    intro j hj
    rw [has_value_from, List.drop_of_length_le (by omega)]
    rfl
  | succ n ih =>
    intro j hj
    have hlt : j < values.length := by omega
    have hstr := strcmp_eq_zero_iff value values[j] hvalue (hvalues _ (List.getElem_mem hlt))
    rw [has_value_from, List.getElem?_eq_getElem hlt]
    simp only
    rw [List.drop_eq_getElem_cons hlt]
    by_cases he : value = values[j]
    · have hmem : value ∈ values[j] :: values.drop (j + 1) := by
        rw [← he]
        exact List.mem_cons_self
      rw [if_pos (hstr.mpr he), decide_eq_true hmem]
    · rw [if_neg (mt hstr.mp he), ih (j + 1) (by omega)]
      simp only [List.mem_cons, he, false_or]

theorem argOf_values (token : List Byte) :
    (argOf token).values.getD [] = valuesOf token
      ∧ (argOf token).value_count = (valuesOf token).length := by
  refine ⟨?_, rfl⟩
  simp only [argOf]
  split
  · next h => rw [h]; rfl
  · rfl

theorem has_value_iff (hname : 0 ∉ name) (hvalue : 0 ∉ value)
    (ts : List (List Byte)) : (∀ t ∈ ts, 0 ∉ t) →
      cmdline_has_value (ts.map argOf) name value
        = some (decide (∃ t ∈ ts, keyOf t = name ∧ value ∈ valuesOf t)) := by
  induction ts with
  | nil => intro _; simp [cmdline_has_value]
  | cons t ts ih =>
    intro hts
    have ht : 0 ∉ t := hts t List.mem_cons_self
    have hrest := ih fun u hu => hts u (List.mem_cons_of_mem t hu)
    have hkey := strcmp_eq_zero_iff name (keyOf t) hname (keyOf_nul ht)
    obtain ⟨hvals, hcount⟩ := argOf_values t
    rw [List.map_cons, cmdline_has_value, hvals, hcount, hrest]
    by_cases he : name = keyOf t
    · rw [if_pos (show strcmp name (argOf t).key = 0 from hkey.mpr he),
        has_value_from_eq (valuesOf_nul ht) hvalue _ 0 (Nat.zero_add _), Option.bind_some,
        List.drop_zero]
      by_cases hv : value ∈ valuesOf t
      · simp [hv, he]
      · simp [hv, he]
    · rw [if_neg (show ¬ strcmp name (argOf t).key = 0 from mt hkey.mp he)]
      have he' : ¬ keyOf t = name := fun h => he h.symm
      simp [he']

theorem first_arg_eq (hname : 0 ∉ name) (ts : List (List Byte)) :
    (∀ t ∈ ts, 0 ∉ t) →
      first_arg (ts.map argOf) name = (ts.find? fun t => keyOf t = name).map argOf := by
  induction ts with
  | nil => intro _; rfl
  | cons t ts ih =>
    intro hts
    have hkey := strcmp_eq_zero_iff name (keyOf t) hname (keyOf_nul (hts t List.mem_cons_self))
    have hrest := ih fun u hu => hts u (List.mem_cons_of_mem t hu)
    unfold first_arg at hrest ⊢
    rw [List.map_cons, List.find?_cons, List.find?_cons, hrest]
    by_cases he : name = keyOf t
    · have hz : (strcmp name (argOf t).key == 0) = true := beq_iff_eq.mpr (hkey.mpr he)
      rw [hz, decide_eq_true he.symm]
      rfl
    · have hz : (strcmp name (argOf t).key == 0) = false :=
        beq_eq_false_iff_ne.mpr (mt hkey.mp he)
      have he' : ¬ keyOf t = name := fun h => he h.symm
      rw [hz, decide_eq_false he']

/-- **The command-line grammar.**  For every line `cmdline_init` returns (no
wild pointer is followed, `arg_list` is large enough) and has stored the
arguments of the line's tokens, in order; and the queries answer from the
tokens. -/
theorem cmdline_grammar (s name value : CString) :
    ∃ arg_list, cmdline_init s.1 = some arg_list
      ∧ arg_list = (tokens s.1).map argOf
      ∧ (cmdline_is_enabled arg_list name.1 = true ↔ ∃ t ∈ tokens s.1, keyOf t = name.1)
      ∧ (∃ found, cmdline_has_value arg_list name.1 value.1 = some found
          ∧ (found = true ↔ ∃ t ∈ tokens s.1, keyOf t = name.1 ∧ value.1 ∈ valuesOf t))
      ∧ cmdline_get_value_count arg_list name.1
          = (((tokens s.1).find? fun t => keyOf t = name.1).map fun t => (valuesOf t).length).getD 0
      ∧ cmdline_get_values arg_list name.1
          = ((tokens s.1).find? fun t => keyOf t = name.1).bind fun t =>
              if valuesOf t = [] then none else some (valuesOf t) := by
  have htokens : ∀ t ∈ tokens s.1, 0 ∉ t := fun t ht h0 => s.2 (mem_of_mem_tokens ht 0 h0)
  refine ⟨_, cmdline_init_eq s.1, rfl, ?_, ?_, ?_, ?_⟩
  · have hkey : ∀ t ∈ tokens s.1, (strcmp name.1 (keyOf t) = 0 ↔ keyOf t = name.1) :=
      fun t ht => (strcmp_eq_zero_iff name.1 (keyOf t) name.2 (keyOf_nul (htokens t ht))).trans
        eq_comm
    simp only [cmdline_is_enabled, List.any_map, List.any_eq_true, Function.comp_apply,
      beq_iff_eq]
    exact exists_congr fun t => and_congr_right fun ht => hkey t ht
  · exact ⟨_, has_value_iff name.2 value.2 _ htokens, decide_eq_true_iff⟩
  · rw [cmdline_get_value_count, first_arg_eq name.2 _ htokens]
    cases (tokens s.1).find? fun t => keyOf t = name.1 <;> rfl
  · rw [cmdline_get_values, first_arg_eq name.2 _ htokens]
    cases (tokens s.1).find? fun t => keyOf t = name.1 <;> rfl

end Quack.Cmdline
