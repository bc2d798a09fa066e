/-
  Quack.Util.Strings
  **C STRINGS.**

  A C string that is only read is the list of bytes before its NUL; a pointer
  into it is the rest of the string from there on.
-/
import Mathlib.Data.List.Basic

namespace Quack.Util

abbrev Byte := BitVec 8

/-- The code of an ASCII character. -/
def ascii (c : Char) : Byte := BitVec.ofNat 8 c.toNat

/-- The bytes of a string literal, without the NUL. -/
def bytes (s : List Char) : List Byte := s.map ascii

/-- `isdigit`. -/
def isdigit (ch : Byte) : Bool := 0x30 ≤ ch && ch ≤ 0x39

/-- A C string: no byte of it is NUL. -/
abbrev CString := { s : List Byte // 0 ∉ s }

/-- `strcmp`. -/
def strcmp : List Byte → List Byte → Int
  | [], [] => 0
  | a :: _, [] => a.toInt
  | [], b :: _ => -b.toInt
  | a :: str1, b :: str2 => if a = b then strcmp str1 str2 else a.toInt - b.toInt

/-- `strchr`: the string from the first `ch` on. -/
def strchr (ch : Byte) : List Byte → Option (List Byte)
  | [] => none
  | c :: str => if c = ch then some (c :: str) else strchr ch str

/-- `count_chars`. -/
def count_chars (chr : Byte) : List Byte → Nat
  | [] => 0
  | c :: str => count_chars chr str + if c = chr then 1 else 0

theorem strcmp_eq_zero_iff (str1 : List Byte) :
    ∀ str2, 0 ∉ str1 → 0 ∉ str2 → (strcmp str1 str2 = 0 ↔ str1 = str2) := by
  induction str1 with
  | nil =>
    intro str2 _ h2
    cases str2 with
    | nil => exact ⟨fun _ => rfl, fun _ => rfl⟩
    | cons b str2 =>
      refine ⟨fun h => ?_, fun h => by cases h⟩
      refine absurd (BitVec.eq_of_toInt_eq (x := b) (y := 0) ?_)
        (fun h0 => h2 (h0 ▸ List.mem_cons_self))
      have hz : (0 : Byte).toInt = 0 := rfl
      rw [strcmp] at h
      omega
  | cons a str1 ih =>
    intro str2 h1 h2
    cases str2 with
    | nil =>
      refine ⟨fun h => ?_, fun h => by cases h⟩
      exact absurd (BitVec.eq_of_toInt_eq (x := a) (y := 0) h)
        (fun h0 => h1 (h0 ▸ List.mem_cons_self))
    | cons b str2 =>
      rw [strcmp, List.cons.injEq]
      by_cases hab : a = b
      · rw [if_pos hab, ih str2 (fun h => h1 (List.mem_cons_of_mem a h))
          (fun h => h2 (List.mem_cons_of_mem b h))]
        exact ⟨fun h => ⟨hab, h⟩, And.right⟩
      · rw [if_neg hab]
        refine ⟨fun h => absurd (BitVec.eq_of_toInt_eq ?_) hab, fun h => absurd h.1 hab⟩
        omega

variable {ch chr : Byte}

theorem strchr_eq_none (str : List Byte) : ch ∉ str → strchr ch str = none := by
  induction str with
  | nil => intro _; rfl
  | cons c str ih =>
    intro h
    rw [strchr, if_neg (fun hc : c = ch => h (hc ▸ List.mem_cons_self)),
      ih (fun hm => h (List.mem_cons_of_mem c hm))]

theorem strchr_append (pre rest : List Byte) :
    ch ∉ pre → strchr ch (pre ++ ch :: rest) = some (ch :: rest) := by
  induction pre with
  | nil =>
    intro _
    rw [List.nil_append, strchr, if_pos rfl]
  | cons c pre ih =>
    intro h
    rw [List.cons_append, strchr, if_neg (fun hc : c = ch => h (hc ▸ List.mem_cons_self)),
      ih (fun hm => h (List.mem_cons_of_mem c hm))]

theorem count_chars_eq_zero (str : List Byte) :
    count_chars chr str = 0 → chr ∉ str := by
  induction str with
  | nil => intro _; exact List.not_mem_nil
  | cons c str ih =>
    intro h
    simp only [count_chars] at h
    split at h
    · omega
    · next hc =>
        rw [List.mem_cons, not_or]
        exact ⟨fun he => hc he.symm, ih (by omega)⟩

theorem exists_split {n : Nat} (str : List Byte) :
    count_chars chr str = n + 1 →
      ∃ pre rest, str = pre ++ chr :: rest ∧ chr ∉ pre ∧ count_chars chr rest = n := by
  induction str with
  | nil => intro h; cases h
  | cons c str ih =>
    intro h
    rw [count_chars] at h
    by_cases hc : c = chr
    · rw [if_pos hc] at h
      exact ⟨[], str, by rw [hc]; rfl, List.not_mem_nil, Nat.succ.inj h⟩
    · rw [if_neg hc, Nat.add_zero] at h
      obtain ⟨pre, rest, rfl, hpre, hn⟩ := ih h
      refine ⟨c :: pre, rest, rfl, ?_, hn⟩
      rw [List.mem_cons, not_or]
      exact ⟨fun he => hc he.symm, hpre⟩

theorem splitOn_append {pre : List Byte} (hpre : chr ∉ pre) (rest : List Byte) :
    (pre ++ chr :: rest).splitOn chr = pre :: rest.splitOn chr := by
  refine List.splitOnP_append_cons_of_forall_mem (p := (· == chr)) (fun x hx => ?_) chr
    (beq_self_eq_true chr) rest
  exact beq_eq_false_iff_ne.mpr fun he => hpre (he ▸ hx)

theorem length_splitOn (chr : Byte) (n : Nat) :
    ∀ str, count_chars chr str = n → (str.splitOn chr).length = n + 1 := by
  induction n with
  | zero =>
    intro str h
    rw [List.splitOn_eq_singleton (count_chars_eq_zero str h)]
    rfl
  | succ n ih =>
    intro str h
    obtain ⟨pre, rest, rfl, hpre, hrest⟩ := exists_split str h
    rw [splitOn_append hpre, List.length_cons, ih rest hrest]

theorem mem_of_mem_splitOn (chr : Byte) (n : Nat) :
    ∀ str, count_chars chr str = n → ∀ piece ∈ str.splitOn chr, ∀ x ∈ piece, x ∈ str := by
  induction n with
  | zero =>
    intro str h piece hpiece x hx
    rw [List.splitOn_eq_singleton (count_chars_eq_zero str h)] at hpiece
    exact List.mem_singleton.mp hpiece ▸ hx
  | succ n ih =>
    intro str h piece hpiece x hx
    obtain ⟨pre, rest, rfl, hpre, hrest⟩ := exists_split str h
    rw [splitOn_append hpre] at hpiece
    rcases List.mem_cons.mp hpiece with rfl | hpiece
    · exact List.mem_append_left _ hx
    · exact List.mem_append_right _ (List.mem_cons_of_mem chr (ih rest hrest piece hpiece x hx))

end Quack.Util
