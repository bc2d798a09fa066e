/-
  Quack.Util.StringSearch
  **`strncmp`, `strstr` AND `strpbrk` (`string.cpp`).**

  The strings are lists as in `Quack.Util.Strings`, and `[]` is a pointer to the
  NUL.  A read behind the NUL is `none`.

    • `strncmp_right_iff` — `strncmp` has no test for the NUL.
    • `search_right_iff` — `strstr` expects two characters, and `strpbrk` returns
      the pointer into the other string.
-/
import Quack.Util.Strings
import Mathlib.Data.List.Infix

namespace Quack.Util

/-! ## §1. `strncmp`. -/

def strncmp_from : (n i : Nat) → List Byte → List Byte → Option (Int × Nat)
  | 0, i, str1, str2 => some ((str1.headD 0).toInt - (str2.headD 0).toInt, i + 1)
  | n + 1, i, str1, str2 =>
    if str1.headD 0 = str2.headD 0 then
      match str1, str2 with
      | _ :: str1, _ :: str2 => strncmp_from n (i + 1) str1 str2
      | _, _ => none
    else some ((str1.headD 0).toInt - (str2.headD 0).toInt, i + 1)

def strncmp (str1 str2 : List Byte) (len : BitVec 64) : Option (Int × Nat) :=
  strncmp_from (len - 1).toNat 0 str1 str2

def firstDifference (n : Nat) (str1 str2 : List Byte) : Int :=
  match (((str1 ++ [0]).zip (str2 ++ [0])).take n).find? (fun p : Byte × Byte => p.1 ≠ p.2) with
  | none => 0
  | some p => p.1.toInt - p.2.toInt

variable {str1 str2 : List Byte}

theorem firstDifference_first {n : Nat} (h : n = 0 ∨ str1.headD 0 ≠ str2.headD 0) :
    firstDifference (n + 1) str1 str2 = (str1.headD 0).toInt - (str2.headD 0).toInt := by
  have hcons : ∀ str : List Byte, str ++ [0] = str.headD 0 :: (str ++ [0]).tail := by
    intro str
    cases str <;> rfl
  rw [firstDifference, hcons str1, hcons str2, List.zip_cons_cons, List.take_succ_cons,
    List.find?_cons]
  generalize str1.headD 0 = a, str2.headD 0 = b at h
  by_cases hne : a = b
  · obtain rfl := h.resolve_right (not_not.mpr hne)
    simp [hne]
  · simp [hne]

theorem strncmp_from_eq (n i : Nat) (h1 : 0 ∉ str1) (h2 : 0 ∉ str2) :
    if str1 = str2 ∧ str1.length < n then strncmp_from n i str1 str2 = none
    else ∃ k, i < k ∧ k ≤ i + n + 1
      ∧ strncmp_from n i str1 str2 = some (firstDifference (n + 1) str1 str2, k) := by
  fun_induction strncmp_from n i str1 str2 with
  | case1 i str1 str2 =>
    rw [if_neg (by omega), firstDifference_first (Or.inl rfl)]
    exact ⟨_, by omega, by omega, rfl⟩
  | case2 n i a str1 b str2 hab ih =>
    obtain rfl : a = b := hab
    have hnext : firstDifference (n + 1 + 1) (a :: str1) (a :: str2)
        = firstDifference (n + 1) str1 str2 := by
      simp [firstDifference]
    have ih := ih (fun h => h1 (List.mem_cons_of_mem a h)) (fun h => h2 (List.mem_cons_of_mem a h))
    simp only [List.cons.injEq, true_and, List.length_cons, Nat.succ_lt_succ_iff]
    split at ih
    · rwa [if_pos ‹_›]
    · obtain ⟨k, hlo, hhi, hrun⟩ := ih
      rw [if_neg ‹_›, hnext]
      exact ⟨k, by omega, by omega, hrun⟩
  | case3 n i str1 str2 hab hnil =>
    cases str1 with
    | nil =>
      cases str2 with
      | nil => rw [if_pos ⟨rfl, Nat.succ_pos n⟩]
      | cons b str2 => exact absurd (List.mem_cons.mpr (Or.inl hab)) h2
    | cons a str1 =>
      cases str2 with
      | nil => exact absurd (List.mem_cons.mpr (Or.inl hab.symm)) h1
      | cons b str2 => exact absurd rfl (hnil a str1 b str2 rfl)
  | case4 n i str1 str2 hab =>
    rw [if_neg fun h => hab (by rw [h.1]), firstDifference_first (Or.inr hab)]
    exact ⟨_, by omega, by omega, rfl⟩

/-- **When `strncmp` is right**: there is something to compare, and equal strings are not
shorter. -/
theorem strncmp_right_iff (len : BitVec 64) (h1 : 0 ∉ str1) (h2 : 0 ∉ str2) :
    (∃ r k, strncmp str1 str2 len = some (r, k)
        ∧ r.sign = (firstDifference len.toNat str1 str2).sign ∧ k ≤ len.toNat)
      ↔ len ≠ 0 ∧ (str1 = str2 → len.toNat ≤ str1.length + 1) := by
  have hrun := strncmp_from_eq (len - 1).toNat 0 h1 h2
  have hlen : len ≠ 0 → (len - 1).toNat + 1 = len.toNat := by bv_omega
  change if _ then strncmp str1 str2 len = none else ∃ k, _ ∧ _ ∧ strncmp str1 str2 len = _ at hrun
  split at hrun
  · refine iff_of_false (by simp [hrun]) fun hright => ?_
    have := hlen hright.1
    have := hright.2 (And.left ‹_›)
    omega
  · obtain ⟨k, hlo, hhi, hrun⟩ := hrun
    simp only [hrun, Option.some.injEq, Prod.mk.injEq]
    constructor
    · rintro ⟨_, _, ⟨rfl, rfl⟩, -, hk⟩
      have hne : len ≠ 0 := by
        rintro rfl
        exact absurd hk (Nat.not_le.mpr hlo)
      refine ⟨hne, fun heq => ?_⟩
      have := hlen hne
      by_contra hlt
      exact absurd ⟨heq, by omega⟩ ‹¬ (_ ∧ _)›
    · intro hright
      rw [hlen hright.1]
      exact ⟨_, k, ⟨rfl, rfl⟩, rfl, by have := hlen hright.1; omega⟩

theorem strncmp_right_elf :
    ∃ r k, strncmp (bytes ['E', 'L', 'F']) (bytes ['E', 'L', 'G']) 3 = some (r, k)
      ∧ r.sign = (firstDifference 3 (bytes ['E', 'L', 'F']) (bytes ['E', 'L', 'G'])).sign ∧ k ≤ 3 :=
  (strncmp_right_iff 3 (by decide) (by decide)).mpr (by decide)

/-- Equal strings with a larger bound, and a bound of 0. -/
theorem strncmp_behind_nul : strncmp (bytes ['a']) (bytes ['a']) 3 = none
    ∧ strncmp (bytes ['a']) (bytes ['b']) 0 = some (-1, 1) := by
  decide

/-! ## §2. `strstr` and `strpbrk`. -/

/-- How the inner loop of `strstr` is left. -/
inductive Inner where
  | found
  | ended
  | differs
  deriving Repr, DecidableEq

/-- The inner loop of `strstr`, the strings from `i` on. -/
def strstr_inner : List Byte → List Byte → Option Inner
  | a :: str1, b :: str2 =>
    if a ≠ b then some .differs
    else if str2 = [] then some .found
    else if str1 = [] then some .ended
    else strstr_inner str1 str2
  -- the two NULs are equal, and the next character of `str2` is behind its own
  | [], [] => none
  | _, _ => some .differs

/-- `strstr`: the string from the place found on. -/
def strstr (str2 : List Byte) : List Byte → Option (Option (List Byte))
  | [] => some none
  | c :: str1 =>
    if str2.head? = some c then
      match strstr_inner str1 str2.tail with
      | none => none
      | some .found => some (some (c :: str1))
      | some .ended => some none
      | some .differs => strstr str2 str1
    else strstr str2 str1

def strpbrk (targets str : List Byte) : Option Nat :=
  str.findSome? fun c => if c ∈ targets then some (targets.idxOf c) else none

/-- What is left of a string when the needle is found, or `none`. -/
def firstOccurrence (needle str : List Byte) : Option (List Byte) :=
  str.tails.find? (needle.isPrefixOf ·)

variable {x y : List Byte}

theorem strstr_inner_eq (hy : y ≠ []) : strstr_inner x y
    = some (if y <+: x then .found else if x <+: y ∧ x ≠ [] then .ended else .differs) := by
  fun_induction strstr_inner x y with
  | case1 a str1 b str2 hab => simp [List.cons_prefix_cons, hab, Ne.symm hab]
  | case2 a str1 b hab =>
    obtain rfl := not_ne_iff.mp hab
    simp [List.cons_prefix_cons]
  | case3 a b str2 hab hne =>
    obtain rfl := not_ne_iff.mp hab
    simp [List.cons_prefix_cons, hne]
  | case4 a str1 b str2 hab hne2 hne1 ih =>
    obtain rfl := not_ne_iff.mp hab
    rw [ih hne2]
    simp [List.cons_prefix_cons, hne1]
  | case5 => exact absurd rfl hy
  | case6 x y hcons hnil =>
    cases x with
    | nil => simp [hy]
    | cons a x =>
      cases y with
      | nil => exact absurd rfl hy
      | cons b y => exact absurd rfl (hcons a x b y rfl)

theorem firstOccurrence_cons (needle : List Byte) (c : Byte) (str : List Byte) :
    firstOccurrence needle (c :: str)
      = if needle <+: c :: str then some (c :: str) else firstOccurrence needle str := by
  rw [firstOccurrence, List.tails_cons, List.find?_cons]
  split
  · rw [if_pos (List.isPrefixOf_iff_prefix.mp ‹_›)]
  · rw [if_neg (by rw [← List.isPrefixOf_iff_prefix]; simp_all), firstOccurrence]

theorem firstOccurrence_short {needle str : List Byte} (h : str.length < needle.length) :
    firstOccurrence needle str = none := by
  refine List.find?_eq_none.mpr fun x hx hp => ?_
  have hle := (List.isPrefixOf_iff_prefix.mp hp).length_le
  have := ((List.mem_tails x str).mp hx).length_le
  omega

theorem strstr_long {c d : Byte} {m : List Byte} (str : List Byte) :
    strstr (c :: d :: m) str = some (firstOccurrence (c :: d :: m) str) := by
  induction str with
  | nil => rw [firstOccurrence_short (by simp), strstr]
  | cons a str ih =>
    rw [strstr, firstOccurrence_cons, List.tail_cons, strstr_inner_eq (by simp), ih]
    simp only [List.cons_prefix_cons (a := c), List.head?_cons, Option.some.injEq]
    by_cases hca : c = a
    · rw [if_pos hca]
      by_cases hfound : d :: m <+: str
      · simp only [hca, hfound, if_true, and_self]
      · by_cases hend : str <+: d :: m ∧ str ≠ []
        · -- what is left of `str` is shorter than the needle
          have hlt : str.length < (c :: d :: m).length := Nat.lt_succ_of_le hend.1.length_le
          simp only [hca, hfound, if_pos hend, if_false, and_false]
          rw [firstOccurrence_short (hca ▸ hlt)]
        · simp only [hca, hfound, hend, if_false, and_false]
    · simp only [hca, if_false, false_and]

theorem strstr_short {needle : List Byte} (h : needle.length ≤ 1) (str : List Byte) :
    (∀ r, strstr needle str ≠ some (some r))
      ∧ ((∀ c ∈ needle, c ∉ str) → strstr needle str = some none) := by
  induction str with
  | nil => simp [strstr]
  | cons a str ih =>
    have htail : needle.tail = [] := List.length_eq_zero_iff.mp (by rw [List.length_tail]; omega)
    rw [strstr, htail]
    split
    · next hhead =>
        refine ⟨fun r => ?_, fun hno => ?_⟩
        · cases str with
          | nil => simp [strstr_inner]
          | cons b str => simpa [strstr_inner] using ih.1 r
        · exact absurd List.mem_cons_self (hno a (List.mem_of_mem_head? hhead))
    · exact ⟨ih.1, fun hno => ih.2 fun c hc hmem => hno c hc (List.mem_cons_of_mem a hmem)⟩

/-- **When the searches are right.**  `strstr` misses a needle of one character, and reads
behind it if it is the last one of `str`; it finds an empty one nowhere.  `strpbrk` gives a
place in `targets`, which is the place in `str` only if they are the same in memory. -/
theorem search_right_iff (str needle targets : List Byte) (at_str at_targets : Nat) :
    (strstr needle str = some (firstOccurrence needle str)
        ↔ 2 ≤ needle.length ∨ ∃ c, needle = [c] ∧ c ∉ str)
      ∧ ((((∀ c ∈ str, c ∉ targets) → strpbrk targets str = none)
          ∧ ∀ p c x, str = p ++ c :: x → (∀ d ∈ p, d ∉ targets) → c ∈ targets →
            ∃ k, strpbrk targets str = some k ∧ at_targets + k = at_str + p.length)
        ↔ ∀ p c x, str = p ++ c :: x → (∀ d ∈ p, d ∉ targets) → c ∈ targets →
          at_targets + targets.idxOf c = at_str + p.length) := by
  have hnone : ∀ p : List Byte, (∀ d ∈ p, d ∉ targets) → strpbrk targets p = none :=
    fun p hp => List.findSome?_eq_none_iff.mpr fun d hd => if_neg (hp d hd)
  have hfirst : ∀ p c x, (∀ d ∈ p, d ∉ targets) → c ∈ targets →
      strpbrk targets (p ++ c :: x) = some (targets.idxOf c) := by
    intro p c x hp hc
    have hnone := hnone p hp
    rw [strpbrk] at hnone ⊢
    rw [List.findSome?_append, hnone, Option.none_or, List.findSome?_cons, if_pos hc]
  constructor
  · rcases needle with _ | ⟨c, _ | ⟨d, m⟩⟩
    · refine iff_of_false ?_ (by simp)
      have hwhole : firstOccurrence [] str = some str := by cases str <;> rfl
      rw [hwhole]
      exact (strstr_short (by simp) str).1 str
    · by_cases hc : c ∈ str
      · refine iff_of_false ?_ (by simp [hc])
        obtain ⟨r, hr⟩ : ∃ r, firstOccurrence [c] str = some r := by
          refine Option.isSome_iff_exists.mp (List.find?_isSome.mpr ?_)
          obtain ⟨p, x, rfl⟩ := List.append_of_mem hc
          exact ⟨c :: x, (List.mem_tails _ _).mpr (List.suffix_append _ _), by simp⟩
        rw [hr]
        exact (strstr_short (by simp) str).1 r
      · refine iff_of_true ?_ (Or.inr ⟨c, rfl, hc⟩)
        rw [(strstr_short (by simp) str).2 (by simpa using hc)]
        refine congrArg some (Eq.symm (List.find?_eq_none.mpr fun x hx hp => hc ?_))
        exact ((List.mem_tails x str).mp hx).subset
          ((List.isPrefixOf_iff_prefix.mp hp).subset List.mem_cons_self)
    · exact iff_of_true (strstr_long str) (Or.inl (by simp))
  · refine ⟨fun h p c x hstr hp hc => ?_, fun h => ⟨hnone str, fun p c x hstr hp hc => ?_⟩⟩
    · obtain ⟨k, hk, hat⟩ := h.2 p c x hstr hp hc
      rw [hstr, hfirst p c x hp hc] at hk
      rwa [Option.some.inj hk]
    · exact ⟨_, by rw [hstr, hfirst p c x hp hc], h p c x hstr hp hc⟩

/-- A needle of one character, found nowhere or with a read behind it; and a character found
in `targets`. -/
theorem search_wrong : strstr (bytes ['a']) (bytes ['a', 'b']) = some none
    ∧ strstr (bytes ['a']) (bytes ['a']) = none ∧ strstr [] (bytes ['a']) = some none
    ∧ strpbrk (bytes ['x', 'b']) (bytes ['b']) = some 1 := by
  decide

end Quack.Util
