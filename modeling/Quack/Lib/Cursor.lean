/-
  Quack.Lib.Cursor
  **POINTERS INTO A LINKED LIST.**

  A pointer to an element of a doubly linked list is a `Cursor`: the element
  with what precedes and follows it.  Reading or writing through the pointer,
  unlinking the element and linking another one before it are operations on
  the cursor; a `for` loop over the list visits `cursors l`, first to last.
-/
import Mathlib.Data.List.Perm.Basic

namespace Quack.Lib

/-- An element of a list, with its place. -/
structure Cursor (α : Type*) where
  before : List α
  elem : α
  after : List α
  deriving Repr, DecidableEq

namespace Cursor

variable {α : Type*}

/-! ## §1. Operations. -/

/-- The list the cursor points into. -/
def toList (c : Cursor α) : List α := c.before ++ c.elem :: c.after

/-- Write through the pointer. -/
def set (c : Cursor α) (x : α) : Cursor α := { c with elem := x }

/-- Unlink the element. -/
def erase (c : Cursor α) : List α := c.before ++ c.after

/-- Link `x` before the element, and point at it. -/
def insert (c : Cursor α) (x : α) : Cursor α := ⟨c.before, x, c.elem :: c.after⟩

/-- Link `x` at the end, and point at it. -/
def push_back (l : List α) (x : α) : Cursor α := ⟨l, x, []⟩

/-- The places of `l` after the elements `before`. -/
def cursorsFrom (before : List α) : List α → List (Cursor α)
  | [] => []
  | x :: xs => ⟨before, x, xs⟩ :: cursorsFrom (before ++ [x]) xs

/-- All places of a list, first to last. -/
def cursors (l : List α) : List (Cursor α) := cursorsFrom [] l

/-- The pointer to the element at an index. -/
def at? (l : List α) (i : Nat) : Option (Cursor α) := (cursors l)[i]?

/-! ## §2. What they leave in the list. -/

@[simp] theorem set_elem (c : Cursor α) (x : α) : (c.set x).elem = x := rfl

@[simp] theorem set_erase (c : Cursor α) (x : α) : (c.set x).erase = c.erase := rfl

theorem toList_perm (c : Cursor α) : c.toList.Perm (c.elem :: c.erase) :=
  List.perm_middle

theorem set_perm (c : Cursor α) (x : α) : (c.set x).toList.Perm (x :: c.erase) :=
  List.perm_middle

theorem insert_perm (c : Cursor α) (x : α) : (c.insert x).toList.Perm (x :: c.toList) :=
  List.perm_middle

variable {c : Cursor α} {x : α} {l : List α} {p : α → Bool}

theorem map_set_toList {β : Type*} (f : α → β) (h : f x = f c.elem) :
    (c.set x).toList.map f = c.toList.map f := by
  simp [toList, set, h]

theorem mem_toList (c : Cursor α) : c.elem ∈ c.toList := by
  simp [toList]

theorem elem_mem (h : c.toList = l) : c.elem ∈ l := by
  rw [← h]
  exact c.mem_toList

theorem mem_of_erase (h : c.toList = l) (hx : x ∈ c.erase) :
    x ∈ l := by
  rw [← h]
  exact c.toList_perm.mem_iff.mpr (List.mem_cons_of_mem _ hx)

theorem eq_or_mem {d : Cursor α} (h : c.toList = d.toList) :
    c = d ∨ (c.elem ∈ d.before ∧ d.elem ∈ c.after) ∨ (d.elem ∈ c.before ∧ c.elem ∈ d.after) := by
  obtain ⟨cb, cx, ca⟩ := c
  obtain ⟨db, dx, da⟩ := d
  have hlist : cb ++ cx :: ca = db ++ dx :: da := h
  rcases List.append_eq_append_iff.mp hlist with ⟨mid, hb, ha⟩ | ⟨mid, hb, ha⟩
  -- the part between the two places
  all_goals
    cases mid with
    | nil =>
      rw [List.append_nil] at hb
      rw [List.nil_append, List.cons.injEq] at ha
      simp [hb, ha]
    | cons y mid =>
      rw [List.cons_append, List.cons.injEq] at ha
      simp [hb, ha]

/-! ## §3. The places of a list. -/

theorem cursorsFrom_toList :
    ∀ {l before : List α}, c ∈ cursorsFrom before l → c.toList = before ++ l
  | [], before, h => by cases h
  | x :: xs, before, h => by
    rcases List.mem_cons.mp h with rfl | h
    · rfl
    · rw [cursorsFrom_toList h, List.append_assoc]
      rfl

theorem toList_of_mem (h : c ∈ cursors l) : c.toList = l :=
  cursorsFrom_toList h

theorem toList_of_at? {i : Nat} (h : at? l i = some c) :
    c.toList = l :=
  toList_of_mem (List.mem_of_getElem? h)

theorem map_elem_cursorsFrom :
    ∀ (l before : List α), (cursorsFrom before l).map elem = l
  | [], _ => rfl
  | x :: xs, before => by
    show x :: (cursorsFrom (before ++ [x]) xs).map elem = x :: xs
    rw [map_elem_cursorsFrom xs]

theorem map_elem_cursors (l : List α) : (cursors l).map elem = l :=
  map_elem_cursorsFrom l []

theorem exists_cursor_of_mem (h : x ∈ l) :
    ∃ c ∈ cursors l, c.elem = x := by
  rw [← map_elem_cursors l] at h
  obtain ⟨c, hc, he⟩ := List.mem_map.mp h
  exact ⟨c, hc, he⟩

theorem find?_cursorsFrom :
    ∀ {l before : List α}, (cursorsFrom before l).find? (fun c => p c.elem) = some c →
      p c.elem = true ∧ ∀ x ∈ c.before, x ∈ before ∨ p x = false
  | [], before, h => by cases h
  | x :: xs, before, h => by
    rw [cursorsFrom, List.find?_cons] at h
    cases hx : p x with
    | true =>
      simp only [hx, Option.some.injEq] at h
      subst h
      exact ⟨hx, fun y hy => Or.inl hy⟩
    | false =>
      simp only [hx] at h
      obtain ⟨hp, hbefore⟩ := find?_cursorsFrom h
      refine ⟨hp, fun y hy => ?_⟩
      rcases hbefore y hy with hy | hy
      · rcases List.mem_append.mp hy with hy | hy
        · exact Or.inl hy
        · exact Or.inr (by rw [List.mem_singleton.mp hy]; exact hx)
      · exact Or.inr hy

theorem find?_cursors (h : (cursors l).find? (fun c => p c.elem) = some c) :
    p c.elem = true ∧ ∀ x ∈ c.before, p x = false := by
  obtain ⟨hp, hbefore⟩ := find?_cursorsFrom h
  refine ⟨hp, fun x hx => ?_⟩
  rcases hbefore x hx with hnil | hfalse
  · cases hnil
  · exact hfalse

theorem find?_cursorsFrom_eq {after : List α} (hp : p x = true) :
    ∀ {mid pre : List α}, (∀ y ∈ mid, p y = false) →
      (cursorsFrom pre (mid ++ x :: after)).find? (fun c => p c.elem)
        = some ⟨pre ++ mid, x, after⟩
  | [], pre, _ => by simp [cursorsFrom, hp]
  | y :: mid, pre, h => by
    rw [List.cons_append, cursorsFrom, List.find?_cons_of_neg (by simp [h y]),
      find?_cursorsFrom_eq hp fun z hz => h z (List.mem_cons_of_mem y hz), List.append_assoc]
    rfl

theorem find?_cursors_eq (hp : p c.elem = true)
    (hbefore : ∀ x ∈ c.before, p x = false) :
    (cursors c.toList).find? (fun c => p c.elem) = some c :=
  find?_cursorsFrom_eq hp hbefore

end Cursor

end Quack.Lib
