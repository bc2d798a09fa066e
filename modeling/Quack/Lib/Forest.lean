/-
  Quack.Lib.Forest
  **TREES OF TABLES IN ONE MEMORY.**

  Tables live in numbered frames; a slot of a table may name a child frame
  (`child`).  Following the slots of a path from a root is a `walk`.  A TYPING
  assigns to a frame the root it belongs to and its path from there; positions
  marked `inner` must only name frames typed as the corresponding child.
-/
import Mathlib

namespace Quack.Lib.Forest

variable {W : Type} (child : W → Option Nat)

/-! ## §1. Walks. -/

/-- The frame reached from `r` along `path`. -/
def walk (slot : Nat → Nat → W) (r : Nat) (path : List Nat) : Option Nat :=
  path.foldlM (fun f i => child (slot f i)) r

@[simp] theorem walk_nil (slot : Nat → Nat → W) (r : Nat) : walk child slot r [] = some r := rfl

theorem walk_cons (slot : Nat → Nat → W) (r i : Nat) (path : List Nat) :
    walk child slot r (i :: path) = (child (slot r i)).bind (fun f => walk child slot f path) :=
  rfl

theorem walk_snoc (slot : Nat → Nat → W) (r i : Nat) (path : List Nat) :
    walk child slot r (path ++ [i])
      = (walk child slot r path).bind (fun f => child (slot f i)) := by
  unfold walk
  rw [List.foldlM_append]
  simp only [List.foldlM_cons, List.foldlM_nil, bind_pure]
  rfl

/-! ## §2. Typings. -/

/-- Inner positions of typed frames name frames typed as their children. -/
def Typing (slot : Nat → Nat → W) (G : Nat → Option (Nat × List Nat))
    (inner : List Nat → Nat → Prop) : Prop :=
  ∀ f r p i c, G f = some (r, p) → inner p i → child (slot f i) = some c →
    G c = some (r, p ++ [i])

/-- A path all of whose steps are inner positions. -/
def Inner (inner : List Nat → Nat → Prop) (path : List Nat) : Prop :=
  ∀ p i rest, path = p ++ i :: rest → inner p i

variable {child}
variable {inner : List Nat → Nat → Prop}

theorem Inner.snoc {p : List Nat} {i : Nat} (h : Inner inner (p ++ [i])) :
    Inner inner p ∧ inner p i := by
  constructor
  · intro q j rest hq
    exact h q j (rest ++ [i]) (by rw [hq, List.append_assoc, List.cons_append])
  · exact h p i [] rfl

variable {slot slot' : Nat → Nat → W} {G : Nat → Option (Nat × List Nat)}

theorem walk_typed (hT : Typing child slot G inner) {r : Nat} (hr : G r = some (r, [])) :
    ∀ (p : List Nat), Inner inner p → ∀ f, walk child slot r p = some f → G f = some (r, p) := by
  intro p
  induction p using List.reverseRecOn with
  | nil =>
    intro _ f h
    rw [walk_nil] at h
    injection h with h
    subst h
    exact hr
  | append_singleton p i ih =>
    intro hp f h
    obtain ⟨hp, hi⟩ := hp.snoc
    rw [walk_snoc, Option.bind_eq_some_iff] at h
    obtain ⟨g, hg, hchild⟩ := h
    exact hT g r p i f (ih hp g hg) hi hchild

theorem walk_congr (hT : Typing child slot G inner) {r : Nat} (hr : G r = some (r, []))
    (hagree : ∀ f p i, G f = some (r, p) → inner p i → slot' f i = slot f i) :
    ∀ (p : List Nat), Inner inner p → walk child slot' r p = walk child slot r p := by
  intro p
  induction p using List.reverseRecOn with
  | nil =>
    intro _
    rfl
  | append_singleton p i ih =>
    intro hp
    obtain ⟨hp, hi⟩ := hp.snoc
    rw [walk_snoc, walk_snoc, ih hp]
    cases hw : walk child slot r p with
    | none => rfl
    | some g =>
      show child (slot' g i) = child (slot g i)
      rw [hagree g p i (walk_typed hT hr p hp g hw) hi]

theorem walk_grow (hT : Typing child slot G inner) {r f i c : Nat} {p : List Nat}
    (hf : G f = some (r, p)) (hnone : child (slot f i) = none) (hsome : child (slot' f i) = some c)
    (hempty : ∀ j, inner (p ++ [i]) j → child (slot' c j) = none)
    (hagree : ∀ g r' q j, G g = some (r', q) → inner q j → ¬ (g = f ∧ j = i) →
      slot' g j = slot g j) {r' : Nat} (hr : G r' = some (r', [])) :
    ∀ (q : List Nat), Inner inner q →
      walk child slot' r' q = walk child slot r' q
      ∨ (r' = r ∧ q = p ++ [i] ∧ walk child slot r' q = none
          ∧ walk child slot' r' q = some c) := by
  intro q
  induction q using List.reverseRecOn with
  | nil =>
    intro _
    exact Or.inl rfl
  | append_singleton q j ih =>
    intro hq
    obtain ⟨hq, hj⟩ := hq.snoc
    rw [walk_snoc, walk_snoc]
    rcases ih hq with hsame | ⟨rfl, rfl, hbefore, hafter⟩
    · rw [hsame]
      cases hw : walk child slot r' q with
      | none => exact Or.inl rfl
      | some g =>
        have hg := walk_typed hT hr q hq g hw
        by_cases hgf : g = f ∧ j = i
        · -- the walk arrives at the changed slot
          obtain ⟨rfl, rfl⟩ := hgf
          rw [hf] at hg
          injection hg with hg
          injection hg with h1 h2
          subst h1 h2
          exact Or.inr ⟨rfl, rfl, hnone, hsome⟩
        · left
          show child (slot' g j) = child (slot g j)
          rw [hagree g r' q j hg hj hgf]
    · -- one step further: nothing is linked below the new table
      left
      rw [hbefore, hafter]
      show child (slot' c j) = none
      exact hempty j hj

end Quack.Lib.Forest
