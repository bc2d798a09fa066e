/-
  Quack.Lib.Prog
  **STATEFUL PROGRAMS THAT MAY STOP.**

  `Prog σ α` is a program over a state `σ` that returns an `α`, or stops the
  machine (a failed assertion, a fault, an index out of range).  It is the
  library's `StateT σ Option`; what is added here are the inversion lemmas that
  take a successful execution apart (`bind_eq_some` and its relatives), and the
  rule for loops that thread an accumulator.
-/
import Mathlib.Data.List.Basic

namespace Quack.Lib

/-- A program over `σ` that may stop. -/
abbrev Prog (σ α : Type) := StateT σ Option α

namespace Prog

variable {σ α β : Type}

/-! ## §1. The primitives. -/

/-- Stop the machine. -/
def fault : Prog σ α := fun _ => none

/-- Go on only if `c` holds. -/
def check (c : Prop) [Decidable c] : Prog σ Unit := if c then pure () else fault

/-- Go on with the value of `o`, if it has one. -/
def ofOption (o : Option α) : Prog σ α := fun s => o.map (fun a => (a, s))

/-- A part of the current state. -/
def read (f : σ → α) : Prog σ α := fun s => some (f s, s)

/-- Replace the state. -/
def update (f : σ → σ) : Prog σ Unit := fun s => some ((), f s)

variable {a : α} {s s' : σ} {f : α → Prog σ β} {x : Prog σ α}

@[simp] theorem pure_eq_some {b : α} :
    (pure a : Prog σ α) s = some (b, s') ↔ a = b ∧ s = s' := by
  show some (a, s) = some (b, s') ↔ _
  rw [Option.some.injEq, Prod.mk.injEq]

@[simp] theorem bind_eq_some {b : β} :
    (x >>= f) s = some (b, s') ↔ ∃ a t, x s = some (a, t) ∧ f a t = some (b, s') := by
  show (x s).bind (fun p => f p.1 p.2) = some (b, s') ↔ _
  rw [Option.bind_eq_some_iff]
  constructor
  · rintro ⟨⟨a, t⟩, hx, hf⟩
    exact ⟨a, t, hx, hf⟩
  · rintro ⟨a, t, hx, hf⟩
    exact ⟨(a, t), hx, hf⟩

@[simp] theorem fault_eq_some : (fault : Prog σ α) s = some (a, s') ↔ False := by
  simp [fault]

@[simp] theorem check_eq_some {c : Prop} [Decidable c] {u : Unit} :
    (check c : Prog σ Unit) s = some (u, s') ↔ c ∧ s = s' := by
  unfold check
  split
  · next h => simp [h]
  · next h => simp [h]

@[simp] theorem ofOption_eq_some {o : Option α} :
    (ofOption o : Prog σ α) s = some (a, s') ↔ o = some a ∧ s = s' := by
  unfold ofOption
  rw [Option.map_eq_some_iff]
  constructor
  · rintro ⟨a', ha, he⟩
    injection he with h1 h2
    subst h1 h2
    exact ⟨ha, rfl⟩
  · rintro ⟨ha, rfl⟩
    exact ⟨a, ha, rfl⟩

@[simp] theorem read_eq_some {f : σ → α} :
    (read f : Prog σ α) s = some (a, s') ↔ f s = a ∧ s = s' := by
  simp [read]

@[simp] theorem update_eq_some {f : σ → σ} {u : Unit} :
    (update f : Prog σ Unit) s = some (u, s') ↔ f s = s' := by
  simp [update]

theorem pure_apply (a : α) (s : σ) : (pure a : Prog σ α) s = some (a, s) := rfl

theorem bind_apply {t : σ}
    (h : x s = some (a, t)) : (x >>= f) s = f a t := by
  show (x s).bind (fun p => f p.1 p.2) = _
  rw [h]
  rfl

theorem bind_none (h : x s = none) :
    (x >>= f) s = none := by
  show (x s).bind (fun p => f p.1 p.2) = none
  rw [h]
  rfl

theorem check_apply {c : Prop} [Decidable c] (h : c) (s : σ) :
    (check c : Prog σ Unit) s = some ((), s) := by
  unfold check
  rw [if_pos h]
  rfl

end Prog

end Quack.Lib
