/-
  Quack.Lib.Fueled
  **LOOPS WITHOUT A BOUND: FAMILIES OF PROGRAMS, ONE PER FUEL.**

  A `while` loop is a program for every bound on its rounds; without fuel it
  does not return (`stop`).  What is said of the loop must not depend on the
  bound.

  Each judgement has its rules for sequences (`bind`) and rounds (`next`).
-/
import Quack.Lib.Traced

namespace Quack.Lib.Traced

variable {ε σ α β : Type}

/-- A program that does not return. -/
def stop : Traced ε σ α := fun _ => ([], none)

/-- Every event of the program is in `P`. -/
def Within (P : ε → Prop) (x : Traced ε σ α) (s : σ) : Prop := ∀ e ∈ (x s).1, P e

theorem within_bind {P : ε → Prop} {x : Traced ε σ α} {f : α → Traced ε σ β} {s t : σ} {a : α}
    (h : (x s).2 = some (a, t)) : Within P (x >>= f) s ↔ Within P x s ∧ Within P (f a) t := by
  unfold Within
  rw [bind_of_some h]
  exact List.forall_mem_append

/-! ## §1. If it returns. -/

/-- A run that returns within `P` has `Q`. -/
def IfReturns (P : ε → Prop) (x : Traced ε σ α) (s : σ) (Q : α → σ → Prop) : Prop :=
  ∀ a t, (x s).2 = some (a, t) → Within P x s → Q a t

namespace IfReturns

variable {P : ε → Prop} {x : Traced ε σ α} {f : α → Traced ε σ β} {s : σ}
  {Q : α → σ → Prop} {R : β → σ → Prop}

theorem mono {Q' : α → σ → Prop} (h : IfReturns P x s Q) (hQ : ∀ a t, Q a t → Q' a t) :
    IfReturns P x s Q' :=
  fun a t hres hin => hQ a t (h a t hres hin)

theorem stop : IfReturns P (stop : Traced ε σ α) s Q := by
  intro a t hres
  cases hres

theorem pure {a : α} (h : Q a s) : IfReturns P (pure a) s Q := by
  intro b t hres _
  cases hres
  exact h

theorem log {e : ε} {R : Unit → σ → Prop} (h : P e → R () s) :
    IfReturns P (log e) s R := by
  intro a t hres hin
  cases hres
  exact h (hin e List.mem_cons_self)

theorem bind (hx : IfReturns P x s Q) (hf : ∀ a t, Q a t → IfReturns P (f a) t R) :
    IfReturns P (x >>= f) s R := by
  intro b u hres hin
  cases hfirst : (x s).2 with
  | none =>
    rw [bind_of_none hfirst] at hres
    cases hres
  | some r =>
    obtain ⟨a, t⟩ := r
    obtain ⟨hin1, hin2⟩ := (within_bind hfirst).mp hin
    rw [bind_of_some hfirst] at hres
    exact hf a t (hx a t hfirst hin1) b u hres hin2

end IfReturns

/-! ## §2. It returns. -/

def Returns (P : ε → Prop) (x : Nat → Traced ε σ α) (s : σ) (Q : α → σ → Prop) : Prop :=
  ∃ n a t, Q a t ∧ ∀ fuel, n ≤ fuel → (x fuel s).2 = some (a, t) ∧ Within P (x fuel) s

namespace Returns

variable {P : ε → Prop} {x : Nat → Traced ε σ α} {f : Nat → α → Traced ε σ β} {s : σ}
  {Q : α → σ → Prop} {R : β → σ → Prop}

theorem mono {Q' : α → σ → Prop} (h : Returns P x s Q) (hQ : ∀ a t, Q a t → Q' a t) :
    Returns P x s Q' := by
  obtain ⟨n, a, t, hq, hn⟩ := h
  exact ⟨n, a, t, hQ a t hq, hn⟩

theorem pure {a : α} (h : Q a s) : Returns P (fun _ => pure a) s Q :=
  ⟨0, a, s, h, fun _ _ => ⟨rfl, fun _ he => absurd he List.not_mem_nil⟩⟩

theorem log {e : ε} {R : Unit → σ → Prop} (he : P e) (h : R () s) :
    Returns P (fun _ => log e) s R := by
  refine ⟨0, (), s, h, fun _ _ => ⟨rfl, fun e' he' => ?_⟩⟩
  rw [List.mem_singleton.mp he']
  exact he

theorem bind (hx : Returns P x s Q)
    (hf : ∀ a t, Q a t → Returns P (fun fuel => f fuel a) t R) :
    Returns P (fun fuel => x fuel >>= f fuel) s R := by
  obtain ⟨n, a, t, hq, hn⟩ := hx
  obtain ⟨m, b, u, hr, hm⟩ := hf a t hq
  refine ⟨max n m, b, u, hr, fun fuel hfuel => ?_⟩
  obtain ⟨hfirst, hin1⟩ := hn fuel (Nat.le_trans (Nat.le_max_left n m) hfuel)
  obtain ⟨hsecond, hin2⟩ := hm fuel (Nat.le_trans (Nat.le_max_right n m) hfuel)
  refine ⟨?_, (within_bind hfirst).mpr ⟨hin1, hin2⟩⟩
  show ((x fuel >>= f fuel) s).2 = some (b, u)
  rw [bind_of_some hfirst]
  exact hsecond

theorem next (hx : Returns P (fun fuel => x (fuel + 1)) s Q) : Returns P x s Q := by
  obtain ⟨n, a, t, hq, hn⟩ := hx
  refine ⟨n + 1, a, t, hq, fun fuel hfuel => ?_⟩
  cases fuel with
  | zero => exact absurd hfuel (Nat.not_succ_le_zero n)
  | succ fuel => exact hn fuel (Nat.le_of_succ_le_succ hfuel)

end Returns

/-! ## §3. Exactly when. -/

/-- **The exact judgement for programs with loops.**  A run that returns within
`P` has `c` and `Q`; and if `c`, the program returns. -/
structure Settles (P : ε → Prop) (x : Nat → Traced ε σ α) (s : σ) (c : Prop)
    (Q : α → σ → Prop) : Prop where
  only : ∀ fuel, IfReturns P (x fuel) s (fun a t => c ∧ Q a t)
  returns : c → Returns P x s Q

namespace Settles

variable {P : ε → Prop} {x : Nat → Traced ε σ α} {f : Nat → α → Traced ε σ β} {s : σ}
  {c c' : Prop} {Q : α → σ → Prop} {R : β → σ → Prop}

theorem mono {Q' : α → σ → Prop} (h : Settles P x s c Q) (hc : c ↔ c')
    (hQ : ∀ a t, Q a t → Q' a t) : Settles P x s c' Q' where
  only fuel := (h.only fuel).mono fun a t hcq => ⟨hc.mp hcq.1, hQ a t hcq.2⟩
  returns hc' := (h.returns (hc.mpr hc')).mono hQ

theorem result {y : Traced ε σ α} (h : Settles P (fun _ => y) s c Q) :
    Settles P (fun _ => y) s c (fun a t => Q a t ∧ (y s).2 = some (a, t)) where
  only fuel a t hres hin :=
    ⟨(h.only fuel a t hres hin).1, (h.only fuel a t hres hin).2, hres⟩
  returns hc := by
    obtain ⟨n, a, t, hq, hn⟩ := h.returns hc
    exact ⟨n, a, t, ⟨hq, (hn n (Nat.le_refl n)).1⟩, hn⟩

theorem pure {a : α} (h : Q a s) : Settles P (fun _ => pure a) s True Q where
  only _ := IfReturns.pure ⟨trivial, h⟩
  returns _ := Returns.pure h

theorem done {a : α} (hc : c) (h : Q a s) : Settles P (fun _ => Pure.pure a) s c Q :=
  (pure h).mono (iff_of_true trivial hc) (fun _ _ h => h)

theorem log {e : ε} {R : Unit → σ → Prop} (h : R () s) :
    Settles P (fun _ => log e) s (P e) R where
  only _ := IfReturns.log fun he => ⟨he, h⟩
  returns he := Returns.log he h

theorem bind (hx : Settles P x s c Q)
    (hf : ∀ a t, Q a t → Settles P (fun fuel => f fuel a) t c' R) :
    Settles P (fun fuel => x fuel >>= f fuel) s (c ∧ c') R where
  only fuel := (hx.only fuel).bind fun a t hcq =>
    ((hf a t hcq.2).only fuel).mono fun _ _ hcr => ⟨⟨hcq.1, hcr.1⟩, hcr.2⟩
  returns hcc := (hx.returns hcc.1).bind fun a t hq => (hf a t hq).returns hcc.2

theorem andThen (hx : Settles P x s True Q)
    (hf : ∀ a t, Q a t → Settles P (fun fuel => f fuel a) t c' R) :
    Settles P (fun fuel => x fuel >>= f fuel) s c' R :=
  (hx.bind hf).mono (and_iff_right trivial) (fun _ _ h => h)

theorem seq (hx : Settles P x s c Q)
    (hf : ∀ a t, Q a t → Settles P (fun fuel => f fuel a) t True R) :
    Settles P (fun fuel => x fuel >>= f fuel) s c R :=
  (hx.bind hf).mono (and_iff_left trivial) (fun _ _ h => h)

theorem fails (hx : Settles P x s False Q) :
    Settles P (fun fuel => x fuel >>= f fuel) s False R where
  only fuel := (hx.only fuel).bind fun _ _ hcq => hcq.1.elim
  returns h := h.elim

theorem next (hzero : x 0 = stop) (hx : Settles P (fun fuel => x (fuel + 1)) s c Q) :
    Settles P x s c Q where
  only fuel := by
    cases fuel with
    | zero =>
      rw [hzero]
      exact IfReturns.stop
    | succ fuel => exact hx.only fuel
  returns hc := (hx.returns hc).next

end Settles

theorem settles_iff {P : ε → Prop} {x : Nat → Traced ε σ α} {s : σ} {c : Prop}
    {Q : α → σ → Prop} (h : Settles P x s c Q) :
    (∃ fuel r, (x fuel s).2 = some r ∧ Within P (x fuel) s) ↔ c := by
  constructor
  · rintro ⟨fuel, r, hres, hin⟩
    exact (h.only fuel r.1 r.2 hres hin).1
  · intro hc
    obtain ⟨n, a, t, -, hn⟩ := h.returns hc
    exact ⟨n, (a, t), hn n (Nat.le_refl n)⟩

end Quack.Lib.Traced
