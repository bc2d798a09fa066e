/-
  Quack.Lib.Traced
  **PROGRAMS THAT LOG WHAT THEY TOUCH.**

  `Traced ε σ α` is a program over `σ` that may stop, with the list of the
  events it caused.  The log of a program that stops is kept, with the event it
  stopped at.
-/
import Quack.Lib.Prog

namespace Quack.Lib

/-- A program over `σ` that may stop, with its log. -/
def Traced (ε σ α : Type) := σ → List ε × Option (α × σ)

namespace Traced

variable {ε σ α β τ γ : Type}

/-! ## §1. The primitives. -/

instance : Monad (Traced ε σ) where
  pure a := fun s => ([], some (a, s))
  bind x f := fun s =>
    match x s with
    | (es, none) => (es, none)
    | (es, some (a, t)) => (es ++ (f a t).1, (f a t).2)

/-- Log an event. -/
def log (e : ε) : Traced ε σ Unit := fun s => ([e], some ((), s))

def fetch (mem : ε → α) (a : ε) : Traced ε σ α := do
  log a
  pure (mem a)

/-- A program that logs nothing. -/
def lift (x : Prog σ α) : Traced ε σ α := fun s => ([], x s)

/-- `while (count--)`: a round says whether the loop goes on. -/
def rounds (body : τ → Traced ε σ Bool) (next : τ → τ) : Nat → τ → Traced ε σ Bool
  | 0, _ => pure true
  | count + 1, t => do
    if ← body t then rounds body next count (next t)
    else pure false

/-- The program without its log. -/
def plain (x : Traced ε σ α) : Prog σ α := fun s => (x s).2

/-! ## §2. Logs fall away. -/

theorem pure_apply (a : α) (s : σ) : (pure a : Traced ε σ α) s = ([], some (a, s)) := rfl

variable {f : α → Traced ε σ β} {x : Traced ε σ α} {ok : σ → τ → Prop}

theorem bind_of_some {s t : σ} {a : α}
    (h : (x s).2 = some (a, t)) : (x >>= f) s = ((x s).1 ++ (f a t).1, (f a t).2) := by
  show (match x s with
    | (es, none) => (es, none)
    | (es, some (a, t)) => (es ++ (f a t).1, (f a t).2)) = _
  generalize x s = r at h ⊢
  obtain ⟨es, o⟩ := r
  cases h
  rfl

theorem fetch_bind (mem : ε → α) (a : ε) (s : σ) :
    (fetch mem a >>= f) s = (a :: (f (mem a) s).1, (f (mem a) s).2) := rfl

theorem bind_of_none {s : σ}
    (h : (x s).2 = none) : (x >>= f) s = ((x s).1, none) := by
  show (match x s with
    | (es, none) => (es, none)
    | (es, some (a, t)) => (es ++ (f a t).1, (f a t).2)) = _
  generalize x s = r at h ⊢
  obtain ⟨es, o⟩ := r
  cases h
  rfl

@[simp] theorem plain_pure (a : α) : plain (pure a : Traced ε σ α) = pure a := rfl

@[simp] theorem plain_log (e : ε) : plain (log e : Traced ε σ Unit) = pure () := rfl

@[simp] theorem plain_lift (x : Prog σ α) : plain (lift x : Traced ε σ α) = x := rfl

@[simp] theorem plain_bind (x : Traced ε σ α) (f : α → Traced ε σ β) :
    plain (x >>= f) = plain x >>= fun a => plain (f a) := by
  funext s
  show ((x >>= f) s).2 = (plain x >>= fun a => plain (f a)) s
  cases hx : (x s).2 with
  | none =>
    rw [bind_of_none hx]
    exact (Prog.bind_none hx).symm
  | some p =>
    rw [bind_of_some hx]
    exact (Prog.bind_apply (f := fun a => plain (f a)) hx).symm

@[simp] theorem plain_ite (c : Prop) [Decidable c] (x y : Traced ε σ α) :
    plain (if c then x else y) = if c then plain x else plain y :=
  apply_ite plain c x y

theorem plain_rounds {body : τ → Traced ε σ Bool} {next : τ → τ} (ret : Bool → β)
    (loop : Nat → τ → Prog σ β) (h0 : ∀ t, loop 0 t = pure (ret true))
    (hsucc : ∀ n t, loop (n + 1) t
      = plain (body t) >>= fun b => if b then loop n (next t) else pure (ret false))
    (count : Nat) (t : τ) :
    plain (rounds body next count t >>= fun b => pure (ret b)) = loop count t := by
  induction count generalizing t with
  | zero => simp [rounds, h0]
  | succ n ih =>
    simp only [plain_bind, plain_pure] at ih
    simp only [rounds, hsucc, plain_bind, plain_pure, bind_assoc]
    refine bind_congr fun b => ?_
    cases b
    · simp
    · exact ih _

/-! ## §3. Monitors. -/

/-- What watches a log: the events the environment answers for, and the events
accepted in a state of the monitor's own. -/
structure Monitor (ε γ : Type) where
  assumed : ε → Prop
  ok : γ → ε → Prop
  next : γ → ε → γ

/-- Every event is accepted where it occurs. -/
def Monitor.Accepts (M : Monitor ε γ) : γ → List ε → Prop
  | _, [] => True
  | g, e :: es => M.ok g e ∧ M.Accepts (M.next g e) es

/-- The monitor's state after a log. -/
def Monitor.after (M : Monitor ε γ) (g : γ) (es : List ε) : γ := es.foldl M.next g

theorem Monitor.accepts_append (M : Monitor ε γ) (es es' : List ε) (g : γ) :
    M.Accepts g (es ++ es') ↔ M.Accepts g es ∧ M.Accepts (M.after g es) es' := by
  induction es generalizing g with
  | nil =>
    exact ⟨fun h => ⟨trivial, h⟩, fun h => h.2⟩
  | cons e es ih =>
    show M.ok g e ∧ M.Accepts (M.next g e) (es ++ es') ↔ _
    rw [ih, ← and_assoc]
    exact Iff.rfl

theorem Monitor.Accepts.ok_of_mem {M : Monitor ε γ} {e : ε} (es : List ε) :
    ∀ g, M.Accepts g es → e ∈ es → ∃ g', M.ok g' e := by
  induction es with
  | nil => intro g _ he; cases he
  | cons e' es ih =>
    rintro g ⟨hok, hrest⟩ he
    rcases List.mem_cons.mp he with rfl | he
    · exact ⟨g, hok⟩
    · exact ih _ hrest he

theorem Monitor.after_append (M : Monitor ε γ) (g : γ) (es es' : List ε) :
    M.after g (es ++ es') = M.after (M.after g es) es' := List.foldl_append ..

/-- **The exact judgement.**  If the environment does its part, the monitor
accepts the log of `x` exactly when `c`, and then `x` returns with `Q`. -/
structure Keeps (M : Monitor ε γ) (x : Traced ε σ α) (g : γ) (s : σ) (c : Prop)
    (Q : γ → α → σ → Prop) : Prop where
  accepts : (∀ e ∈ (x s).1, M.assumed e) → (M.Accepts g (x s).1 ↔ c)
  returns : (∀ e ∈ (x s).1, M.assumed e) → c →
    ∃ a t, (x s).2 = some (a, t) ∧ Q (M.after g (x s).1) a t

namespace Keeps

variable {M : Monitor ε γ} {x : Traced ε σ α} {f : α → Traced ε σ β} {g : γ} {s : σ}
  {c c' : Prop} {Q : γ → α → σ → Prop} {R : γ → β → σ → Prop}

theorem mono {Q' : γ → α → σ → Prop} (h : Keeps M x g s c Q) (hc : c ↔ c')
    (hQ : ∀ g' a t, Q g' a t → Q' g' a t) : Keeps M x g s c' Q' where
  accepts hassume := (h.accepts hassume).trans hc
  returns hassume hc' := by
    obtain ⟨a, t, hx, hq⟩ := h.returns hassume (hc.mpr hc')
    exact ⟨a, t, hx, hQ _ a t hq⟩

theorem result (h : Keeps M x g s c Q) :
    Keeps M x g s c (fun g' a t => Q g' a t ∧ c ∧ (x s).2 = some (a, t)) where
  accepts := h.accepts
  returns hassume hc := by
    obtain ⟨a, t, hx, hq⟩ := h.returns hassume hc
    exact ⟨a, t, hx, hq, hc, hx⟩

theorem pure {a : α} (h : Q g a s) : Keeps M (pure a) g s True Q where
  accepts _ := Iff.rfl
  returns _ _ := ⟨a, s, rfl, h⟩

theorem log {e : ε} {P : γ → Unit → σ → Prop} (hc : M.ok g e ↔ c) (h : P (M.next g e) () s) :
    Keeps M (log e) g s c P where
  accepts _ := (and_iff_left trivial).trans hc
  returns _ _ := ⟨(), s, rfl, h⟩

theorem never {e : ε} (hno : ¬ M.ok g e) (f : Unit → Traced ε σ β) :
    Keeps M (Traced.log e >>= f) g s False R where
  accepts _ := by
    rw [bind_of_some (x := Traced.log e) rfl]
    exact ⟨fun h => hno h.1, False.elim⟩
  returns _ h := h.elim

theorem bind (hx : Keeps M x g s c Q)
    (hf : ∀ g' a t, Q g' a t → Keeps M (f a) g' t c' R) :
    Keeps M (x >>= f) g s (c ∧ c') R := by
  cases hres : (x s).2 with
  | none =>
    -- the program stops here, so `c` fails and the log so far is rejected
    have hno : (∀ e ∈ (x s).1, M.assumed e) → ¬ c := by
      intro hassume hc
      obtain ⟨a, t, hsome, -⟩ := hx.returns hassume hc
      rw [hres] at hsome
      cases hsome
    constructor
    · intro hassume
      rw [bind_of_none hres] at hassume ⊢
      exact ⟨fun h => absurd ((hx.accepts hassume).mp h) (hno hassume),
        fun h => absurd h.1 (hno hassume)⟩
    · intro hassume hc
      rw [bind_of_none hres] at hassume
      exact absurd hc.1 (hno hassume)
  | some p =>
    obtain ⟨a, t⟩ := p
    have hsplit : (∀ e ∈ ((x >>= f) s).1, M.assumed e) →
        (∀ e ∈ (x s).1, M.assumed e) ∧ ∀ e ∈ (f a t).1, M.assumed e := by
      rw [bind_of_some hres]
      exact List.forall_mem_append.mp
    have hpost : (∀ e ∈ (x s).1, M.assumed e) → c →
        Keeps M (f a) (M.after g (x s).1) t c' R := by
      intro hassume hc
      obtain ⟨a', t', hsome, hq⟩ := hx.returns hassume hc
      rw [hres] at hsome
      cases hsome
      exact hf _ a t hq
    constructor
    · intro hassume
      obtain ⟨h1, h2⟩ := hsplit hassume
      rw [bind_of_some hres, M.accepts_append]
      constructor
      · rintro ⟨hfirst, hrest⟩
        have hc := (hx.accepts h1).mp hfirst
        exact ⟨hc, ((hpost h1 hc).accepts h2).mp hrest⟩
      · rintro ⟨hc, hc'⟩
        exact ⟨(hx.accepts h1).mpr hc, ((hpost h1 hc).accepts h2).mpr hc'⟩
    · intro hassume hcc
      obtain ⟨h1, h2⟩ := hsplit hassume
      rw [bind_of_some hres, M.after_append]
      exact (hpost h1 hcc.1).returns h2 hcc.2

theorem andThen (hx : Keeps M x g s True Q)
    (hf : ∀ g' a t, Q g' a t → Keeps M (f a) g' t c' R) : Keeps M (x >>= f) g s c' R :=
  (hx.bind hf).mono (and_iff_right trivial) (fun _ _ _ h => h)

theorem seq (hx : Keeps M x g s c Q)
    (hf : ∀ g' a t, Q g' a t → Keeps M (f a) g' t True R) : Keeps M (x >>= f) g s c R :=
  (hx.bind hf).mono (and_iff_left trivial) (fun _ _ _ h => h)

theorem lift {p : Prog σ α} {a : α} {t : σ} (hp : p s = some (a, t)) (h : Q g a t) :
    Keeps M (Traced.lift p) g s True Q where
  accepts _ := Iff.rfl
  returns _ _ := ⟨a, t, hp, h⟩

theorem access {e : ε} {p : Prog σ α} {a : α} {t : σ} (hok : M.ok g e) (hp : p s = some (a, t))
    (h : Q (M.next g e) a t) : Keeps M (Traced.log e >>= fun _ => Traced.lift p) g s True Q where
  accepts _ := iff_true_intro ⟨hok, trivial⟩
  returns _ _ := ⟨a, t, hp, h⟩

end Keeps

/-- The monitor that has no state: every event must have `P`. -/
def Monitor.all (P : ε → Prop) : Monitor ε Unit where
  assumed _ := True
  ok _ e := P e
  next g _ := g

theorem Monitor.accepts_all (P : ε → Prop) (es : List ε) :
    (Monitor.all P).Accepts () es ↔ ∀ e ∈ es, P e := by
  induction es with
  | nil => exact iff_of_true trivial (fun e he => absurd he List.not_mem_nil)
  | cons e es ih =>
    rw [List.forall_mem_cons, ← ih]
    exact Iff.rfl

theorem Keeps.all_iff {P : ε → Prop} {s : σ} {c : Prop}
    {Q : Unit → α → σ → Prop} (h : Keeps (Monitor.all P) x () s c Q) :
    (∀ e ∈ (x s).1, P e) ↔ c := by
  rw [← Monitor.accepts_all]
  exact h.accepts fun _ _ => trivial

/-! ## §4. Loops. -/

/-- Every round meets `ok` in the state it starts from. -/
def AlongRounds (ok : σ → τ → Prop) (body : τ → Traced ε σ Bool) (next : τ → τ) :
    Nat → τ → σ → Prop
  | 0, _, _ => True
  | count + 1, t, s => ok s t ∧ ∀ s', (body t s).2 = some (true, s') →
      AlongRounds ok body next count (next t) s'

/-- A condition that can be evaluated can be evaluated along a loop. -/
instance AlongRounds.decidable {ok : σ → τ → Prop} [∀ s t, Decidable (ok s t)]
    {body : τ → Traced ε σ Bool} {next : τ → τ} :
    ∀ (count : Nat) (t : τ) (s : σ), Decidable (AlongRounds ok body next count t s)
  | 0, _, _ => isTrue trivial
  | count + 1, t, s =>
    match hs : (body t s).2 with
    | none => decidable_of_iff (ok s t) (by simp [AlongRounds, hs])
    | some (false, s') => decidable_of_iff (ok s t) (by simp [AlongRounds, hs])
    | some (true, s') =>
      have : Decidable (AlongRounds ok body next count (next t) s') :=
        AlongRounds.decidable count (next t) s'
      decidable_of_iff (ok s t ∧ AlongRounds ok body next count (next t) s')
        (by simp [AlongRounds, hs])

theorem alongRounds_of_forall (hok : ∀ s t, ok s t)
    (body : τ → Traced ε σ Bool) (next : τ → τ) :
    ∀ count t s, AlongRounds ok body next count t s
  | 0, _, _ => trivial
  | count + 1, t, s =>
    ⟨hok s t, fun s' _ => alongRounds_of_forall hok body next count (next t) s'⟩

theorem Keeps.rounds {M : Monitor ε γ} {body : τ → Traced ε σ Bool}
    {next : τ → τ} {Inv : γ → σ → Prop}
    (hbody : ∀ t g s, Inv g s → Keeps M (body t) g s (ok s t) (fun g' _ s' => Inv g' s'))
    (count : Nat) (t : τ) (g : γ) (s : σ) (hinv : Inv g s) :
    Keeps M (rounds body next count t) g s (AlongRounds ok body next count t s)
      (fun g' _ s' => Inv g' s') := by
  induction count generalizing t g s with
  | zero =>
    exact Keeps.pure hinv
  | succ count ih =>
    refine (hbody t g s hinv).result.bind ?_
    rintro g' b s' ⟨hinv', -, hres⟩
    cases b with
    | true =>
      refine (ih (next t) g' s' hinv').mono ⟨fun h s'' hs'' => ?_, fun h => h s' hres⟩
        (fun _ _ _ h => h)
      rw [hres] at hs''
      cases hs''
      exact h
    | false =>
      -- the loop is left
      refine (Keeps.pure hinv').mono ⟨fun _ s'' hs'' => ?_, fun _ => trivial⟩
        (fun _ _ _ h => h)
      rw [hres] at hs''
      cases hs''

/-! ## §5. Events. -/

theorem mem_bind {s : σ} {e : ε} :
    e ∈ ((x >>= f) s).1
      ↔ e ∈ (x s).1 ∨ ∃ a t, (x s).2 = some (a, t) ∧ e ∈ (f a t).1 := by
  cases hx : (x s).2 with
  | none =>
    rw [bind_of_none hx]
    simp
  | some r =>
    obtain ⟨a, t⟩ := r
    rw [bind_of_some hx, List.mem_append]
    simp

end Traced

end Quack.Lib
