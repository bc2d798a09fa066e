/-
  Quack.Lib.Runs
  **RUNS OF A PARTIAL STEP FUNCTION.**

  A system is a step function `step : σ → α → Option σ`: `step s a = none`
  says that action `a` is not possible in `s`, or that it stops the machine
  (a failed assertion, a panic, a fault).  A run is the monadic left fold of
  `step` over a list of actions.  Nothing here knows what the states are.
-/
import Mathlib.Data.List.Basic

namespace Quack.Lib

variable {σ α : Type*} (step : σ → α → Option σ)

/-! ## §1. Runs and what one step preserves. -/

/-- The state after the actions `as`, if none of them stops the run. -/
abbrev run (s : σ) (as : List α) : Option σ := as.foldlM step s

theorem run_cons (s : σ) (a : α) (as : List α) :
    run step s (a :: as) = (step s a).bind (fun s' => run step s' as) := rfl

theorem run_cons_eq_some {s t : σ} {a : α} {as : List α} :
    run step s (a :: as) = some t ↔ ∃ s', step s a = some s' ∧ run step s' as = some t := by
  rw [run_cons, Option.bind_eq_some_iff]

theorem run_invariant (Inv : σ → Prop)
    (hstep : ∀ s a s', Inv s → step s a = some s' → Inv s') :
    ∀ as s t, Inv s → run step s as = some t → Inv t
  | [], s, t, hs, h => by
    injection h with h
    subst h
    exact hs
  | a :: as, s, t, hs, h => by
    obtain ⟨s', ha, hrest⟩ := (run_cons_eq_some step).mp h
    exact run_invariant Inv hstep as s' t (hstep s a s' hs ha) hrest

theorem run_eq_self {s : σ} :
    ∀ {as : List α} {t : σ}, (∀ a ∈ as, ∀ s', step s a = some s' → s' = s) →
      run step s as = some t → t = s
  | [], t, _, h => by
    injection h with h
    exact h.symm
  | a :: as, t, hstep, h => by
    obtain ⟨s', ha, hrest⟩ := (run_cons_eq_some step).mp h
    rw [hstep a List.mem_cons_self s' ha] at hrest
    exact run_eq_self (fun b hb => hstep b (List.mem_cons_of_mem a hb)) hrest

/-! ## §2. Side conditions along a run. -/

/-- Every action of the run meets `ok` in the state it is taken in. -/
def Along (ok : σ → α → Prop) : σ → List α → Prop
  | _, [] => True
  | s, a :: as => ok s a ∧ ∀ s', step s a = some s' → Along ok s' as

/-- A condition that can be evaluated can be evaluated along a run. -/
instance Along.decidable {ok : σ → α → Prop} [∀ s a, Decidable (ok s a)] :
    ∀ (s : σ) (as : List α), Decidable (Along step ok s as)
  | _, [] => isTrue trivial
  | s, a :: as =>
    match hs : step s a with
    | none => decidable_of_iff (ok s a) (by simp [Along, hs])
    | some s' =>
      have : Decidable (Along step ok s' as) := Along.decidable s' as
      decidable_of_iff (ok s a ∧ Along step ok s' as) (by simp [Along, hs])

variable {ok ok' : σ → α → Prop} {P : σ → Prop}

theorem along_of_forall : ∀ as s, (∀ a ∈ as, ∀ s, ok s a) → Along step ok s as
  | [], _, _ => trivial
  | a :: as, s, h =>
    ⟨h a List.mem_cons_self s, fun s' _ =>
      along_of_forall as s' fun b hb => h b (List.mem_cons_of_mem a hb)⟩

theorem along_and (as : List α) (s : σ) :
    Along step (fun s a => ok s a ∧ ok' s a) s as
      ↔ Along step ok s as ∧ Along step ok' s as := by
  induction as generalizing s with
  | nil => exact ⟨fun _ => ⟨trivial, trivial⟩, fun _ => trivial⟩
  | cons a as ih =>
    constructor
    · rintro ⟨⟨hok, hok'⟩, hrest⟩
      exact ⟨⟨hok, fun s' ha => ((ih s').mp (hrest s' ha)).1⟩,
        ⟨hok', fun s' ha => ((ih s').mp (hrest s' ha)).2⟩⟩
    · rintro ⟨⟨hok, hrest⟩, ⟨hok', hrest'⟩⟩
      exact ⟨⟨hok, hok'⟩, fun s' ha => (ih s').mpr ⟨hrest s' ha, hrest' s' ha⟩⟩

theorem Along.of_append (as bs : List α) (s t : σ) (h : run step s as = some t)
    (hok : Along step ok s (as ++ bs)) : Along step ok t bs := by
  induction as generalizing s t with
  | nil =>
    injection h with h
    exact h ▸ hok
  | cons a as ih =>
    obtain ⟨s', ha, hrest⟩ := (run_cons_eq_some step).mp h
    exact ih s' t hrest (hok.2 s' ha)

theorem exists_of_not_along (as : List α) (s : σ) (h : ¬ Along step ok s as) :
    ∃ pre a t, pre ++ [a] <+: as ∧ Along step ok s pre ∧ run step s pre = some t
      ∧ ¬ ok t a := by
  induction as generalizing s with
  | nil => exact absurd trivial h
  | cons a as ih =>
    by_cases hok : ok s a
    · -- the failure is later
      obtain ⟨s', ha, hno⟩ : ∃ s', step s a = some s' ∧ ¬ Along step ok s' as := by
        by_contra hall
        push Not at hall
        exact h ⟨hok, hall⟩
      obtain ⟨pre, b, t, hpre, halong, hrun, hb⟩ := ih s' hno
      refine ⟨a :: pre, b, t, List.cons_prefix_cons.mpr ⟨rfl, hpre⟩, ⟨hok, ?_⟩,
        (run_cons_eq_some step).mpr ⟨s', ha, hrun⟩, hb⟩
      intro s'' ha'
      rw [ha] at ha'
      injection ha' with ha'
      exact ha' ▸ halong
    · exact ⟨[], a, s, List.cons_prefix_cons.mpr ⟨rfl, List.nil_prefix⟩, trivial, rfl, hok⟩

theorem Along.invariant (Inv : σ → Prop)
    (hstep : ∀ s a s', Inv s → ok s a → step s a = some s' → Inv s') :
    ∀ as s t, Inv s → Along step ok s as → run step s as = some t → Inv t
  | [], s, t, hs, _, h => by
    injection h with h
    subst h
    exact hs
  | a :: as, s, t, hs, hok, h => by
    obtain ⟨s', ha, hrest⟩ := (run_cons_eq_some step).mp h
    exact Along.invariant Inv hstep as s' t (hstep s a s' hs hok.1 ha) (hok.2 s' ha) hrest

theorem Along.returns (Inv : σ → Prop)
    (hstep : ∀ s a, Inv s → ok s a → ∃ s', step s a = some s' ∧ Inv s') :
    ∀ as s, Inv s → Along step ok s as → ∃ t, run step s as = some t ∧ Inv t
  | [], s, hs, _ => ⟨s, rfl, hs⟩
  | a :: as, s, hs, ⟨hok, hrest⟩ => by
    obtain ⟨s', ha, hs'⟩ := hstep s a hs hok
    obtain ⟨t, ht, hinv⟩ := Along.returns Inv hstep as s' hs' (hrest s' ha)
    exact ⟨t, (run_cons_eq_some step).mpr ⟨s', ha, ht⟩, hinv⟩

theorem Along.imp (Inv : σ → Prop)
    (himp : ∀ s a, Inv s → ok s a → ok' s a)
    (hstep : ∀ s a s', Inv s → ok s a → step s a = some s' → Inv s') :
    ∀ as s, Inv s → Along step ok s as → Along step ok' s as
  | [], _, _, _ => trivial
  | a :: as, s, hs, ⟨hok, hrest⟩ =>
    ⟨himp s a hs hok, fun s' ha =>
      Along.imp Inv himp hstep as s' (hstep s a s' hs hok ha) (hrest s' ha)⟩

theorem along_congr (Inv : σ → Prop)
    (hiff : ∀ s a, Inv s → (ok s a ↔ ok' s a))
    (hstep : ∀ s a s', Inv s → ok s a → step s a = some s' → Inv s')
    (as : List α) (s : σ) (hs : Inv s) : Along step ok s as ↔ Along step ok' s as := by
  constructor
  · exact Along.imp step Inv (fun s a h => (hiff s a h).mp) hstep as s hs
  · exact Along.imp step Inv (fun s a h => (hiff s a h).mpr)
      (fun s a s' h hok => hstep s a s' h ((hiff s a h).mpr hok)) as s hs

/-- Every state the run passes through, the first one included, has `P`. -/
def Always (P : σ → Prop) (s : σ) (as : List α) : Prop :=
  ∀ pre, pre <+: as → ∀ t, run step s pre = some t → P t

theorem always_nil (P : σ → Prop) (s : σ) : Always step P s [] ↔ P s := by
  constructor
  · intro h
    exact h [] (List.prefix_refl []) s rfl
  · intro h pre hpre t ht
    rw [List.prefix_nil.mp hpre] at ht
    injection ht with ht
    subst ht
    exact h

theorem always_cons (P : σ → Prop) (s : σ) (a : α) (as : List α) :
    Always step P s (a :: as)
      ↔ P s ∧ ∀ s', step s a = some s' → Always step P s' as := by
  constructor
  · intro h
    refine ⟨h [] List.nil_prefix s rfl, ?_⟩
    intro s' ha pre hpre t ht
    exact h (a :: pre) (List.prefix_cons_inj a |>.mpr hpre) t
      ((run_cons_eq_some step).mpr ⟨s', ha, ht⟩)
  · rintro ⟨hs, hrest⟩ pre hpre t ht
    cases pre with
    | nil =>
      injection ht with ht
      subst ht
      exact hs
    | cons b pre =>
      obtain ⟨rfl, hpre'⟩ := List.cons_prefix_cons.mp hpre
      obtain ⟨s', hb, ht'⟩ := (run_cons_eq_some step).mp ht
      exact hrest s' hb pre hpre' t ht'

theorem Along.always (Inv : σ → Prop)
    (hP : ∀ s, Inv s → P s)
    (hstep : ∀ s a s', Inv s → ok s a → step s a = some s' → Inv s') :
    ∀ as s, Inv s → Along step ok s as → Always step P s as
  | [], s, hs, _ => (always_nil step P s).mpr (hP s hs)
  | a :: as, s, hs, ⟨hok, hrest⟩ => by
    refine (always_cons step P s a as).mpr ⟨hP s hs, fun s' ha => ?_⟩
    exact Along.always Inv hP hstep as s' (hstep s a s' hs hok ha) (hrest s' ha)

theorem along_always_iff_along {A : σ → α → Prop} (Inv : σ → Prop)
    (hP : ∀ s, Inv s → P s)
    (hA : ∀ s a, Inv s → ok s a → A s a)
    (hstep : ∀ s a s', Inv s → ok s a → step s a = some s' → Inv s')
    (hok : ∀ s a, Inv s → A s a → (∀ s', step s a = some s' → P s') → ok s a) :
    ∀ as s, Inv s →
      (Along step A s as ∧ Always step P s as ↔ Along step ok s as)
  | [], s, hs => by
    rw [always_nil]
    exact ⟨fun _ => trivial, fun _ => ⟨trivial, hP s hs⟩⟩
  | a :: as, s, hs => by
    refine ⟨fun ⟨halong, halways⟩ => ?_, fun h =>
      ⟨Along.imp step Inv hA hstep (a :: as) s hs h,
        Along.always step Inv hP hstep (a :: as) s hs h⟩⟩
    obtain ⟨_, hrest⟩ := (always_cons step P s a as).mp halways
    have hoka : ok s a :=
      hok s a hs halong.1 fun s' ha => hrest s' ha [] List.nil_prefix s' rfl
    refine ⟨hoka, fun s' ha => ?_⟩
    exact (along_always_iff_along Inv hP hA hstep hok as s' (hstep s a s' hs hoka ha)).mp
      ⟨halong.2 s' ha, hrest s' ha⟩

theorem always_iff_along (Inv : σ → Prop)
    (hP : ∀ s, Inv s → P s)
    (hstep : ∀ s a s', Inv s → ok s a → step s a = some s' → Inv s')
    (hbad : ∀ s a, Inv s → ¬ ok s a → ∃ s', step s a = some s' ∧ ¬ P s')
    (as : List α) (s : σ) (hs : Inv s) : Always step P s as ↔ Along step ok s as := by
  have hok : ∀ s a, Inv s → True → (∀ s', step s a = some s' → P s') → ok s a := by
    intro s a hs _ hres
    by_contra hno
    obtain ⟨s', ha, hn⟩ := hbad s a hs hno
    exact hn (hres s' ha)
  rw [← along_always_iff_along step Inv hP (fun _ _ _ _ => trivial) hstep hok as s hs]
  exact ⟨fun h => ⟨along_of_forall step as s fun _ _ _ => trivial, h⟩, And.right⟩

end Quack.Lib
