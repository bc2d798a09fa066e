/-
  Quack.Proc.SchedulerIds
  **THREAD IDENTITY: the table key against the `_id` field.**

  `sched_add` draws a fresh id and uses it as the key of the thread table, but
  never writes it into the thread: `_id` keeps the 0 of the constructor.  The
  picker, `sched_remove` and `sched_block` all work with `_id`.

  The first thread gets key 0, so with one thread in the system key and field
  agree; the second one is registered under 1 with `_id` 0.  The theorem of
  this module makes that exact: over a whole run of `sched_add`, `sched_run`
  and `sched_remove`, identity holds in every state if and only if every
  `sched_add` of the run is the first one.
-/
import Quack.Proc.Scheduler

namespace Quack.Proc

open Lib

variable {τ : Type}

/-! ## §1. The identity invariant and the runs it is about. -/

def IdsConsistent (s : Sched τ) : Prop :=
  ∀ id p, s.threads id = some p → ∃ t, s.objects p = some t ∧ t.id = id

/-- The identity invariant: keys and `_id` fields agree, two registered
threads never share an `_id`, and the picker answers with the key under which
the thread it inspected is registered. -/
structure Identity (s : Sched τ) : Prop where
  consistent : IdsConsistent s
  distinct : ∀ id1 id2 p1 p2 t1 t2, s.threads id1 = some p1 → s.threads id2 = some p2 →
    s.objects p1 = some t1 → s.objects p2 = some t2 → p1 ≠ p2 → t1.id ≠ t2.id
  picked : ∀ id s', s.get_next_thread_to_run = some (some id, s') →
    ∃ p, s.schedule[s'.idx]? = some p ∧ s.threads id = some p

/-- The calls of the runs considered here. -/
inductive IdOp (τ : Type) where
  | sched_add (task : τ)
  | sched_run (id : BitVec 64)
  | sched_remove (id : BitVec 64)
  deriving Repr, DecidableEq

/-- One call; `sched_add` is given a newly constructed thread. -/
def idStep (s : Sched τ) : IdOp τ → Option (Sched τ)
  | .sched_add task =>
    let (p, s) := s.new_thread task
    (s.sched_add p).map (·.2)
  | .sched_run id => s.sched_run id
  | .sched_remove id => s.sched_remove id

def FirstAdd (s : Sched τ) : IdOp τ → Prop
  | .sched_add _ => s.next_id = 0
  | _ => True

theorem idStep_add (s : Sched τ) (task : τ) :
    idStep s (.sched_add task) = some
      { s with
          objects := Function.update s.objects s.next_ptr (some (Thread.new task))
          next_ptr := s.next_ptr + 1
          next_id := s.next_id + 1
          threads := Function.update s.threads s.next_id (some s.next_ptr) } := by
  simp [idStep, Sched.new_thread, Sched.sched_add, Thread.new]

/-! ## §2. The states with at most one thread. -/

/-- Only key 0 is in use, its thread has `_id` 0, and the run queue holds at
most that thread. -/
structure OneThread (s : Sched τ) : Prop where
  key : ∀ id p, s.threads id = some p → id = 0
  object : ∀ p, s.threads 0 = some p → ∃ t, s.objects p = some t ∧ t.id = 0
  unused : s.next_id = 0 → s.threads 0 = none
  queue : s.schedule = [] ∨ ∃ p, s.threads 0 = some p ∧ s.schedule = [p]

theorem OneThread.initial : OneThread (Sched.initial : Sched τ) := by
  refine ⟨?_, ?_, fun _ => rfl, Or.inl rfl⟩
  · intro id p h; cases h
  · intro p h; cases h

variable {s s' : Sched τ}

theorem OneThread.identity (hs : OneThread s) : Identity s := by
  refine ⟨?_, ?_, ?_⟩
  · intro id p h
    obtain rfl := hs.key id p h
    exact hs.object p h
  · intro id1 id2 p1 p2 t1 t2 h1 h2 _ _ hne
    obtain rfl := hs.key id1 p1 h1
    obtain rfl := hs.key id2 p2 h2
    rw [h1] at h2
    injection h2 with h2
    exact absurd h2 hne
  · intro id s' h
    obtain ⟨p, t, hp, ht, -, hid⟩ := (get_next_cases h).2 id rfl
    refine ⟨p, hp, ?_⟩
    -- the inspected thread is the one under key 0, whose `_id` is 0
    rcases hs.queue with hq | ⟨q, hq, hsched⟩
    · rw [hq] at hp; cases hp
    · have hpq : p = q := by
        rw [hsched] at hp
        exact List.mem_singleton.mp (List.mem_of_getElem? hp)
      subst hpq
      obtain ⟨u, hu, huid⟩ := hs.object p hq
      rw [ht] at hu
      injection hu with hu
      subst hu
      rw [← hid, huid]
      exact hq

theorem OneThread.add (hs : OneThread s) (h0 : s.next_id = 0) (task : τ) :
    OneThread { s with
      objects := Function.update s.objects s.next_ptr (some (Thread.new task))
      next_ptr := s.next_ptr + 1
      next_id := s.next_id + 1
      threads := Function.update s.threads s.next_id (some s.next_ptr) } := by
  have hnone : s.threads 0 = none := hs.unused h0
  refine ⟨?_, ?_, ?_, ?_⟩
  · intro id p h
    by_cases hid : id = s.next_id
    · rw [hid, h0]
    · simp only [Function.update_of_ne hid] at h
      exact hs.key id p h
  · intro p h
    simp only [h0, Function.update_self] at h
    injection h with h
    subst h
    exact ⟨Thread.new task, by simp, rfl⟩
  · intro h1
    simp only [h0] at h1
    exact absurd h1 (by decide)
  · rcases hs.queue with hq | ⟨q, hq, -⟩
    · exact Or.inl hq
    · rw [hnone] at hq; cases hq

theorem OneThread.run (hs : OneThread s) {id : BitVec 64}
    (h : s.sched_run id = some s') : OneThread s' := by
  unfold Sched.sched_run at h
  cases hd : s.deref id with
  | none => rw [hd] at h; cases h
  | some pt =>
    obtain ⟨p, t⟩ := pt
    rw [hd] at h
    simp only at h
    split at h
    · cases h
    · next hnew =>
        injection h with h
        subst h
        have hp := (deref_eq_some.mp hd).1
        obtain rfl := hs.key id p hp
        refine ⟨hs.key, hs.object, hs.unused, Or.inr ⟨p, hp, ?_⟩⟩
        rcases hs.queue with hq | ⟨q, hq, hsched⟩
        · simp [hq]
        · -- the only thread is linked already: the list's assertion fails
          rw [hp] at hq
          injection hq with hq
          subst hq
          exact absurd (by simp [hsched]) hnew

theorem OneThread.remove (hs : OneThread s) {id : BitVec 64}
    (h : s.sched_remove id = some s') : OneThread s' := by
  unfold Sched.sched_remove at h
  obtain ⟨schedule, herase, he⟩ := Option.map_eq_some_iff.mp h
  cases hth : s.threads id with
  | some p =>
    rw [hth] at he
    obtain rfl := hs.key id p hth
    have hnil : schedule = [] := by
      rcases hs.queue with hq | ⟨q, hq, hsched⟩
      · rw [hq] at herase
        injection herase with herase
        exact herase.symm
      · obtain ⟨t, ht, hid⟩ := hs.object q hq
        rw [hsched] at herase
        simp only [Sched.eraseById, ht, hid, if_true] at herase
        injection herase with herase
        exact herase.symm
    subst he hnil
    refine ⟨?_, ?_, fun _ => by simp, Or.inl rfl⟩
    · intro id' p' h'
      by_cases hz : id' = 0
      · exact hz
      · simp only [Function.update_of_ne hz] at h'
        exact hs.key id' p' h'
    · intro p' h'
      simp at h'
  | none =>
    rw [hth] at he
    subst he
    refine ⟨hs.key, hs.object, hs.unused, ?_⟩
    rcases hs.queue with hq | ⟨q, hq, hsched⟩
    · rw [hq] at herase
      injection herase with herase
      exact Or.inl herase.symm
    · -- the linked thread has `_id` 0, and 0 is registered, so `id` is not 0
      obtain ⟨t, ht, hid⟩ := hs.object q hq
      have hne : ¬ t.id = id := by
        intro hti
        rw [hid] at hti
        rw [← hti, hq] at hth
        cases hth
      rw [hsched] at herase
      simp only [Sched.eraseById, ht, hne, if_false, Option.map_some] at herase
      injection herase with herase
      exact Or.inr ⟨q, hq, herase.symm⟩

theorem OneThread.step {op : IdOp τ} (hs : OneThread s)
    (hok : FirstAdd s op) (h : idStep s op = some s') : OneThread s' := by
  cases op with
  | sched_add task =>
    rw [idStep_add] at h
    injection h with h
    subst h
    exact hs.add hok task
  | sched_run id => exact hs.run h
  | sched_remove id => exact hs.remove h

theorem second_add_inconsistent {op : IdOp τ} (hbad : ¬ FirstAdd s op) :
    ∃ s', idStep s op = some s' ∧ ¬ Identity s' := by
  cases op with
  | sched_run id => exact absurd trivial hbad
  | sched_remove id => exact absurd trivial hbad
  | sched_add task =>
    refine ⟨_, idStep_add s task, fun hident => ?_⟩
    obtain ⟨t, ht, hid⟩ := hident.consistent s.next_id s.next_ptr (by simp)
    simp only [Function.update_self, Option.some.injEq] at ht
    subst ht
    exact hbad hid.symm

/-! ## §3. Runs. -/

/-- **When thread identity holds**: in a run of `sched_add`, `sched_run` and
`sched_remove` from the initial state, key and `_id` agree in every state (with
the two consequences of `Identity`) if and only if every `sched_add` of the
run is made before any id was handed out, that is, at most one thread is ever
added. -/
theorem identity_iff_first_adds (ops : List (IdOp τ)) :
    Always idStep Identity (Sched.initial : Sched τ) ops
      ↔ Along idStep FirstAdd (Sched.initial : Sched τ) ops :=
  always_iff_along idStep OneThread (fun _ hs => hs.identity) (fun _ _ _ hs hok h => hs.step hok h)
    (fun _ _ _ hbad => second_add_inconsistent hbad) ops Sched.initial OneThread.initial

/-- Two threads are enough to lose identity. -/
theorem two_threads_share_id :
    ¬ ∀ (ops : List (IdOp Unit)) (s : Sched Unit),
        run idStep Sched.initial ops = some s → Identity s := by
  intro h
  have hrun : ∃ s : Sched Unit,
      run idStep Sched.initial [.sched_add (), .sched_add ()] = some s
      ∧ s.threads 1 = some 1 ∧ s.objects 1 = some (Thread.new ()) :=
    ⟨_, rfl, rfl, rfl⟩
  obtain ⟨s, hs, hth, hobj⟩ := hrun
  obtain ⟨t, ht, hid⟩ := (h _ s hs).consistent 1 1 hth
  rw [hobj] at ht
  injection ht with ht
  subst ht
  exact absurd hid (by decide)

end Quack.Proc
