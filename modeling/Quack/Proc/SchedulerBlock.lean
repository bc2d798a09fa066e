/-
  Quack.Proc.SchedulerBlock
  **`sched_block` AND `sched_stop`.**

  The two functions call each other:

      sched_stop(id)            sched_block(id, stopped);
      sched_block(id, reason)   guard{threads_lock};  unlink id;
                                sched_stop(id);  threads[id]->_state = reason;

  and the lock is not recursive.  The model runs one CPU's call step by step,
  with the stack of its activations and the single accesses of `lock`.  Between
  two steps the other CPUs may do anything to the scheduler and to the lock.

    • `block_never_completes`    — no call returns, in any state, whatever the
      other CPUs do.
-/
import Quack.Proc.SchedulerRemoval

namespace Quack.Proc

open Lib

variable {τ : Type}

/-! ## §1. One CPU's call. -/

/-- Where an activation of `sched_stop` or `sched_block` stands, each time in
front of the step it names. -/
inductive Activation where
  /-- `sched_stop`: the call of `sched_block`. -/
  | stop (id : BitVec 64)
  /-- `sched_stop`: its return. -/
  | stop_return
  /-- `sched_block`: the load of `threads_lock.lock()`. -/
  | lock_load (id : BitVec 64) (reason : ThreadState)
  /-- `sched_block`: the store of `threads_lock.lock()`. -/
  | lock_store (id : BitVec 64) (reason : ThreadState)
  /-- `sched_block`: the loop over `schedule`. -/
  | unlink (id : BitVec 64) (reason : ThreadState)
  /-- `sched_block`: the call of `sched_stop`. -/
  | call_stop (id : BitVec 64) (reason : ThreadState)
  /-- `sched_block`: `threads[id]->_state = reason`. -/
  | write (id : BitVec 64) (reason : ThreadState)
  /-- `sched_block`: the end of the guard, and the return. -/
  | unlock
  deriving Repr, DecidableEq

/-- The scheduler, its lock, and the stack of the call; an empty stack means
that the call has returned. -/
structure Calling (τ : Type) where
  sched : Sched τ
  threads_lock : Bool
  stack : List Activation

/-- The call `sched_block(id, reason)`. -/
def Calling.sched_block (s : Sched τ) (threads_lock : Bool) (id : BitVec 64)
    (reason : ThreadState) : Calling τ := ⟨s, threads_lock, [.lock_load id reason]⟩

/-- The call `sched_stop(id)`. -/
def Calling.sched_stop (s : Sched τ) (threads_lock : Bool) (id : BitVec 64) : Calling τ :=
  ⟨s, threads_lock, [.stop id]⟩

/-- The next step of the call. -/
def Calling.next (m : Calling τ) : Option (Calling τ) :=
  match m.stack with
  | [] => none
  | .stop id :: st => some { m with stack := .lock_load id .stopped :: .stop_return :: st }
  | .stop_return :: st => some { m with stack := st }
  | .lock_load id reason :: st =>
    -- the loop spins while the load returns `true`
    if m.threads_lock then some m
    else some { m with stack := .lock_store id reason :: st }
  | .lock_store id reason :: st =>
    some { m with threads_lock := true, stack := .unlink id reason :: st }
  | .unlink id reason :: st =>
    (m.sched.eraseById id m.sched.schedule).map fun schedule =>
      { m with sched := { m.sched with schedule }, stack := .call_stop id reason :: st }
  | .call_stop id reason :: st => some { m with stack := .stop id :: .write id reason :: st }
  | .write id reason :: st =>
    (m.sched.deref id).map fun (p, t) =>
      { m with sched := m.sched.setThread p { t with state := reason }, stack := .unlock :: st }
  | .unlock :: st => some { m with threads_lock := false, stack := st }

/-- The call takes its next step, or the other CPUs leave the scheduler and the
lock in some other state. -/
inductive CallMove (τ : Type) where
  | next
  | others (sched : Sched τ) (threads_lock : Bool)

def callStep (m : Calling τ) : CallMove τ → Option (Calling τ)
  | .next => m.next
  | .others sched threads_lock => some { m with sched, threads_lock }

/-! ## §2. What the call is for. -/

/-- The thread of key `id` is out of the schedule with the state `reason`, and
nothing else has changed. -/
structure Blocked (s s' : Sched τ) (id : BitVec 64) (reason : ThreadState) : Prop where
  thread : ∃ p t, s'.threads id = some p ∧ s'.objects p = some t ∧ t.state = reason
    ∧ p ∉ s'.schedule
  others : ∀ q, s.threads id ≠ some q →
    (q ∈ s'.schedule ↔ q ∈ s.schedule) ∧ s'.objects q = s.objects q

def Completes (m : Calling τ) (id : BitVec 64) (reason : ThreadState) : Prop :=
  ∃ n s', run callStep m (List.replicate n .next) = some ⟨s', false, []⟩
    ∧ Blocked m.sched s' id reason

/-! ## §3. The call cycle. -/

/-- The steps of an activation before it is back from the call it makes. -/
def Activation.entering : Activation → Bool
  | .stop _ | .lock_load _ _ | .lock_store _ _ | .unlink _ _ | .call_stop _ _ => true
  | .stop_return | .write _ _ | .unlock => false

/-- The innermost activation has not come back from a call. -/
def Calling.Entering (m : Calling τ) : Prop :=
  ∃ a st, m.stack = a :: st ∧ a.entering = true

variable {m m' : Calling τ}

theorem Calling.Entering.not_returned (h : m.Entering) : m.stack ≠ [] := by
  obtain ⟨a, st, hst, -⟩ := h
  rw [hst]
  exact List.cons_ne_nil a st

theorem Calling.entering_next (hm : m.Entering) (h : m.next = some m') :
    m'.Entering := by
  obtain ⟨a, st, hst, ha⟩ := hm
  unfold Calling.next at h
  rw [hst] at h
  cases a with
  | stop id =>
    injection h with h
    exact ⟨.lock_load id .stopped, .stop_return :: st, by rw [← h], rfl⟩
  | lock_load id reason =>
    simp only at h
    split at h
    · injection h with h
      exact ⟨.lock_load id reason, st, by rw [← h, hst], rfl⟩
    · injection h with h
      exact ⟨.lock_store id reason, st, by rw [← h], rfl⟩
  | lock_store id reason =>
    injection h with h
    exact ⟨.unlink id reason, st, by rw [← h], rfl⟩
  | unlink id reason =>
    obtain ⟨schedule, -, h⟩ := Option.map_eq_some_iff.mp h
    exact ⟨.call_stop id reason, st, by rw [← h], rfl⟩
  | call_stop id reason =>
    injection h with h
    exact ⟨.stop id, .write id reason :: st, by rw [← h], rfl⟩
  | stop_return | write | unlock => cases ha

theorem Calling.entering_step {a : CallMove τ} (hm : m.Entering)
    (h : callStep m a = some m') : m'.Entering := by
  cases a with
  | next => exact Calling.entering_next hm h
  | others sched threads_lock =>
    obtain ⟨a, st, hst, ha⟩ := hm
    injection h with h
    exact ⟨a, st, by rw [← h, hst], ha⟩

theorem Calling.Entering.run {moves : List (CallMove τ)} (hm : m.Entering)
    (h : run callStep m moves = some m') : m'.stack ≠ [] :=
  (run_invariant callStep Calling.Entering (fun _ _ _ => Calling.entering_step) moves m m' hm
    h).not_returned

theorem Calling.Entering.not_completes (hm : m.Entering) (id : BitVec 64)
    (reason : ThreadState) : ¬ Completes m id reason := by
  rintro ⟨n, s', hrun, -⟩
  exact hm.run hrun rfl

/-! ## §4. A call that is alone. -/

/-- The call waits for good: `threads_lock` is taken, by the call itself, and
the next step is the load of `lock` again. -/
structure Spinning (s : Sched τ) (id : BitVec 64) (m : Calling τ) : Prop where
  locked : m.threads_lock = true
  next : m.next = some m
  unlinked : s.eraseById id s.schedule = some m.sched.schedule
  unchanged : m.sched.objects = s.objects

theorem calling_spins {s : Sched τ} (hlive : ∀ p ∈ s.schedule, ∃ t, s.objects p = some t)
    (id : BitVec 64) (reason : ThreadState) (st : List Activation) :
    ∃ m, run callStep ⟨s, false, .lock_load id reason :: st⟩ (List.replicate 5 .next) = some m
      ∧ Spinning s id m := by
  have herase := eraseById_eq id s.schedule hlive
  refine ⟨⟨{ s with schedule := s.schedule.eraseP fun p => (s.objects p).any (·.id == id) }, true,
    .lock_load id .stopped :: .stop_return :: .write id reason :: st⟩, ?_, ?_⟩
  · -- take the lock, unlink, and enter `sched_stop` and `sched_block` again
    simp only [List.replicate, run, List.foldlM_cons, List.foldlM_nil, callStep, Calling.next]
    simp [herase]
  · exact ⟨rfl, rfl, herase, rfl⟩

/-! ## §5. No call returns. -/

/-- **Neither call ever completes**: not in any state and for any thread and
reason; it does not return whatever the other CPUs do; and alone, with the lock
free, it spins for ever on the lock it holds, the thread unlinked and its state
not yet written. -/
theorem block_never_completes (s : Sched τ) (id : BitVec 64) (reason : ThreadState) :
    (¬ Completes (.sched_block s false id reason) id reason
      ∧ ¬ Completes (.sched_stop s false id) id .stopped)
    ∧ (∀ locked moves m, run callStep (.sched_block s locked id reason) moves = some m
        ∨ run callStep (.sched_stop s locked id) moves = some m → m.stack ≠ [])
    ∧ ((∀ p ∈ s.schedule, ∃ t, s.objects p = some t) →
        (∃ m, run callStep (.sched_block s false id reason) (List.replicate 5 .next) = some m
          ∧ Spinning s id m)
        ∧ ∃ m, run callStep (.sched_stop s false id) (List.replicate 6 .next) = some m
          ∧ Spinning s id m) := by
  have hblock : ∀ locked, (Calling.sched_block s locked id reason).Entering :=
    fun locked => ⟨.lock_load id reason, [], rfl, rfl⟩
  have hstop : ∀ locked, (Calling.sched_stop s locked id).Entering :=
    fun locked => ⟨.stop id, [], rfl, rfl⟩
  refine ⟨⟨(hblock false).not_completes id reason, (hstop false).not_completes id .stopped⟩, ?_,
    fun hlive => ⟨calling_spins hlive id reason [], ?_⟩⟩
  · intro locked moves m h
    rcases h with h | h
    · exact (hblock locked).run h
    · exact (hstop locked).run h
  · -- the first step of `sched_stop` is the call of `sched_block`
    obtain ⟨m, hrun, hspin⟩ := calling_spins hlive id .stopped [.stop_return]
    refine ⟨m, ?_, hspin⟩
    rw [List.replicate_succ, run_cons]
    exact hrun

/-- CPU 0's thread 5 cannot be stopped. -/
theorem block_never_completes_twoCpus :
    ∃ m, run callStep (.sched_stop twoCpus.toSched false 5) (List.replicate 6 .next) = some m
      ∧ m.threads_lock = true ∧ m.sched.schedule = [1] := by
  have hlive : ∀ p ∈ twoCpus.toSched.schedule, ∃ t, twoCpus.toSched.objects p = some t := by
    intro p hp
    obtain ⟨id, hid⟩ := twoCpus.linked p hp
    obtain ⟨t, ht, -⟩ := twoCpus_ids id p hid
    exact ⟨t, ht⟩
  obtain ⟨m, hrun, hspin⟩ :=
    ((block_never_completes twoCpus.toSched 5 .stopped).2.2 hlive).2
  have hunlinked : some [1] = some m.sched.schedule := hspin.unlinked
  injection hunlinked with hschedule
  exact ⟨m, hrun, hspin.locked, hschedule.symm⟩

/-- The calls should complete for every registered thread. -/
theorem block_deadlocks :
    ¬ ∀ (s : Sched Unit) (id : BitVec 64) (p : Nat) (reason : ThreadState),
        s.threads id = some p →
        Completes (.sched_block s false id reason) id reason
          ∧ Completes (.sched_stop s false id) id .stopped := by
  intro h
  have hstop := (h twoCpus.toSched 5 0 .blocked_ipc rfl).2
  exact Calling.Entering.not_completes ⟨.stop 5, [], rfl, rfl⟩ 5 .stopped hstop

end Quack.Proc
