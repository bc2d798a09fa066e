/-
  Quack.Proc.Scheduler
  **THE SCHEDULER: thread table, run queue, per-CPU records.**

  `proc/scheduler.cpp` refers to a thread from three places: the hash map
  `threads` (id ↦ object), the intrusive list `schedule` and the record
  `sched_procs[cpu]` (an id).  Objects have their own lifetime, so the model
  keeps them in a separate store: `objects p` is the live thread at address
  `p`, and following a pointer to a deleted object is a fault.

  Every operation returns `none` where the kernel stops: a failed assertion
  (the list's own "element is not null / not linked yet" included), a null or
  dangling pointer, a CPU number outside `sched_procs`.

  The type `τ` is the CPU state an `arch_task` saves; the scheduler copies it
  and never looks inside.
-/
import Quack.Lib.Runs
import Mathlib.Logic.Function.Basic
import Mathlib.Data.List.Nodup

namespace Quack.Proc

/-! ## §1. Threads and the scheduler's state. -/

/-- `enum class state`. -/
inductive ThreadState where
  | stopped
  | running
  | blocked_ipc
  | blocked_irq
  deriving Repr, DecidableEq

/-- `struct thread`, as far as the scheduler reads it. -/
structure Thread (τ : Type) where
  task : τ
  id : BitVec 64
  state : ThreadState
  running_on : Int
  deriving Repr, DecidableEq

/-- The constructor `thread::thread`. -/
def Thread.new {τ : Type} (task : τ) : Thread τ := ⟨task, 0, .stopped, -1⟩

/-- `struct sched_cpu_data`. -/
structure SchedCpuData where
  current_thread : BitVec 64
  running : Bool
  deriving Repr, DecidableEq

/-- The file's static variables, with the heap of thread objects.  `idx` is
the static cursor of `get_next_thread_to_run`; addresses below `next_ptr` have
been handed out, and the kernel heap never hands one out again. -/
structure Sched (τ : Type) where
  objects : Nat → Option (Thread τ)
  next_ptr : Nat
  threads : BitVec 64 → Option Nat
  schedule : List Nat
  next_id : BitVec 64
  idx : Nat
  sched_procs : List SchedCpuData

variable {τ : Type}

/-- The static initial values, with no CPU registered yet. -/
def Sched.initial : Sched τ :=
  ⟨fun _ => none, 0, fun _ => none, [], 0, 0, []⟩

/-- Overwrite the object at address `p`. -/
def Sched.setThread (s : Sched τ) (p : Nat) (t : Thread τ) : Sched τ :=
  { s with objects := Function.update s.objects p (some t) }

/-- Overwrite the record of CPU `cpu`. -/
def Sched.setProc (s : Sched τ) (cpu : Nat) (d : SchedCpuData) : Sched τ :=
  { s with sched_procs := s.sched_procs.set cpu d }

def Sched.deref (s : Sched τ) (id : BitVec 64) : Option (Nat × Thread τ) :=
  (s.threads id).bind (fun p => (s.objects p).map (fun t => (p, t)))

/-! ## §2. The operations. -/

/-- `make_unique<thread>(task, …)`: a fresh object. -/
def Sched.new_thread (s : Sched τ) (task : τ) : Nat × Sched τ :=
  (s.next_ptr,
    { s with objects := Function.update s.objects s.next_ptr (some (Thread.new task))
             next_ptr := s.next_ptr + 1 })

def Sched.scan (s : Sched τ) (idx : Nat) : Nat → List Nat → Option (Option (Nat × BitVec 64))
  | _, [] => some none
  | i, p :: ps =>
    match s.objects p with
    | none => none
    | some t =>
      if i < idx then s.scan idx (i + 1) ps
      else if t.running_on = -1 then some (some (i, t.id))
      else s.scan idx (i + 1) ps

def Sched.get_next_thread_to_run (s : Sched τ) : Option (Option (BitVec 64) × Sched τ) :=
  match s.scan s.idx 0 s.schedule with
  | none => none
  | some (some (i, id)) => some (some id, { s with idx := i })
  | some none =>
    match s.scan 0 0 s.schedule with
    | none => none
    | some (some (i, id)) => some (some id, { s with idx := i })
    | some none => some (none, { s with idx := 0 })

/-- How `sched_resched` ends: back to the interrupted code, into a thread, or
idle. -/
inductive Exit (τ : Type) where
  | resume
  | enter (task : τ)
  | idle
  deriving Repr, DecidableEq

def Sched.release (s : Sched τ) (data : SchedCpuData) (irq_state : τ) (resched : Bool) :
    Option (Sched τ) :=
  if data.running && !resched then
    (s.deref data.current_thread).map
      (fun (p, t) => s.setThread p { t with task := irq_state, running_on := -1 })
  else some s

/-- `sched_resched` on CPU `cpu`. -/
def Sched.sched_resched (s : Sched τ) (cpu : Nat) (irq_state : τ) (resched : Bool) :
    Option (Exit τ × Sched τ) := do
  let data ← s.sched_procs[cpu]?
  let s ← s.release data irq_state resched
  let (next_thread, s) ← s.get_next_thread_to_run
  match next_thread with
  | some next =>
    let (p, t) ← s.deref next
    let s := s.setThread p { t with running_on := cpu }
    if data.running && next == data.current_thread then
      some (.resume, s)
    else
      some (.enter t.task, s.setProc cpu ⟨next, true⟩)
  | none => some (.idle, s.setProc cpu { data with running := false })

def Sched.sched_add (s : Sched τ) (p : Nat) : Option (BitVec 64 × Sched τ) :=
  match s.objects p with
  | none => none
  | some t =>
    if t.state = .stopped then
      some (s.next_id,
        { s with next_id := s.next_id + 1
                 threads := Function.update s.threads s.next_id (some p) })
    else none

/-- The loop of `sched_remove`: unlink the first thread whose `_id` is `id`. -/
def Sched.eraseById (s : Sched τ) (id : BitVec 64) : List Nat → Option (List Nat)
  | [] => some []
  | p :: ps =>
    match s.objects p with
    | none => none
    | some t => if t.id = id then some ps else (s.eraseById id ps).map (p :: ·)

def Sched.sched_remove (s : Sched τ) (id : BitVec 64) : Option (Sched τ) :=
  (s.eraseById id s.schedule).map (fun schedule =>
    match s.threads id with
    | none => { s with schedule := schedule }
    | some p =>
      { s with schedule := schedule
               threads := Function.update s.threads id none
               objects := Function.update s.objects p none })

def Sched.sched_run (s : Sched τ) (id : BitVec 64) : Option (Sched τ) :=
  match s.deref id with
  | none => none
  | some (p, _) => if p ∈ s.schedule then none else some { s with schedule := s.schedule ++ [p] }

/-! ## §3. The small facts the proofs use. -/

@[simp] theorem setThread_threads (s : Sched τ) (p : Nat) (t : Thread τ) :
    (s.setThread p t).threads = s.threads := rfl

@[simp] theorem setThread_objects_self (s : Sched τ) (p : Nat) (t : Thread τ) :
    (s.setThread p t).objects p = some t := by
  simp [Sched.setThread]

variable {p cpu c : Nat} {s : Sched τ}

theorem setThread_objects_ne (s : Sched τ) {q : Nat} (t : Thread τ) (h : q ≠ p) :
    (s.setThread p t).objects q = s.objects q := by
  simp [Sched.setThread, h]

@[simp] theorem setProc_threads (s : Sched τ) (cpu : Nat) (d : SchedCpuData) :
    (s.setProc cpu d).threads = s.threads := rfl

@[simp] theorem setProc_objects (s : Sched τ) (cpu : Nat) (d : SchedCpuData) :
    (s.setProc cpu d).objects = s.objects := rfl

theorem setProc_procs_self (s : Sched τ) (d : SchedCpuData)
    (h : cpu < s.sched_procs.length) : (s.setProc cpu d).sched_procs[cpu]? = some d := by
  simp [Sched.setProc, h]

theorem setProc_procs_ne (s : Sched τ) (d : SchedCpuData) (h : c ≠ cpu) :
    (s.setProc cpu d).sched_procs[c]? = s.sched_procs[c]? := by
  simp [Sched.setProc, Ne.symm h]

theorem setProc_procs_cases {d d' : SchedCpuData}
    (h : (s.setProc cpu d).sched_procs[c]? = some d') :
    (c = cpu ∧ d' = d) ∨ (c ≠ cpu ∧ s.sched_procs[c]? = some d') := by
  by_cases hc : c = cpu
  · subst hc
    have hlt : c < s.sched_procs.length := by
      have hlt := (List.getElem?_eq_some_iff.mp h).1
      rwa [Sched.setProc, List.length_set] at hlt
    rw [setProc_procs_self s d hlt] at h
    injection h with h
    exact Or.inl ⟨rfl, h.symm⟩
  · rw [setProc_procs_ne s d hc] at h
    exact Or.inr ⟨hc, h⟩

theorem setProc_eq_self {d : SchedCpuData}
    (h : s.sched_procs[cpu]? = some d) : s.setProc cpu d = s := by
  obtain ⟨hlt, hd⟩ := List.getElem?_eq_some_iff.mp h
  unfold Sched.setProc
  rw [← hd, List.set_getElem_self hlt]

theorem deref_eq_some {id : BitVec 64} {t : Thread τ} :
    s.deref id = some (p, t) ↔ s.threads id = some p ∧ s.objects p = some t := by
  unfold Sched.deref
  rw [Option.bind_eq_some_iff]
  constructor
  · rintro ⟨q, hq, h⟩
    obtain ⟨t', ht', he⟩ := Option.map_eq_some_iff.mp h
    injection he with h1 h2
    subst h1 h2
    exact ⟨hq, ht'⟩
  · rintro ⟨hp, ht⟩
    exact ⟨p, hp, by rw [ht]; rfl⟩

theorem scan_found (s : Sched τ) (idx : Nat) :
    ∀ (ps : List Nat) (i j : Nat) (id : BitVec 64),
      s.scan idx i ps = some (some (j, id)) →
      ∃ p t, i ≤ j ∧ ps[j - i]? = some p ∧ s.objects p = some t
        ∧ t.running_on = -1 ∧ t.id = id
  | [], i, j, id, h => by cases h
  | p :: ps, i, j, id, h => by
    unfold Sched.scan at h
    cases hp : s.objects p with
    | none => rw [hp] at h; cases h
    | some t =>
      rw [hp] at h
      -- a step past `p` shifts the position by one
      have hnext : s.scan idx (i + 1) ps = some (some (j, id)) →
          ∃ q u, i ≤ j ∧ (p :: ps)[j - i]? = some q ∧ s.objects q = some u
            ∧ u.running_on = -1 ∧ u.id = id := by
        intro hs
        obtain ⟨q, u, hij, hq, hu, hrun, hid⟩ := scan_found s idx ps (i + 1) j id hs
        refine ⟨q, u, by omega, ?_, hu, hrun, hid⟩
        rw [show j - i = (j - (i + 1)) + 1 by omega, List.getElem?_cons_succ]
        exact hq
      simp only at h
      split at h
      · exact hnext h
      · split at h
        · next hrun =>
            injection h with h
            injection h with h
            injection h with hj hid
            subst hj hid
            exact ⟨p, t, Nat.le_refl i, by simp, hp, hrun, rfl⟩
        · exact hnext h

theorem get_next_cases {s' : Sched τ} {r : Option (BitVec 64)}
    (h : s.get_next_thread_to_run = some (r, s')) :
    (∃ i, s' = { s with idx := i })
    ∧ ∀ id, r = some id → ∃ p t, s.schedule[s'.idx]? = some p ∧ s.objects p = some t
        ∧ t.running_on = -1 ∧ t.id = id := by
  have found : ∀ idx j id, s.scan idx 0 s.schedule = some (some (j, id)) →
      ∃ p t, s.schedule[j]? = some p ∧ s.objects p = some t
        ∧ t.running_on = -1 ∧ t.id = id := by
    intro idx j id hs
    obtain ⟨p, t, -, hp, ht, hrun, hid⟩ := scan_found s idx s.schedule 0 j id hs
    exact ⟨p, t, by simpa using hp, ht, hrun, hid⟩
  unfold Sched.get_next_thread_to_run at h
  split at h
  · cases h
  · next i id hs =>
      injection h with h
      injection h with hr hs'
      subst hr hs'
      refine ⟨⟨i, rfl⟩, fun id' he => ?_⟩
      injection he with he
      subst he
      exact found _ _ _ hs
  · split at h
    · cases h
    · next i id hs =>
        injection h with h
        injection h with hr hs'
        subst hr hs'
        refine ⟨⟨i, rfl⟩, fun id' he => ?_⟩
        injection he with he
        subst he
        exact found _ _ _ hs
    · injection h with h
      injection h with hr hs'
      subst hr hs'
      exact ⟨⟨0, rfl⟩, fun id' he => by cases he⟩

end Quack.Proc
