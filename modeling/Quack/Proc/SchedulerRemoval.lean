/-
  Quack.Proc.SchedulerRemoval
  **WHAT IS LEFT OF A REMOVED THREAD.**

  A thread is reached in three ways: the table `threads` by its key, the run
  queue by a pointer, a CPU record by the id in `current_thread`.
  `sched_remove(id)` drops the table entry, unlinks the first queued thread
  whose `_id` (not whose key) is `id`, and leaves the CPU records alone.

  In a run from `sched_init` every removal is complete and every state is
  `Resolved` exactly when every call of the run is `Clean`.
-/
import Quack.Proc.SchedulerCpus

namespace Quack.Proc

open Lib

variable {τ : Type}

/-! ## §1. The remaining calls of the file. -/

/-- `sched_init`: one idle record per CPU. -/
def Sched.sched_init (s : Sched τ) (n_cpus : Nat) : Option (Sched τ) :=
  if n_cpus = 0 then none
  else some { s with sched_procs := s.sched_procs ++ List.replicate n_cpus ⟨0, false⟩ }

def Sched.sched_get (s : Sched τ) (id : BitVec 64) : Option (Nat × Thread τ) := s.deref id

/-- `sched_this` on CPU `cpu`. -/
def Sched.sched_this (s : Sched τ) (cpu : Nat) : Option (Nat × Thread τ) := do
  let data ← s.sched_procs[cpu]?
  if data.running then s.sched_get data.current_thread else none

def Sched.sched_page_fault (s : Sched τ) (cpu : Nat) (fault_hit : Nat → Bool) : Option Unit := do
  let data ← s.sched_procs[cpu]?
  if data.running then
    let (thread, _) ← s.deref data.current_thread
    if fault_hit thread then some () else none
  else none

/-- The calls of a history: the three of the interface, and the timer
interrupt on one of the CPUs. -/
inductive SchedOp (τ : Type) where
  | sched_add (task : τ)
  | sched_run (id : BitVec 64)
  | sched_remove (id : BitVec 64)
  | sched_resched (cpu : Nat) (irq_state : τ)
  deriving Repr, DecidableEq

def schedStep (s : Sched τ) : SchedOp τ → Option (Sched τ)
  | .sched_add task => idStep s (.sched_add task)
  | .sched_run id => s.sched_run id
  | .sched_remove id => s.sched_remove id
  | .sched_resched cpu irq_state => (s.sched_resched cpu irq_state false).map (·.2)

/-! ## §2. What is looked up, and what a removal has to do. -/

/-- Every queued pointer is a registered, live thread, and the ids that are
looked up (the `_id` of a queued thread, the `current_thread` of a running
CPU) lead through the table to a live thread. -/
structure Resolved (s : Sched τ) : Prop where
  queue : ∀ p ∈ s.schedule, (∃ id, s.threads id = some p)
    ∧ ∃ t, s.objects p = some t ∧ (s.deref t.id).isSome
  current : ∀ (cpu : Nat) data, s.sched_procs[cpu]? = some data → data.running = true →
    (s.deref data.current_thread).isSome

def LookupsSucceed (s : Sched τ) : Prop :=
  ∀ (cpu : Nat) data, s.sched_procs[cpu]? = some data →
    (∀ irq_state resched, (s.sched_resched cpu irq_state resched).isSome)
    ∧ (data.running = true → (s.sched_this cpu).isSome
        ∧ (s.sched_page_fault cpu fun _ => true).isSome)

/-- The thread at `p`, registered under `id` in `s`, is gone in `s'`: from the
queue, from the table and from the running CPUs, and the queue is otherwise
the same. -/
structure Removed (s s' : Sched τ) (id : BitVec 64) (p : Nat) : Prop where
  table : s'.threads id = none
  unlinked : p ∉ s'.schedule
  released : ∀ data ∈ s'.sched_procs, data.running = true → data.current_thread ≠ id
  others : ∀ q, q ≠ p → (q ∈ s'.schedule ↔ q ∈ s.schedule)

/-- If the call is a removal of a registered id, it returns and is complete. -/
def RemovesCompletely (s : Sched τ) : SchedOp τ → Prop
  | .sched_remove id => ∀ p, s.threads id = some p →
      ∃ s', s.sched_remove id = some s' ∧ Removed s s' id p
  | _ => True

/-- The condition on one removal: no CPU runs the thread, and among the queued
threads it is the one whose `_id` is `id`. -/
structure CleanRemoval (s : Sched τ) (id : BitVec 64) (p : Nat) : Prop where
  idle : ∀ data ∈ s.sched_procs, data.running = true → data.current_thread ≠ id
  own : ∀ q ∈ s.schedule, ∀ t, s.objects q = some t → (t.id = id ↔ q = p)

def Clean (s : Sched τ) : SchedOp τ → Prop
  | .sched_add _ => ∀ p, s.threads s.next_id = some p → p ∉ s.schedule
  | .sched_run id => ∀ p t, s.deref id = some (p, t) → p ∉ s.schedule → (s.threads t.id).isSome
  | .sched_remove id => ∀ p, s.threads id = some p → CleanRemoval s id p
  | .sched_resched _ _ => True

instance (s : Sched τ) (id : BitVec 64) (p : Nat) : Decidable (CleanRemoval s id p) :=
  decidable_of_iff
    ((∀ data ∈ s.sched_procs, data.running = true → data.current_thread ≠ id)
      ∧ ∀ q ∈ s.schedule, ∀ t ∈ s.objects q, (t.id = id ↔ q = p))
    ⟨fun h => ⟨h.1, h.2⟩, fun h => ⟨h.idle, h.own⟩⟩

instance (s : Sched τ) : (op : SchedOp τ) → Decidable (Clean s op)
  | .sched_add _ => inferInstanceAs (Decidable (∀ p ∈ s.threads s.next_id, p ∉ s.schedule))
  | .sched_run id =>
    decidable_of_iff (∀ x ∈ s.deref id, x.1 ∉ s.schedule → (s.threads x.2.id).isSome)
      ⟨fun h p t => h (p, t), fun h x => h x.1 x.2⟩
  | .sched_remove id => inferInstanceAs (Decidable (∀ p ∈ s.threads id, CleanRemoval s id p))
  | .sched_resched _ _ => inferInstanceAs (Decidable True)

/-! ## §3. The lookups of the interrupt paths. -/

theorem scan_returns (s : Sched τ) (idx : Nat) :
    ∀ (ps : List Nat) (i : Nat), (∀ p ∈ ps, ∃ t, s.objects p = some t) →
      ∃ r, s.scan idx i ps = some r
  | [], _, _ => ⟨none, rfl⟩
  | p :: ps, i, hlive => by
    obtain ⟨t, ht⟩ := hlive p List.mem_cons_self
    obtain ⟨r, hr⟩ := scan_returns s idx ps (i + 1)
      fun q hq => hlive q (List.mem_cons_of_mem p hq)
    unfold Sched.scan
    rw [ht]
    simp only
    split
    · exact ⟨r, hr⟩
    · split
      · exact ⟨_, rfl⟩
      · exact ⟨r, hr⟩

variable {s s' : Sched τ} {id id' : BitVec 64} {p cpu q : Nat} {u t : Thread τ} {op : SchedOp τ}

theorem get_next_returns (hlive : ∀ p ∈ s.schedule, ∃ t, s.objects p = some t) :
    ∃ r s', s.get_next_thread_to_run = some (r, s') := by
  obtain ⟨r1, h1⟩ := scan_returns s s.idx s.schedule 0 hlive
  obtain ⟨r2, h2⟩ := scan_returns s 0 s.schedule 0 hlive
  unfold Sched.get_next_thread_to_run
  rw [h1]
  match r1 with
  | some (i, id) => exact ⟨_, _, rfl⟩
  | none =>
    rw [h2]
    match r2 with
    | some (i, id) => exact ⟨_, _, rfl⟩
    | none => exact ⟨_, _, rfl⟩

theorem Resolved.queue_live (hs : Resolved s) :
    ∀ p ∈ s.schedule, ∃ t, s.objects p = some t := by
  intro p hp
  obtain ⟨-, t, ht, -⟩ := hs.queue p hp
  exact ⟨t, ht⟩

theorem deref_setThread_isSome (h : (s.deref id).isSome) : ((s.setThread p u).deref id).isSome := by
  obtain ⟨⟨q, v⟩, hq⟩ := Option.isSome_iff_exists.mp h
  obtain ⟨hth, hv⟩ := deref_eq_some.mp hq
  by_cases hqp : q = p
  · subst hqp
    exact Option.isSome_iff_exists.mpr ⟨(q, u), deref_eq_some.mpr
      ⟨hth, setThread_objects_self s q u⟩⟩
  · exact Option.isSome_iff_exists.mpr ⟨(q, v), deref_eq_some.mpr
      ⟨hth, by rw [setThread_objects_ne s u hqp]; exact hv⟩⟩

theorem Resolved.setThread (hs : Resolved s)
    (ht : s.objects p = some t) (hid : u.id = t.id) : Resolved (s.setThread p u) := by
  refine ⟨fun q hq => ?_, fun cpu data hc hr => deref_setThread_isSome (hs.current cpu data hc hr)⟩
  obtain ⟨hreg, v, hv, hd⟩ := hs.queue q hq
  refine ⟨hreg, ?_⟩
  by_cases hqp : q = p
  · subst hqp
    rw [ht] at hv
    injection hv with hv
    refine ⟨u, setThread_objects_self s q u, ?_⟩
    rw [hid, hv]
    exact deref_setThread_isSome hd
  · exact ⟨v, by rw [setThread_objects_ne s u hqp]; exact hv, deref_setThread_isSome hd⟩

theorem Resolved.release (hs : Resolved s) {data : SchedCpuData}
    (hdata : s.sched_procs[cpu]? = some data) (irq_state : τ) (resched : Bool) :
    ∃ s1, s.release data irq_state resched = some s1 ∧ Resolved s1 := by
  unfold Sched.release
  split
  · next hcond =>
      simp only [Bool.and_eq_true] at hcond
      obtain ⟨⟨p, t⟩, hd⟩ := Option.isSome_iff_exists.mp (hs.current cpu data hdata hcond.1)
      rw [hd]
      exact ⟨_, rfl, hs.setThread (deref_eq_some.mp hd).2 rfl⟩
  · exact ⟨s, rfl, hs⟩

theorem Resolved.sched_resched (hs : Resolved s) {data : SchedCpuData}
    (hdata : s.sched_procs[cpu]? = some data) (irq_state : τ) (resched : Bool) :
    (s.sched_resched cpu irq_state resched).isSome := by
  obtain ⟨s1, hrel, hs1⟩ := hs.release hdata irq_state resched
  obtain ⟨r, s2, hpick⟩ := get_next_returns hs1.queue_live
  obtain ⟨⟨i, rfl⟩, hfound⟩ := get_next_cases hpick
  simp only [Sched.sched_resched, hdata, hrel, hpick, Option.bind_eq_bind, Option.bind_some]
  cases r with
  | none => rfl
  | some next =>
    obtain ⟨p, t, hp, ht, -, hid⟩ := hfound next rfl
    obtain ⟨-, u, hu, hd⟩ := hs1.queue p (List.mem_of_getElem? hp)
    rw [ht] at hu
    injection hu with hu
    rw [← hu, hid] at hd
    obtain ⟨⟨q, v⟩, hq⟩ := Option.isSome_iff_exists.mp hd
    -- the cursor does not matter for the lookup
    have hq' : ({ s1 with idx := i } : Sched τ).deref next = some (q, v) := hq
    simp only [hq', Option.bind_some]
    split <;> rfl

theorem Resolved.lookupsSucceed (hs : Resolved s) : LookupsSucceed s := by
  intro cpu data hdata
  refine ⟨hs.sched_resched hdata, fun hrun => ?_⟩
  obtain ⟨⟨p, t⟩, hd⟩ := Option.isSome_iff_exists.mp (hs.current cpu data hdata hrun)
  constructor
  · simp [Sched.sched_this, Sched.sched_get, hdata, hrun, hd]
  · simp [Sched.sched_page_fault, hdata, hrun, hd]

/-! ## §4. The invariant of clean runs. -/

/-- Table and queue are in order: registered threads are live, under one key
each, at addresses handed out before; the queue is free of duplicates. -/
structure RefInv (s : Sched τ) : Prop extends Resolved s where
  live : ∀ id p, s.threads id = some p → p < s.next_ptr ∧ ∃ t, s.objects p = some t
  oneKey : ∀ id id' p, s.threads id = some p → s.threads id' = some p → id = id'
  nodup : s.schedule.Nodup

theorem RefInv.deref_isSome (hs : RefInv s)
    (h : s.threads id = some p) : (s.deref id).isSome := by
  obtain ⟨-, t, ht⟩ := hs.live id p h
  exact Option.isSome_iff_exists.mpr ⟨(p, t), deref_eq_some.mpr ⟨h, ht⟩⟩

theorem registered_of_deref (h : (s.deref id).isSome) :
    ∃ p, s.threads id = some p := by
  obtain ⟨⟨p, t⟩, hd⟩ := Option.isSome_iff_exists.mp h
  exact ⟨p, (deref_eq_some.mp hd).1⟩

theorem RefInv.booted {n_cpus : Nat}
    (h : Sched.initial.sched_init n_cpus = some s) : RefInv s := by
  unfold Sched.sched_init at h
  split at h
  · cases h
  · injection h with h
    subst h
    refine ⟨⟨fun p hp => ?_, fun cpu data hc hr => ?_⟩, fun id p hp => ?_, fun id id' p hp => ?_,
      List.nodup_nil⟩
    · cases hp
    · -- every record is `⟨0, false⟩`
      have hmem := List.mem_of_getElem? hc
      simp only [Sched.initial, List.nil_append] at hmem
      rw [List.eq_of_mem_replicate hmem] at hr
      cases hr
    · cases hp
    · cases hp

/-! ## §5. The four calls. -/

section Add

variable {s : Sched τ} {task : τ}

/-- The state after `sched_add` of a fresh thread. -/
def Sched.added (s : Sched τ) (task : τ) : Sched τ :=
  { s with
      objects := Function.update s.objects s.next_ptr (some (Thread.new task))
      next_ptr := s.next_ptr + 1
      next_id := s.next_id + 1
      threads := Function.update s.threads s.next_id (some s.next_ptr) }

theorem RefInv.next_ptr_fresh (hs : RefInv s) (id : BitVec 64) :
    s.threads id ≠ some s.next_ptr :=
  fun hid => Nat.lt_irrefl _ (hs.live id _ hid).1

variable {id : BitVec 64}

theorem RefInv.added_objects (hs : RefInv s) {p : Nat}
    (hp : s.threads id = some p) : (s.added task).objects p = s.objects p := by
  refine Function.update_of_ne (fun he => hs.next_ptr_fresh id ?_) _ _
  rw [hp, he]

theorem added_threads_cases {p : Nat}
    (hp : (s.added task).threads id = some p) :
    (id = s.next_id ∧ p = s.next_ptr) ∨ (id ≠ s.next_id ∧ s.threads id = some p) := by
  unfold Sched.added at hp
  by_cases hid : id = s.next_id
  · subst hid
    simp only [Function.update_self, Option.some.injEq] at hp
    exact Or.inl ⟨rfl, hp.symm⟩
  · simp only [Function.update_of_ne hid] at hp
    exact Or.inr ⟨hid, hp⟩

theorem RefInv.added_deref (hs : RefInv s) (hd : (s.deref id).isSome) :
    ((s.added task).deref id).isSome := by
  by_cases hid : id = s.next_id
  · refine Option.isSome_iff_exists.mpr ⟨(s.next_ptr, Thread.new task), deref_eq_some.mpr ?_⟩
    rw [hid]
    exact ⟨Function.update_self .., Function.update_self ..⟩
  · obtain ⟨⟨p, t⟩, hpt⟩ := Option.isSome_iff_exists.mp hd
    obtain ⟨hp, ht⟩ := deref_eq_some.mp hpt
    refine Option.isSome_iff_exists.mpr ⟨(p, t), deref_eq_some.mpr ⟨?_, ?_⟩⟩
    · rw [← hp]
      exact Function.update_of_ne hid _ _
    · rw [hs.added_objects hp]
      exact ht

theorem RefInv.add {s' : Sched τ} (hs : RefInv s) (hok : Clean s (.sched_add task))
    (h : schedStep s (.sched_add task) = some s') : RefInv s' := by
  rw [schedStep, idStep_add] at h
  injection h with h
  subst h
  show RefInv (s.added task)
  refine ⟨⟨fun p hp => ?_, fun cpu data hc hr => hs.added_deref (hs.current cpu data hc hr)⟩,
    fun id p hp => ?_, fun id id' p hp hp' => ?_, hs.nodup⟩
  · obtain ⟨⟨id, hid⟩, t, ht, hd⟩ := hs.queue p hp
    refine ⟨⟨id, ?_⟩, t, by rw [hs.added_objects hid]; exact ht, hs.added_deref hd⟩
    -- the key is not the one just handed out: its thread is not queued
    have hne : id ≠ s.next_id := by
      rintro rfl
      exact hok p hid hp
    rw [← hid]
    exact Function.update_of_ne hne _ _
  · rcases added_threads_cases hp with ⟨-, rfl⟩ | ⟨-, hid⟩
    · exact ⟨Nat.lt_succ_self _, Thread.new task, Function.update_self ..⟩
    · obtain ⟨hlt, t, ht⟩ := hs.live id p hid
      exact ⟨Nat.lt_succ_of_lt hlt, t, by rw [hs.added_objects hid]; exact ht⟩
  · rcases added_threads_cases hp with ⟨rfl, rfl⟩ | ⟨-, hid⟩
    · rcases added_threads_cases hp' with ⟨rfl, -⟩ | ⟨-, hid'⟩
      · rfl
      · exact absurd hid' (hs.next_ptr_fresh id')
    · rcases added_threads_cases hp' with ⟨-, rfl⟩ | ⟨-, hid'⟩
      · exact absurd hid (hs.next_ptr_fresh id)
      · exact hs.oneKey id id' p hid hid'

end Add

theorem RefInv.run (hs : RefInv s)
    (hok : Clean s (.sched_run id)) (h : schedStep s (.sched_run id) = some s') : RefInv s' := by
  have hnew : ∀ p t, s.deref id = some (p, t) → p ∉ s.schedule := by
    intro p t hd hmem
    simp only [schedStep, Sched.sched_run, hd, hmem, if_true] at h
    cases h
  obtain ⟨p, t, hp, ht, rfl⟩ := sched_run_cases h
  have hd : s.deref id = some (p, t) := deref_eq_some.mpr ⟨hp, ht⟩
  obtain ⟨q, hq⟩ := Option.isSome_iff_exists.mp (hok p t hd (hnew p t hd))
  refine ⟨⟨fun r hr => ?_, hs.current⟩, hs.live, hs.oneKey, ?_⟩
  · rcases List.mem_append.mp hr with hr | hr
    · exact hs.queue r hr
    · rw [List.mem_singleton.mp hr]
      exact ⟨⟨id, hp⟩, t, ht, hs.deref_isSome hq⟩
  · exact hs.nodup.append (List.nodup_singleton p) (by simpa using hnew p t hd)

theorem RefInv.setThread (hs : RefInv s)
    (ht : s.objects p = some t) (hid : u.id = t.id) : RefInv (s.setThread p u) := by
  refine ⟨hs.toResolved.setThread ht hid, fun id q hq => ?_, hs.oneKey, hs.nodup⟩
  obtain ⟨hlt, v, hv⟩ := hs.live id q hq
  refine ⟨hlt, ?_⟩
  by_cases hqp : q = p
  · exact ⟨u, by rw [hqp]; exact setThread_objects_self s p u⟩
  · exact ⟨v, by rw [setThread_objects_ne s u hqp]; exact hv⟩

theorem RefInv.setProc (hs : RefInv s) {d : SchedCpuData}
    (hd : d.running = true → (s.deref d.current_thread).isSome) : RefInv (s.setProc cpu d) := by
  refine ⟨⟨hs.queue, fun c d' hc hrun => ?_⟩, hs.live, hs.oneKey, hs.nodup⟩
  rcases setProc_procs_cases hc with ⟨-, rfl⟩ | ⟨-, hc⟩
  · exact hd hrun
  · exact hs.current c d' hc hrun

theorem RefInv.resched (hs : RefInv s) {irq_state : τ}
    (h : schedStep s (.sched_resched cpu irq_state) = some s') : RefInv s' := by
  obtain ⟨⟨e, s''⟩, hr, he⟩ := Option.map_eq_some_iff.mp h
  simp only at he
  subst he
  obtain ⟨data, s1, r, s2, hdata, hrel, hpick, hexit⟩ := sched_resched_cases hr
  have hs1 : RefInv s1 := by
    rcases release_cases hrel with ⟨-, rfl⟩ | ⟨-, -, p, t, hd, rfl⟩
    · exact hs
    · exact hs.setThread (deref_eq_some.mp hd).2 rfl
  obtain ⟨i, rfl⟩ := (get_next_cases hpick).1
  have hs2 : RefInv { s1 with idx := i } :=
    ⟨⟨hs1.queue, hs1.current⟩, hs1.live, hs1.oneKey, hs1.nodup⟩
  rcases hexit with ⟨next, p, t, -, hd, -, rfl⟩ | ⟨next, p, t, -, hd, -, -, rfl⟩ | ⟨-, -, rfl⟩
  · have hs3 : RefInv (({ s1 with idx := i } : Sched τ).setThread p { t with running_on := cpu }) :=
      hs2.setThread (deref_eq_some.mp hd).2 rfl
    exact hs3.setProc fun _ => deref_setThread_isSome (Option.isSome_iff_exists.mpr ⟨_, hd⟩)
  · exact hs2.setThread (deref_eq_some.mp hd).2 rfl
  · exact hs2.setProc fun hrun => by cases hrun

theorem eraseById_eq (id : BitVec 64) :
    ∀ ps : List Nat, (∀ p ∈ ps, ∃ t, s.objects p = some t) →
      s.eraseById id ps = some (ps.eraseP fun p => (s.objects p).any (·.id == id))
  | [], _ => rfl
  | p :: ps, hlive => by
    obtain ⟨t, ht⟩ := hlive p List.mem_cons_self
    have ih := eraseById_eq id ps fun q hq => hlive q (List.mem_cons_of_mem p hq)
    unfold Sched.eraseById
    rw [ht]
    by_cases hid : t.id = id
    · simp [hid, ht]
    · simp [hid, ht, ih]

/-- The state after `sched_remove` of the thread `p` under key `id`. -/
def Sched.without (s : Sched τ) (id : BitVec 64) (p : Nat) : Sched τ :=
  { s with
      schedule := s.schedule.eraseP fun q => (s.objects q).any (·.id == id)
      threads := Function.update s.threads id none
      objects := Function.update s.objects p none }

theorem RefInv.sched_remove_eq (hs : RefInv s)
    (hp : s.threads id = some p) : s.sched_remove id = some (s.without id p) := by
  unfold Sched.sched_remove
  rw [eraseById_eq id s.schedule hs.queue_live]
  simp only [Option.map_some, hp]
  rfl

theorem without_threads_cases
    (h : (s.without id p).threads id' = some q) : id' ≠ id ∧ s.threads id' = some q := by
  unfold Sched.without at h
  by_cases hid : id' = id
  · simp [hid] at h
  · simp only [Function.update_of_ne hid] at h
    exact ⟨hid, h⟩

section

variable (hs : RefInv s)

include hs

theorem RefInv.sched_remove_unregistered
    (hp : s.threads id = none) : s.sched_remove id = some s := by
  unfold Sched.sched_remove
  rw [eraseById_eq id s.schedule hs.queue_live]
  have hnone : s.schedule.eraseP (fun q => (s.objects q).any (·.id == id)) = s.schedule := by
    refine List.eraseP_of_forall_not fun q hq => ?_
    obtain ⟨-, t, ht, hd⟩ := hs.queue q hq
    obtain ⟨r, hr⟩ := registered_of_deref hd
    simp only [ht, Option.any_some, beq_iff_eq]
    rintro rfl
    rw [hp] at hr
    cases hr
  simp only [Option.map_some, hp, hnone]

theorem CleanRemoval.mem_iff
    (hok : CleanRemoval s id p) (q : Nat) :
    q ∈ (s.without id p).schedule ↔ q ∈ s.schedule ∧ q ≠ p := by
  show q ∈ s.schedule.eraseP (fun q => (s.objects q).any (·.id == id)) ↔ _
  have hmatch : ∀ r ∈ s.schedule, (s.objects r).any (·.id == id) = true ↔ r = p := by
    intro r hr
    obtain ⟨-, t, ht, -⟩ := hs.queue r hr
    rw [ht, Option.any_some, beq_iff_eq]
    exact hok.own r hr t ht
  constructor
  · intro hq
    refine ⟨List.mem_of_mem_eraseP hq, ?_⟩
    rintro rfl
    have hmem := List.mem_of_mem_eraseP hq
    obtain ⟨a, l1, l2, -, ha, hl, he⟩ :=
      List.exists_of_eraseP (p := fun r => (s.objects r).any (·.id == id)) hmem
        ((hmatch q hmem).mpr rfl)
    -- the erased element is `q`, and the queue holds it once
    have haq : a = q := (hmatch a (by rw [hl]; simp)).mp ha
    subst haq
    have hnd := hs.nodup
    rw [hl, List.nodup_middle, List.nodup_cons] at hnd
    rw [he] at hq
    exact hnd.1 hq
  · rintro ⟨hq, hne⟩
    refine (List.mem_eraseP_of_neg fun h => ?_).mpr hq
    exact hne ((hmatch q hq).mp h)

theorem RefInv.removed
    (hp : s.threads id = some p) (hok : CleanRemoval s id p) :
    ∃ s', s.sched_remove id = some s' ∧ Removed s s' id p := by
  refine ⟨_, hs.sched_remove_eq hp, Function.update_self .., fun hmem => ?_, hok.idle,
    fun q hq => ?_⟩
  · exact ((hok.mem_iff hs p).mp hmem).2 rfl
  · exact ⟨fun h => ((hok.mem_iff hs q).mp h).1, fun h => (hok.mem_iff hs q).mpr ⟨h, hq⟩⟩

theorem RefInv.without_objects
    (hp : s.threads id = some p) (hne : id' ≠ id) (hq : s.threads id' = some q) :
    (s.without id p).objects q = s.objects q := by
  refine Function.update_of_ne ?_ _ _
  rintro rfl
  exact hne (hs.oneKey id' id q hq hp)

theorem RefInv.without_deref
    (hp : s.threads id = some p) (hne : id' ≠ id) (hd : (s.deref id').isSome) :
    ((s.without id p).deref id').isSome := by
  obtain ⟨⟨q, t⟩, hqt⟩ := Option.isSome_iff_exists.mp hd
  obtain ⟨hq, ht⟩ := deref_eq_some.mp hqt
  refine Option.isSome_iff_exists.mpr ⟨(q, t), deref_eq_some.mpr ⟨?_, ?_⟩⟩
  · rw [← hq]
    exact Function.update_of_ne hne _ _
  · rw [hs.without_objects hp hne hq]
    exact ht

theorem RefInv.without
    (hp : s.threads id = some p) (hclean : CleanRemoval s id p) : RefInv (s.without id p) := by
  refine ⟨⟨fun q hq => ?_, fun cpu data hc hr => ?_⟩, fun id' q hq => ?_,
    fun id1 id2 q h1 h2 => ?_, hs.nodup.sublist List.eraseP_sublist⟩
  · obtain ⟨hmem, hqp⟩ := (hclean.mem_iff hs q).mp hq
    obtain ⟨⟨k, hk⟩, t, ht, hd⟩ := hs.queue q hmem
    have hki : k ≠ id := by
      rintro rfl
      rw [hp] at hk
      injection hk with hk
      exact hqp hk.symm
    refine ⟨⟨k, ?_⟩, t, by rw [hs.without_objects hp hki hk]; exact ht,
      hs.without_deref hp (fun he => hqp ((hclean.own q hmem t ht).mp he)) hd⟩
    rw [← hk]
    exact Function.update_of_ne hki _ _
  · exact hs.without_deref hp (hclean.idle data (List.mem_of_getElem? hc) hr)
      (hs.current cpu data hc hr)
  · obtain ⟨hid, hq⟩ := without_threads_cases hq
    obtain ⟨hlt, t, ht⟩ := hs.live id' q hq
    exact ⟨hlt, t, by rw [hs.without_objects hp hid hq]; exact ht⟩
  · exact hs.oneKey id1 id2 q (without_threads_cases h1).2 (without_threads_cases h2).2

theorem RefInv.remove
    (hok : Clean s (.sched_remove id)) (h : schedStep s (.sched_remove id) = some s') :
    RefInv s' := by
  rw [schedStep] at h
  cases hp : s.threads id with
  | none =>
    rw [hs.sched_remove_unregistered hp] at h
    injection h with h
    exact h ▸ hs
  | some p =>
    rw [hs.sched_remove_eq hp] at h
    injection h with h
    exact h ▸ hs.without hp (hok p hp)

theorem RefInv.step (hok : Clean s op)
    (h : schedStep s op = some s') : RefInv s' := by
  cases op with
  | sched_add task => exact hs.add hok h
  | sched_run id => exact hs.run hok h
  | sched_remove id => exact hs.remove hok h
  | sched_resched cpu irq_state => exact hs.resched h

theorem RefInv.removesCompletely
    (hok : Clean s op) : RemovesCompletely s op := by
  cases op with
  | sched_remove id => exact fun p hp => hs.removed hp (hok p hp)
  | _ => trivial

/-! ## §6. A call that is not clean shows. -/

theorem RefInv.cleanRemoval_of
    (hp : s.threads id = some p) (h : s.sched_remove id = some s')
    (hrem : Removed s s' id p) (hres : Resolved s') : CleanRemoval s id p := by
  rw [hs.sched_remove_eq hp] at h
  injection h with h
  subst h
  refine ⟨hrem.released, fun q hq t ht => ⟨fun hid => ?_, ?_⟩⟩
  · by_contra hne
    -- `q` stays queued, and its `_id` has just been dropped
    obtain ⟨-, u, hu, hd⟩ := hres.queue q ((hrem.others q hne).mpr hq)
    have hsame : (s.without id p).objects q = s.objects q := Function.update_of_ne hne _ _
    rw [hsame, ht] at hu
    injection hu with hu
    obtain ⟨r, hr⟩ := registered_of_deref hd
    rw [← hu, hid] at hr
    exact (without_threads_cases hr).1 rfl
  · rintro rfl
    by_contra hid
    refine hrem.unlinked ((List.mem_eraseP_of_neg ?_).mpr hq)
    simp [ht, hid]

theorem RefInv.clean_of
    (hrem : RemovesCompletely s op) (hres : ∀ s', schedStep s op = some s' → Resolved s') :
    Clean s op := by
  cases op with
  | sched_add task =>
    intro p hp hmem
    -- the queued thread has lost its only key
    obtain ⟨⟨id, hid⟩, -⟩ := (hres (s.added task) (idStep_add s task)).queue p hmem
    rcases added_threads_cases hid with ⟨-, rfl⟩ | ⟨hk, hid⟩
    · exact hs.next_ptr_fresh _ hp
    · exact hk (hs.oneKey id s.next_id p hid hp)
  | sched_run id =>
    intro p t hd hnew
    have hrun : schedStep s (.sched_run id)
        = some { s with schedule := s.schedule ++ [p] } := by
      simp only [schedStep, Sched.sched_run, hd, hnew, if_false]
    obtain ⟨-, u, hu, hdu⟩ := (hres _ hrun).queue p (by simp)
    rw [(deref_eq_some.mp hd).2] at hu
    injection hu with hu
    obtain ⟨q, hq⟩ := registered_of_deref hdu
    rw [hu]
    exact Option.isSome_iff_exists.mpr ⟨q, hq⟩
  | sched_remove id =>
    intro p hp
    obtain ⟨s', h, hremoved⟩ := hrem p hp
    exact hs.cleanRemoval_of hp h hremoved (hres s' h)
  | sched_resched cpu irq_state => trivial

end

/-! ## §7. Runs. -/

/-- **When removal is complete.**  In a history of `sched_add`, `sched_run`,
`sched_remove` and timer interrupts after `sched_init`, every removal of a
registered id returns and is complete, and every state is resolved, exactly
when every call of the history is clean; and then the interrupt paths find
every thread they follow, in every state. -/
theorem removal_complete_iff_clean (n_cpus : Nat) (s0 : Sched τ)
    (hboot : Sched.initial.sched_init n_cpus = some s0) (ops : List (SchedOp τ)) :
    (Along schedStep RemovesCompletely s0 ops ∧ Always schedStep Resolved s0 ops
      ↔ Along schedStep Clean s0 ops)
    ∧ (Along schedStep Clean s0 ops → Always schedStep LookupsSucceed s0 ops) := by
  have hinv : RefInv s0 := RefInv.booted hboot
  constructor
  · exact along_always_iff_along schedStep RefInv (fun _ hs => hs.toResolved)
      (fun _ _ hs hok => hs.removesCompletely hok) (fun _ _ _ hs hok h => hs.step hok h)
      (fun _ _ hs hrem hres => hs.clean_of hrem hres) ops s0 hinv
  · exact Along.always schedStep RefInv (fun _ hs => hs.toResolved.lookupsSucceed)
      (fun _ _ _ hs hok h => hs.step hok h) ops s0 hinv

/-- A history in which a thread that is neither queued nor running goes, while
another one runs. -/
theorem removal_complete_of_idle_thread :
    ∃ s0 : Sched Unit, Sched.initial.sched_init 2 = some s0
      ∧ Always schedStep LookupsSucceed s0
          [.sched_add (), .sched_add (), .sched_run 0, .sched_resched 0 (), .sched_remove 1,
            .sched_resched 0 (), .sched_resched 1 ()] :=
  ⟨_, rfl, (removal_complete_iff_clean 2 _ rfl _).2 (by decide +kernel)⟩

/-- **A running thread can be removed under its CPU.**  One CPU, one thread:
after `sched_remove(0)` the CPU's record still names it, and the next timer
interrupt follows a null pointer. -/
theorem removal_leaves_current_thread :
    ¬ ∀ (n_cpus : Nat) (s0 : Sched Unit), Sched.initial.sched_init n_cpus = some s0 →
        ∀ ops, Along schedStep RemovesCompletely s0 ops
          ∧ Always schedStep LookupsSucceed s0 ops := by
  intro h
  obtain ⟨s0, hboot⟩ : ∃ s0 : Sched Unit, Sched.initial.sched_init 1 = some s0 := ⟨_, rfl⟩
  obtain ⟨-, halways⟩ := h 1 s0 hboot
    [.sched_add (), .sched_run 0, .sched_resched 0 (), .sched_remove 0]
  obtain ⟨s, hs, hproc, hnext⟩ : ∃ s : Sched Unit,
      run schedStep s0 [.sched_add (), .sched_run 0, .sched_resched 0 (), .sched_remove 0] = some s
      ∧ s.sched_procs[0]? = some ⟨0, true⟩ ∧ s.sched_resched 0 () false = none := by
    injection hboot with hboot
    subst hboot
    exact ⟨_, rfl, by decide +kernel, by decide +kernel⟩
  have hreturns := ((halways _ (List.prefix_refl _) s hs) 0 _ hproc).1 () false
  rw [hnext] at hreturns
  cases hreturns

end Quack.Proc
