/-
  Quack.Proc.SchedulerCpus
  **NO THREAD RUNS ON TWO CPUs.**

  Who runs what is recorded twice: `sched_procs[c]` names a thread by its id,
  the thread's `_running_on` names the CPU.  `RunningOn` says that the two
  agree in both directions.  The timer interrupt `sched_resched(irq, state, 0)`
  rewrites both, in a different order on each of its exits; the proof cuts it
  in two.

  The invariant needs key and `_id` to agree (`IdsConsistent`), because the
  picker answers with `_id` and the caller looks the answer up as a key.
-/
import Quack.Proc.SchedulerIds

namespace Quack.Proc

open Lib

variable {τ : Type}

/-! ## §1. Scheduler states and the calls. -/

/-- A scheduler state proper: only registered threads are linked in the run
queue.  (`sched_run`, the only way in, takes the pointer from the table.) -/
structure SchedState (τ : Type) extends Sched τ where
  linked : ∀ p ∈ schedule, ∃ id, threads id = some p

/-- `sched_run`, and the timer interrupt on a CPU whose interrupted state is
`irq_state`. -/
inductive CpuOp (τ : Type) where
  | sched_run (id : BitVec 64)
  | sched_resched (cpu : Nat) (irq_state : τ)
  deriving Repr, DecidableEq

def cpuStep (s : Sched τ) : CpuOp τ → Option (Sched τ)
  | .sched_run id => s.sched_run id
  | .sched_resched cpu irq_state => (s.sched_resched cpu irq_state false).map (·.2)

/-! ## §2. What the two calls do. -/

variable {s s' s1 : Sched τ} {cpu p : Nat} {e : Exit τ} {irq_state : τ} {resched : Bool}
  {data : SchedCpuData} {op : CpuOp τ} {next : BitVec 64} {t : Thread τ}

theorem sched_run_cases {id : BitVec 64} (h : s.sched_run id = some s') :
    ∃ p t, s.threads id = some p ∧ s.objects p = some t
      ∧ s' = { s with schedule := s.schedule ++ [p] } := by
  unfold Sched.sched_run at h
  cases hd : s.deref id with
  | none => rw [hd] at h; cases h
  | some pt =>
    obtain ⟨p, t⟩ := pt
    obtain ⟨hp, ht⟩ := deref_eq_some.mp hd
    rw [hd] at h
    simp only at h
    split at h
    · cases h
    · injection h with h
      exact ⟨p, t, hp, ht, h.symm⟩

theorem sched_resched_cases (h : s.sched_resched cpu irq_state resched = some (e, s')) :
    ∃ data s1 r s2, s.sched_procs[cpu]? = some data
      ∧ s.release data irq_state resched = some s1
      ∧ s1.get_next_thread_to_run = some (r, s2)
      ∧ ((∃ next p t, r = some next ∧ s2.deref next = some (p, t) ∧ e = .enter t.task
            ∧ s' = (s2.setThread p { t with running_on := cpu }).setProc cpu ⟨next, true⟩)
        ∨ (∃ next p t, r = some next ∧ s2.deref next = some (p, t) ∧ data = ⟨next, true⟩
            ∧ e = .resume ∧ s' = s2.setThread p { t with running_on := cpu })
        ∨ (r = none ∧ e = .idle ∧ s' = s2.setProc cpu { data with running := false })) := by
  simp only [Sched.sched_resched, Option.bind_eq_bind, Option.bind_eq_some_iff] at h
  obtain ⟨data, hdata, s1, hrel, ⟨r, s2⟩, hpick, h⟩ := h
  refine ⟨data, s1, r, s2, hdata, hrel, hpick, ?_⟩
  cases r with
  | none =>
    simp only [Option.some.injEq, Prod.mk.injEq] at h
    exact Or.inr (Or.inr ⟨rfl, h.1.symm, h.2.symm⟩)
  | some next =>
    simp only [Option.bind_eq_some_iff] at h
    obtain ⟨⟨p, t⟩, hd, h⟩ := h
    split at h
    · next hsame =>
        simp only [Bool.and_eq_true, beq_iff_eq] at hsame
        obtain ⟨hrun, rfl⟩ := hsame
        simp only [Option.some.injEq, Prod.mk.injEq] at h
        refine Or.inr (Or.inl ⟨_, p, t, rfl, hd, ?_, h.1.symm, h.2.symm⟩)
        cases data
        simp only at hrun
        rw [hrun]
    · simp only [Option.some.injEq, Prod.mk.injEq] at h
      exact Or.inl ⟨next, p, t, rfl, hd, h.1.symm, h.2.symm⟩

theorem release_cases (h : s.release data irq_state resched = some s1) :
    ((data.running = true → resched = true) ∧ s1 = s)
    ∨ (data.running = true ∧ resched = false ∧ ∃ p t, s.deref data.current_thread = some (p, t)
        ∧ s1 = s.setThread p { t with task := irq_state, running_on := -1 }) := by
  unfold Sched.release at h
  split at h
  · next hcond =>
      simp only [Bool.and_eq_true, Bool.not_eq_true'] at hcond
      obtain ⟨⟨p, t⟩, hd, he⟩ := Option.map_eq_some_iff.mp h
      exact Or.inr ⟨hcond.1, hcond.2, p, t, hd, he.symm⟩
  · next hcond =>
      injection h with h
      refine Or.inl ⟨fun hrun => ?_, h.symm⟩
      cases resched with
      | true => rfl
      | false => exact absurd (by rw [hrun]; rfl) hcond

/-! ## §3. The parts of the state the calls leave alone. -/

theorem release_frame (h : s.release data irq_state resched = some s1) :
    s1.threads = s.threads ∧ s1.schedule = s.schedule ∧ s1.sched_procs = s.sched_procs := by
  obtain ⟨-, rfl⟩ | ⟨-, -, p, t, -, rfl⟩ := release_cases h <;> exact ⟨rfl, rfl, rfl⟩

theorem sched_resched_frame (h : s.sched_resched cpu irq_state resched = some (e, s')) :
    s'.threads = s.threads ∧ s'.schedule = s.schedule := by
  obtain ⟨data, s1, r, s2, -, hrel, hpick, hexit⟩ := sched_resched_cases h
  obtain ⟨hth, hsc, -⟩ := release_frame hrel
  obtain ⟨i, rfl⟩ := (get_next_cases hpick).1
  rcases hexit with ⟨next, p, t, -, -, -, rfl⟩ | ⟨next, p, t, -, -, -, -, rfl⟩ | ⟨-, -, rfl⟩ <;>
    exact ⟨hth, hsc⟩

theorem cpuStep_linked
    (hs : ∀ p ∈ s.schedule, ∃ id, s.threads id = some p) (h : cpuStep s op = some s') :
    ∀ p ∈ s'.schedule, ∃ id, s'.threads id = some p := by
  cases op with
  | sched_run id =>
    obtain ⟨p, t, hp, -, rfl⟩ := sched_run_cases h
    intro q hq
    rcases List.mem_append.mp hq with hq | hq
    · exact hs q hq
    · rw [List.mem_singleton.mp hq]
      exact ⟨id, hp⟩
  | sched_resched cpu irq_state =>
    obtain ⟨⟨e, s''⟩, hr, he⟩ := Option.map_eq_some_iff.mp h
    simp only at he
    subst he
    obtain ⟨hth, hsc⟩ := sched_resched_frame hr
    rw [hth, hsc]
    exact hs

/-- One call, on scheduler states proper. -/
def SchedState.step (s : SchedState τ) (op : CpuOp τ) : Option (SchedState τ) :=
  (cpuStep s.toSched op).pmap SchedState.mk (fun _ h => cpuStep_linked s.linked h)

theorem SchedState.step_eq_some {s s' : SchedState τ} (h : s.step op = some s') :
    cpuStep s.toSched op = some s'.toSched := by
  obtain ⟨t, hlink, ht, rfl⟩ := Option.pmap_eq_some_iff.mp h
  exact ht

/-! ## §4. The invariant, and the state between release and assignment. -/

/-- **The two-way invariant.**  The thread a running CPU names has that CPU in
`_running_on`, and a thread with a CPU in `_running_on` is what that CPU names
and runs. -/
structure RunningOn (s : Sched τ) : Prop where
  named : ∀ (cpu : Nat) data, s.sched_procs[cpu]? = some data → data.running = true →
    ∃ p t, s.threads data.current_thread = some p ∧ s.objects p = some t ∧ t.running_on = cpu
  current : ∀ p t, s.objects p = some t → t.running_on ≠ -1 →
    ∃ cpu data, t.running_on = (cpu : Nat) ∧ s.sched_procs[cpu]? = some data
      ∧ data.running = true ∧ s.threads data.current_thread = some p

/-- `RunningOn` for all CPUs but `cpu`, which no thread runs on. -/
structure FreeOf (cpu : Nat) (s : Sched τ) : Prop where
  named : ∀ (c : Nat) data, c ≠ cpu → s.sched_procs[c]? = some data → data.running = true →
    ∃ p t, s.threads data.current_thread = some p ∧ s.objects p = some t ∧ t.running_on = c
  current : ∀ p t, s.objects p = some t → t.running_on ≠ -1 →
    ∃ c data, c ≠ cpu ∧ t.running_on = (c : Nat) ∧ s.sched_procs[c]? = some data
      ∧ data.running = true ∧ s.threads data.current_thread = some p

theorem RunningOn.release (hs : RunningOn s) (hdata : s.sched_procs[cpu]? = some data)
    (h : s.release data irq_state false = some s1) : FreeOf cpu s1 := by
  rcases release_cases h with ⟨hidle, rfl⟩ | ⟨hrun, -, p, t, hd, rfl⟩
  · refine ⟨fun c d _ => hs.named c d, fun q u hu hne => ?_⟩
    obtain ⟨c, d, hc, hd, hrun, hcur⟩ := hs.current q u hu hne
    refine ⟨c, d, ?_, hc, hd, hrun, hcur⟩
    -- `cpu` itself is idle
    rintro rfl
    rw [hdata] at hd
    injection hd with hd
    rw [← hd] at hrun
    cases hidle hrun
  · obtain ⟨hp, ht⟩ := deref_eq_some.mp hd
    obtain ⟨p', t', hp', ht', hon⟩ := hs.named cpu data hdata hrun
    rw [hp] at hp'
    injection hp' with hp'
    subst hp'
    rw [ht] at ht'
    injection ht' with ht'
    subst ht'
    refine ⟨fun c d hne hc hcr => ?_, fun q u hu hne => ?_⟩
    · obtain ⟨q, u, hq, hu, hqon⟩ := hs.named c d hc hcr
      refine ⟨q, u, hq, ?_, hqon⟩
      -- the released thread ran on `cpu`, this one on `c`
      have hqp : q ≠ p := by
        rintro rfl
        rw [ht] at hu
        injection hu with hu
        rw [hu, hqon] at hon
        exact hne (by exact_mod_cast hon)
      rw [setThread_objects_ne s _ hqp]
      exact hu
    · by_cases hqp : q = p
      · subst hqp
        rw [setThread_objects_self] at hu
        injection hu with hu
        rw [← hu] at hne
        exact absurd rfl hne
      · rw [setThread_objects_ne s _ hqp] at hu
        obtain ⟨c, d, hc, hcd, hcr, hcur⟩ := hs.current q u hu hne
        refine ⟨c, d, ?_, hc, hcd, hcr, hcur⟩
        rintro rfl
        rw [hdata] at hcd
        injection hcd with hcd
        rw [← hcd, hp] at hcur
        injection hcur with hcur
        exact hqp hcur.symm

theorem FreeOf.assign (hs : FreeOf cpu s) (hcpu : cpu < s.sched_procs.length)
    (hp : s.threads next = some p) (ht : s.objects p = some t) (hfree : t.running_on = -1) :
    RunningOn ((s.setThread p { t with running_on := cpu }).setProc cpu ⟨next, true⟩) := by
  refine ⟨fun c d hc hcr => ?_, fun q u hu hne => ?_⟩
  · by_cases hcc : c = cpu
    · subst hcc
      rw [setProc_procs_self (s.setThread p _) _ hcpu] at hc
      injection hc with hc
      subst hc
      exact ⟨p, _, hp, setThread_objects_self s p _, rfl⟩
    · rw [setProc_procs_ne _ _ hcc] at hc
      obtain ⟨q, u, hq, hu, hqon⟩ := hs.named c d hcc hc hcr
      refine ⟨q, u, hq, ?_, hqon⟩
      have hqp : q ≠ p := by
        rintro rfl
        rw [ht] at hu
        injection hu with hu
        rw [← hu, hfree] at hqon
        omega
      rw [setProc_objects, setThread_objects_ne s _ hqp]
      exact hu
  · by_cases hqp : q = p
    · subst hqp
      rw [setProc_objects, setThread_objects_self] at hu
      injection hu with hu
      subst hu
      exact ⟨cpu, ⟨next, true⟩, rfl, setProc_procs_self _ _ hcpu, rfl, hp⟩
    · rw [setProc_objects, setThread_objects_ne s _ hqp] at hu
      obtain ⟨c, d, hcc, hc, hcd, hcr, hcur⟩ := hs.current q u hu hne
      exact ⟨c, d, hc, by rw [setProc_procs_ne _ _ hcc]; exact hcd, hcr, hcur⟩

theorem FreeOf.idle
    (hs : FreeOf cpu s) (hcpu : cpu < s.sched_procs.length) (hidle : data.running = false) :
    RunningOn (s.setProc cpu data) := by
  refine ⟨fun c d hc hcr => ?_, fun q u hu hne => ?_⟩
  · by_cases hcc : c = cpu
    · subst hcc
      rw [setProc_procs_self _ _ hcpu] at hc
      injection hc with hc
      rw [← hc, hidle] at hcr
      cases hcr
    · rw [setProc_procs_ne _ _ hcc] at hc
      exact hs.named c d hcc hc hcr
  · obtain ⟨c, d, hcc, hc, hcd, hcr, hcur⟩ := hs.current q u hu hne
    exact ⟨c, d, hc, by rw [setProc_procs_ne _ _ hcc]; exact hcd, hcr, hcur⟩

/-! ## §5. One call. -/

theorem IdsConsistent.setThread (hs : IdsConsistent s) {u : Thread τ}
    (ht : s.objects p = some t) (hid : u.id = t.id) : IdsConsistent (s.setThread p u) := by
  intro id q hq
  obtain ⟨v, hv, hvid⟩ := hs id q hq
  by_cases hqp : q = p
  · subst hqp
    rw [ht] at hv
    injection hv with hv
    refine ⟨u, setThread_objects_self s q u, ?_⟩
    rw [hid, hv, hvid]
  · exact ⟨v, by rw [setThread_objects_ne s u hqp]; exact hv, hvid⟩

theorem IdsConsistent.release (hs : IdsConsistent s)
    (h : s.release data irq_state resched = some s1) : IdsConsistent s1 := by
  rcases release_cases h with ⟨-, rfl⟩ | ⟨-, -, p, t, hd, rfl⟩
  · exact hs
  · exact hs.setThread (deref_eq_some.mp hd).2 rfl

section

variable (hids : IdsConsistent s) (hlink : ∀ p ∈ s.schedule, ∃ id, s.threads id = some p)

include hids hlink

theorem picked_scheduled
    (hpick : s.get_next_thread_to_run = some (some next, s')) :
    ∃ p t, p ∈ s.schedule ∧ s.threads next = some p ∧ s.objects p = some t
      ∧ t.running_on = -1 := by
  obtain ⟨q, u, hq, hu, hfree, hid⟩ := (get_next_cases hpick).2 next rfl
  have hmem := List.mem_of_getElem? hq
  obtain ⟨id, hreg⟩ := hlink q hmem
  obtain ⟨v, hv, hvid⟩ := hids id q hreg
  rw [hu] at hv
  injection hv with hv
  rw [← hv, hid] at hvid
  subst hvid
  exact ⟨q, u, hmem, hreg, hu, hfree⟩

theorem picked_runs_nowhere
    (hpick : s.get_next_thread_to_run = some (some next, s'))
    (hp : s.threads next = some p) (ht : s.objects p = some t) : t.running_on = -1 := by
  obtain ⟨q, u, -, hreg, hu, hfree⟩ := picked_scheduled hids hlink hpick
  rw [hp] at hreg
  injection hreg with hreg
  rw [← hreg, ht] at hu
  injection hu with hu
  rw [hu]
  exact hfree

theorem RunningOn.sched_resched
    (hs : RunningOn s) (h : s.sched_resched cpu irq_state false = some (e, s')) :
    IdsConsistent s' ∧ RunningOn s' := by
  obtain ⟨data, s1, r, s2, hdata, hrel, hpick, hexit⟩ := sched_resched_cases h
  have hfree : FreeOf cpu s1 := hs.release hdata hrel
  have hids1 : IdsConsistent s1 := hids.release hrel
  obtain ⟨hth, hsc, hprocs⟩ := release_frame hrel
  have hlink1 : ∀ p ∈ s1.schedule, ∃ id, s1.threads id = some p := by
    rw [hth, hsc]
    exact hlink
  have hdata1 : s1.sched_procs[cpu]? = some data := by rw [hprocs]; exact hdata
  have hcpu : cpu < s1.sched_procs.length := (List.getElem?_eq_some_iff.mp hdata1).1
  obtain ⟨i, rfl⟩ := (get_next_cases hpick).1
  -- the cursor is no part of either invariant
  have hfree2 : FreeOf cpu { s1 with idx := i } := ⟨hfree.named, hfree.current⟩
  rcases hexit with ⟨next, p, t, rfl, hd, -, rfl⟩ | ⟨next, p, t, rfl, hd, rfl, -, rfl⟩
    | ⟨rfl, -, rfl⟩
  · -- switch
    obtain ⟨hp, ht⟩ := deref_eq_some.mp hd
    have hrun := picked_runs_nowhere hids1 hlink1 hpick hp ht
    exact ⟨IdsConsistent.setThread (s := { s1 with idx := i }) hids1 ht rfl,
      hfree2.assign hcpu hp ht hrun⟩
  · -- the same thread again: the record already names it
    obtain ⟨hp, ht⟩ := deref_eq_some.mp hd
    have hrun := picked_runs_nowhere hids1 hlink1 hpick hp ht
    refine ⟨IdsConsistent.setThread (s := { s1 with idx := i }) hids1 ht rfl, ?_⟩
    have hassign := hfree2.assign hcpu hp ht hrun
    rwa [setProc_eq_self (by exact hdata1)] at hassign
  · -- idle
    exact ⟨hids1, hfree2.idle hcpu rfl⟩

end

theorem RunningOn.step {s s' : SchedState τ}
    (hs : IdsConsistent s.toSched ∧ RunningOn s.toSched) (h : s.step op = some s') :
    IdsConsistent s'.toSched ∧ RunningOn s'.toSched := by
  have hstep := SchedState.step_eq_some h
  cases op with
  | sched_run id =>
    obtain ⟨p, t, -, -, he⟩ := sched_run_cases hstep
    rw [he]
    exact ⟨hs.1, ⟨hs.2.named, hs.2.current⟩⟩
  | sched_resched cpu irq_state =>
    obtain ⟨⟨e, s''⟩, hr, he⟩ := Option.map_eq_some_iff.mp hstep
    simp only at he
    subst he
    exact RunningOn.sched_resched hs.1 s.linked hs.2 hr

/-! ## §6. Runs. -/

theorem RunningOn.distinct (hs : RunningOn s) {c1 c2 : Nat} {d1 d2 : SchedCpuData}
    (h1 : s.sched_procs[c1]? = some d1) (h2 : s.sched_procs[c2]? = some d2)
    (hr1 : d1.running = true) (hr2 : d2.running = true) (hne : c1 ≠ c2) :
    d1.current_thread ≠ d2.current_thread := by
  intro he
  obtain ⟨p1, t1, hp1, ht1, hon1⟩ := hs.named c1 d1 h1 hr1
  obtain ⟨p2, t2, hp2, ht2, hon2⟩ := hs.named c2 d2 h2 hr2
  rw [he, hp2] at hp1
  injection hp1 with hp
  rw [← hp, ht2] at ht1
  injection ht1 with ht
  rw [← ht, hon2] at hon1
  exact hne (by exact_mod_cast hon1.symm)

theorem RunningOn.eligible (hs : RunningOn s)
    (ht : s.objects p = some t)
    (hidle : ∀ (c : Nat) d, s.sched_procs[c]? = some d → d.running = true →
      s.threads d.current_thread ≠ some p) : t.running_on = -1 := by
  by_contra hne
  obtain ⟨c, d, -, hd, hr, hcur⟩ := hs.current p t ht hne
  exact hidle c d hd hr hcur

/-- **No thread runs on two CPUs.**  From any scheduler state whose ids are
consistent and in which CPU records and `_running_on` agree, every run of
`sched_run` and timer interrupts, on any CPUs in any order, stays in such
states; so running CPUs always have different current threads, and a linked
thread that none of them runs is eligible. -/
theorem running_on_preserved (s s' : SchedState τ) (ops : List (CpuOp τ))
    (hids : IdsConsistent s.toSched) (hrun : RunningOn s.toSched)
    (h : run SchedState.step s ops = some s') :
    RunningOn s'.toSched
    ∧ (∀ (c1 c2 : Nat) d1 d2, s'.sched_procs[c1]? = some d1 → s'.sched_procs[c2]? = some d2 →
        d1.running = true → d2.running = true → c1 ≠ c2 →
        d1.current_thread ≠ d2.current_thread)
    ∧ (∀ p ∈ s'.schedule, ∀ t, s'.objects p = some t →
        (∀ (c : Nat) d, s'.sched_procs[c]? = some d → d.running = true →
          s'.threads d.current_thread ≠ some p) → t.running_on = -1) := by
  have hinv : IdsConsistent s'.toSched ∧ RunningOn s'.toSched :=
    run_invariant SchedState.step (fun s => IdsConsistent s.toSched ∧ RunningOn s.toSched)
      (fun _ _ _ hs hstep => RunningOn.step hs hstep) ops s s' ⟨hids, hrun⟩ h
  refine ⟨hinv.2, ?_, ?_⟩
  · intro c1 c2 d1 d2 h1 h2 hr1 hr2 hne
    exact hinv.2.distinct h1 h2 hr1 hr2 hne
  · intro p _ t ht hidle
    exact hinv.2.eligible ht hidle

/-- Two CPUs and two linked threads, with ids 5 and 7; CPU 0 runs thread 5. -/
def twoCpus : SchedState Unit where
  objects := fun p =>
    if p = 0 then some ⟨(), 5, .stopped, 0⟩
    else if p = 1 then some ⟨(), 7, .stopped, -1⟩ else none
  next_ptr := 2
  threads := fun id => if id = 5 then some 0 else if id = 7 then some 1 else none
  schedule := [0, 1]
  next_id := 8
  idx := 0
  sched_procs := [⟨5, true⟩, ⟨0, false⟩]
  linked := by
    intro p hp
    simp only [List.mem_cons, List.not_mem_nil, or_false] at hp
    rcases hp with rfl | rfl
    · exact ⟨5, rfl⟩
    · exact ⟨7, rfl⟩

theorem twoCpus_ids : IdsConsistent twoCpus.toSched := by
  intro id p h
  simp only [twoCpus] at h
  split at h
  · next hid =>
      injection h with h
      subst h hid
      exact ⟨_, rfl, rfl⟩
  · split at h
    · next hid =>
        injection h with h
        subst h hid
        exact ⟨_, rfl, rfl⟩
    · cases h

theorem twoCpus_running : RunningOn twoCpus.toSched := by
  refine ⟨fun cpu data h hr => ?_, fun p t h hne => ?_⟩
  · match cpu with
    | 0 =>
      injection h with h
      subst h
      exact ⟨0, _, rfl, rfl, rfl⟩
    | 1 =>
      injection h with h
      subst h
      cases hr
    | n + 2 => cases h
  · simp only [twoCpus] at h
    split at h
    · next hp =>
        injection h with h
        subst h hp
        exact ⟨0, ⟨5, true⟩, rfl, rfl, rfl, rfl⟩
    · split at h
      · injection h with h
        subst h
        exact absurd rfl hne
      · cases h

/-- A timer interrupt on each CPU: thread 7 goes to the idle one, and CPU 0
picks thread 5 again. -/
theorem running_on_preserved_twoCpus :
    ∃ s', run SchedState.step twoCpus [.sched_resched 1 (), .sched_resched 0 ()] = some s'
      ∧ s'.sched_procs = [⟨5, true⟩, ⟨7, true⟩] ∧ RunningOn s'.toSched := by
  obtain ⟨s', h, hp⟩ : ∃ s',
      run SchedState.step twoCpus [.sched_resched 1 (), .sched_resched 0 ()] = some s'
      ∧ s'.sched_procs = [⟨5, true⟩, ⟨7, true⟩] := ⟨_, rfl, rfl⟩
  exact ⟨s', h, hp, (running_on_preserved twoCpus s' _ twoCpus_ids twoCpus_running h).1⟩

end Quack.Proc
