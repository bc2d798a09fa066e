/-
  Quack.Proc.SchedulerSignal
  **A RESCHEDULE SIGNAL LOSES THE THREAD IT INTERRUPTS.**

  `sched_resched` is called by two sinks of `generic_irq.cpp`: the timer with
  `resched = 0`, the reschedule signal with `resched = 1`.  With the flag set
  the release of the outgoing thread is skipped, although the CPU is given
  another thread (or goes idle) all the same.
-/
import Quack.Proc.SchedulerRemoval

namespace Quack.Proc

open Lib

variable {τ : Type}

/-! ## §1. Runs with both kinds of interrupt. -/

/-- `sched_run`, and `sched_resched` with either value of its flag. -/
inductive SignalOp (τ : Type) where
  | sched_run (id : BitVec 64)
  | sched_resched (cpu : Nat) (irq_state : τ) (resched : Bool)
  deriving Repr, DecidableEq

def signalStep (s : Sched τ) : SignalOp τ → Option (Sched τ)
  | .sched_run id => s.sched_run id
  | .sched_resched cpu irq_state resched => (s.sched_resched cpu irq_state resched).map (·.2)

def NoneLost (s : Sched τ) : Prop :=
  ∀ p ∈ s.schedule, ∀ t, s.objects p = some t → t.running_on ≠ -1 →
    ∃ cpu data, t.running_on = (cpu : Nat) ∧ s.sched_procs[cpu]? = some data
      ∧ data.running = true ∧ s.threads data.current_thread = some p

def Heeded (s : Sched τ) : SignalOp τ → Prop
  | .sched_run _ => True
  | .sched_resched cpu _ resched => resched = true →
      ∀ data, s.sched_procs[cpu]? = some data → data.running = false

instance (s : Sched τ) : (op : SignalOp τ) → Decidable (Heeded s op)
  | .sched_run _ => inferInstanceAs (Decidable True)
  | .sched_resched cpu _ resched => inferInstanceAs
      (Decidable (resched = true → ∀ data ∈ s.sched_procs[cpu]?, data.running = false))

/-- The states between interrupts: ids are consistent, queued threads are
registered, CPU records and `_running_on` agree, and what runs is queued. -/
structure Calm (s : Sched τ) : Prop where
  ids : IdsConsistent s
  linked : ∀ p ∈ s.schedule, ∃ id, s.threads id = some p
  running : RunningOn s
  queued : ∀ (cpu : Nat) data, s.sched_procs[cpu]? = some data → data.running = true →
    ∃ p ∈ s.schedule, s.threads data.current_thread = some p

variable {s s' : Sched τ} {cpu : Nat}

theorem Calm.noneLost (hs : Calm s) : NoneLost s :=
  fun p _ t ht hne => hs.running.current p t ht hne

theorem Calm.resolved (hs : Calm s) : Resolved s := by
  refine ⟨fun p hp => ?_, fun cpu data hdata hrun => ?_⟩
  · obtain ⟨id, hid⟩ := hs.linked p hp
    obtain ⟨t, ht, htid⟩ := hs.ids id p hid
    refine ⟨⟨id, hid⟩, t, ht, Option.isSome_iff_exists.mpr ⟨(p, t), ?_⟩⟩
    rw [htid]
    exact deref_eq_some.mpr ⟨hid, ht⟩
  · obtain ⟨p, t, hp, ht, -⟩ := hs.running.named cpu data hdata hrun
    exact Option.isSome_iff_exists.mpr ⟨(p, t), deref_eq_some.mpr ⟨hp, ht⟩⟩

/-! ## §2. Calls that meet the condition. -/

theorem sched_resched_not_running
    (hidle : ∀ data, s.sched_procs[cpu]? = some data → data.running = false) (irq_state : τ)
    (resched : Bool) :
    s.sched_resched cpu irq_state resched = s.sched_resched cpu irq_state false := by
  unfold Sched.sched_resched
  cases hdata : s.sched_procs[cpu]? with
  | none => rfl
  | some data =>
    have hrel : ∀ r, s.release data irq_state r = some s := by
      intro r
      simp only [Sched.release, hidle data hdata, Bool.false_and, Bool.false_eq_true, if_false]
    simp only [Option.bind_eq_bind, Option.bind_some, hrel]

theorem Calm.timer (hs : Calm s) {irq_state : τ} {e : Exit τ}
    (h : s.sched_resched cpu irq_state false = some (e, s')) : Calm s' := by
  obtain ⟨hids, hrun⟩ := RunningOn.sched_resched hs.ids hs.linked hs.running h
  obtain ⟨hth, hsc⟩ := sched_resched_frame h
  refine ⟨hids, by rw [hth, hsc]; exact hs.linked, hrun, fun c d hc hcr => ?_⟩
  rw [hth, hsc]
  obtain ⟨data, s1, r, s2, hdata, hrel, hpick, hexit⟩ := sched_resched_cases h
  obtain ⟨hth1, hsc1, hprocs1⟩ := release_frame hrel
  obtain ⟨i, rfl⟩ := (get_next_cases hpick).1
  -- a record is either an old one or the one just written
  have hold : s.sched_procs[c]? = some d →
      ∃ p ∈ s.schedule, s.threads d.current_thread = some p := fun h => hs.queued c d h hcr
  rw [← hprocs1] at hold
  rcases hexit with ⟨next, p, t, rfl, -, -, rfl⟩ | ⟨next, p, t, -, -, -, -, rfl⟩ | ⟨-, -, rfl⟩
  · rcases setProc_procs_cases hc with ⟨-, rfl⟩ | ⟨-, hc⟩
    · obtain ⟨q, -, hq, hqid, -, -⟩ := picked_scheduled (hs.ids.release hrel)
        (by rw [hth1, hsc1]; exact hs.linked) hpick
      rw [hsc1] at hq
      rw [hth1] at hqid
      exact ⟨q, hq, hqid⟩
    · exact hold hc
  · exact hold hc
  · rcases setProc_procs_cases hc with ⟨-, rfl⟩ | ⟨-, hc⟩
    · cases hcr
    · exact hold hc

theorem Calm.step {op : SignalOp τ} (hs : Calm s) (hok : Heeded s op)
    (h : signalStep s op = some s') : Calm s' := by
  cases op with
  | sched_run id =>
    obtain ⟨p, t, hp, -, rfl⟩ := sched_run_cases h
    refine ⟨hs.ids, fun q hq => ?_, ⟨hs.running.named, hs.running.current⟩,
      fun cpu data hd hr => ?_⟩
    · rcases List.mem_append.mp hq with hq | hq
      · exact hs.linked q hq
      · rw [List.mem_singleton.mp hq]
        exact ⟨id, hp⟩
    · obtain ⟨q, hq, hcur⟩ := hs.queued cpu data hd hr
      exact ⟨q, List.mem_append_left [p] hq, hcur⟩
  | sched_resched cpu irq_state resched =>
    obtain ⟨⟨e, s''⟩, hr, he⟩ := Option.map_eq_some_iff.mp h
    simp only at he
    subst he
    cases resched with
    | false => exact hs.timer hr
    | true =>
      rw [sched_resched_not_running (hok rfl)] at hr
      exact hs.timer hr

/-! ## §3. A signal to a running CPU. -/

theorem NoneLost.record (h : NoneLost s) {p : Nat} {t : Thread τ}
    (hp : p ∈ s.schedule) (ht : s.objects p = some t) (hon : t.running_on = (cpu : Nat)) :
    ∃ data, s.sched_procs[cpu]? = some data ∧ data.running = true
      ∧ s.threads data.current_thread = some p := by
  obtain ⟨c, data, hc, hdata, hrun, hcur⟩ := h p hp t ht (by rw [hon]; omega)
  obtain rfl : c = cpu := by
    rw [hon] at hc
    exact_mod_cast hc.symm
  exact ⟨data, hdata, hrun, hcur⟩

theorem Calm.signal_loses (hs : Calm s) {data : SchedCpuData}
    (hdata : s.sched_procs[cpu]? = some data) (hrun : data.running = true) (irq_state : τ) :
    ∃ e s', s.sched_resched cpu irq_state true = some (e, s') ∧ ¬ NoneLost s' := by
  obtain ⟨⟨e, s'⟩, h⟩ :=
    Option.isSome_iff_exists.mp (hs.resolved.sched_resched hdata irq_state true)
  refine ⟨e, s', h, fun hlost => ?_⟩
  obtain ⟨p, hp, hcur⟩ := hs.queued cpu data hdata hrun
  obtain ⟨p', t, hcur', ht, hon⟩ := hs.running.named cpu data hdata hrun
  rw [hcur] at hcur'
  injection hcur' with hcur'
  subst hcur'
  obtain ⟨data', s1, r, s2, hdata', hrel, hpick, hexit⟩ := sched_resched_cases h
  rw [hdata] at hdata'
  injection hdata' with hdata'
  subst hdata'
  -- the flag is set, so nothing is released
  obtain ⟨-, rfl⟩ | ⟨-, hfalse, -⟩ := release_cases hrel
  swap
  · cases hfalse
  obtain ⟨i, rfl⟩ := (get_next_cases hpick).1
  -- what is picked runs nowhere, so it is not the interrupted thread
  have hother : ∀ next q u, r = some next → s1.threads next = some q → s1.objects q = some u →
      q ≠ p := by
    rintro next q u rfl hq hu rfl
    have hfree := picked_runs_nowhere hs.ids hs.linked hpick hq hu
    rw [ht] at hu
    injection hu with hu
    rw [← hu, hon] at hfree
    omega
  rcases hexit with ⟨next, q, u, hr, hd, -, rfl⟩ | ⟨next, q, u, hr, hd, rfl, -, rfl⟩
    | ⟨-, -, rfl⟩
  · obtain ⟨hq, hu⟩ := deref_eq_some.mp hd
    have hqp : q ≠ p := hother next q u hr hq hu
    obtain ⟨d, hcd, -, hdp⟩ := hlost.record hp
      (by rw [setProc_objects, setThread_objects_ne _ _ hqp.symm]; exact ht) hon
    obtain ⟨-, rfl⟩ | ⟨hne, -⟩ := setProc_procs_cases hcd
    swap
    · exact hne rfl
    simp only [setProc_threads, setThread_threads] at hdp
    rw [show s1.threads next = some q from hq] at hdp
    injection hdp with hdp
    exact hqp hdp
  · -- the record names `next` already: it is the interrupted thread
    obtain ⟨hq, hu⟩ := deref_eq_some.mp hd
    have hqp : q ≠ p := hother next q u hr hq hu
    rw [show s1.threads next = some q from hq] at hcur
    injection hcur with hcur
    exact hqp hcur
  · obtain ⟨d, hcd, hcr, -⟩ := hlost.record hp ht hon
    obtain ⟨-, rfl⟩ | ⟨hne, -⟩ := setProc_procs_cases hcd
    swap
    · exact hne rfl
    cases hcr

theorem Calm.unheeded {op : SignalOp τ} (hs : Calm s) (hbad : ¬ Heeded s op) :
    ∃ s', signalStep s op = some s' ∧ ¬ NoneLost s' := by
  cases op with
  | sched_run id => exact absurd trivial hbad
  | sched_resched cpu irq_state resched =>
    simp only [Heeded, Classical.not_imp, not_forall, Bool.not_eq_false] at hbad
    obtain ⟨rfl, data, hdata, hrun⟩ := hbad
    obtain ⟨e, s', h, hlost⟩ := hs.signal_loses hdata hrun irq_state
    exact ⟨s', by simp only [signalStep, h, Option.map_some], hlost⟩

/-! ## §4. Runs. -/

/-- **When no thread is lost.**  From a state between interrupts (ids
consistent with their keys), a run of `sched_run` and `sched_resched` with
either flag loses no thread exactly when every reschedule signal of the run
reaches a CPU that runs nothing. -/
theorem none_lost_iff_heeded (s : Sched τ) (hs : Calm s) (ops : List (SignalOp τ)) :
    Always signalStep NoneLost s ops ↔ Along signalStep Heeded s ops :=
  always_iff_along signalStep Calm (fun _ hs => hs.noneLost)
    (fun _ _ _ hs hok h => hs.step hok h) (fun _ _ hs hbad => hs.unheeded hbad) ops s hs

theorem twoCpus_calm : Calm twoCpus.toSched := by
  refine ⟨twoCpus_ids, twoCpus.linked, twoCpus_running, fun cpu data h hr => ?_⟩
  match cpu with
  | 0 =>
    injection h with h
    subst h
    exact ⟨0, by decide, rfl⟩
  | 1 =>
    injection h with h
    subst h
    cases hr
  | n + 2 => cases h

/-- A signal to the idle CPU 1, then a timer interrupt on each CPU. -/
theorem none_lost_twoCpus :
    Always signalStep NoneLost twoCpus.toSched
      [.sched_resched 1 () true, .sched_resched 0 () false, .sched_resched 1 () false] :=
  (none_lost_iff_heeded twoCpus.toSched twoCpus_calm _).mpr (by decide +kernel)

/-- **One signal is enough.**  A signal to CPU 0, which runs thread 5: thread 7
takes its place, and thread 5 is left queued with `_running_on = 0`. -/
theorem signal_loses_thread :
    ¬ ∀ (s : Sched Unit), Calm s → ∀ ops, Always signalStep NoneLost s ops := by
  intro h
  obtain ⟨s, hs, hproc, hobj, hmem, hth⟩ : ∃ s,
      run signalStep twoCpus.toSched [.sched_resched 0 () true] = some s
      ∧ s.sched_procs[0]? = some ⟨7, true⟩ ∧ s.objects 0 = some ⟨(), 5, .stopped, 0⟩
      ∧ 0 ∈ s.schedule ∧ s.threads 7 = some 1 :=
    ⟨_, rfl, rfl, rfl, by decide, rfl⟩
  have hlost := h twoCpus.toSched twoCpus_calm _ _ (List.prefix_refl _) s hs
  have hon : (⟨(), 5, .stopped, 0⟩ : Thread Unit).running_on = (0 : Nat) := rfl
  obtain ⟨d, hd, -, hcur⟩ := NoneLost.record hlost hmem hobj hon
  rw [hproc] at hd
  injection hd with hd
  subst hd
  rw [hth] at hcur
  cases hcur

end Quack.Proc
