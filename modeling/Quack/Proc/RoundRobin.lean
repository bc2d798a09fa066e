/-
  Quack.Proc.RoundRobin
  **WHICH THREAD THE TIMER SELECTS.**

  `get_next_thread_to_run` leaves its cursor AT the thread it returns, and the
  timer marks the outgoing thread as idle before it asks for the next one.  So
  the first thread inspected at a tick is the one selected at the tick before.

    • `round_robin_iff`        — when a tick selects another thread, and for how
      many threads the ticks go round.
-/
import Quack.Proc.SchedulerCpus

namespace Quack.Proc

variable {τ : Type}

/-! ## §1. The picker. -/

/-- `thread->_running_on == -1`. -/
def Sched.idle (s : Sched τ) (p : Nat) : Bool := (s.objects p).any (·.running_on == -1)

variable {p q cpu : Nat} {s : Sched τ} {t : Thread τ} {cur : BitVec 64}

theorem idle_eq (ht : s.objects p = some t) :
    s.idle p = decide (t.running_on = -1) := by
  rw [Sched.idle, ht]
  rfl

/-- The threads in the order in which the picker inspects them. -/
def Sched.inspected (s : Sched τ) : List Nat := s.schedule.drop s.idx ++ s.schedule

theorem scan_eq (s : Sched τ) (idx : Nat) (ps : List Nat) (i : Nat)
    (hlive : (∀ p ∈ ps, ∃ t, s.objects p = some t)) :
    (s.scan idx i ps = some none ∧ (ps.drop (idx - i)).find? s.idle = none)
      ∨ ∃ j q t, s.scan idx i ps = some (some (j, t.id)) ∧ i ≤ j ∧ ps[j - i]? = some q
          ∧ s.objects q = some t ∧ (ps.drop (idx - i)).find? s.idle = some q := by
  induction ps generalizing i with
  | nil =>
    left
    exact ⟨rfl, by simp⟩
  | cons p ps ih =>
    obtain ⟨t, ht⟩ := hlive p List.mem_cons_self
    -- what a step past `p` finds in the rest
    have hnext : (ps.drop (idx - (i + 1))).find? s.idle = ((p :: ps).drop (idx - i)).find? s.idle →
        s.scan idx i (p :: ps) = s.scan idx (i + 1) ps →
        (s.scan idx i (p :: ps) = some none ∧ ((p :: ps).drop (idx - i)).find? s.idle = none)
        ∨ ∃ j q t, s.scan idx i (p :: ps) = some (some (j, t.id)) ∧ i ≤ j
            ∧ (p :: ps)[j - i]? = some q ∧ s.objects q = some t
            ∧ ((p :: ps).drop (idx - i)).find? s.idle = some q := by
      intro hdrop hscan
      rw [hscan, ← hdrop]
      rcases ih (i + 1) (fun q hq => hlive q (List.mem_cons_of_mem p hq)) with
        h | ⟨j, q, u, hs, hij, hq, hu, hfind⟩
      · exact Or.inl h
      · refine Or.inr ⟨j, q, u, hs, by omega, ?_, hu, hfind⟩
        rw [show j - i = (j - (i + 1)) + 1 by omega, List.getElem?_cons_succ]
        exact hq
    by_cases hi : i < idx
    · refine hnext ?_ ?_
      · rw [show idx - i = (idx - (i + 1)) + 1 by omega, List.drop_succ_cons]
      · simp [Sched.scan, ht, hi]
    · rw [show idx - i = 0 by omega, show idx - (i + 1) = 0 by omega] at hnext
      rw [show idx - i = 0 by omega]
      by_cases hrun : t.running_on = -1
      · refine Or.inr ⟨i, p, t, ?_, Nat.le_refl i, by simp, ht, ?_⟩
        · simp [Sched.scan, ht, hi, hrun]
        · rw [List.drop_zero, List.find?_cons_of_pos]
          rw [idle_eq ht, decide_eq_true hrun]
      · refine hnext ?_ ?_
        · rw [List.drop_zero, List.drop_zero, List.find?_cons_of_neg]
          rw [idle_eq ht, decide_eq_false hrun]
          exact Bool.false_ne_true
        · simp [Sched.scan, ht, hi, hrun]

theorem get_next_eq (hlive : ∀ p ∈ s.schedule, ∃ t, s.objects p = some t)
    (hq : s.inspected.find? s.idle = some q) :
    ∃ j t, s.get_next_thread_to_run = some (some t.id, { s with idx := j })
      ∧ s.schedule[j]? = some q ∧ s.objects q = some t := by
  rw [Sched.inspected, List.find?_append] at hq
  unfold Sched.get_next_thread_to_run
  rcases scan_eq s s.idx s.schedule 0 hlive with ⟨hscan, hfind⟩ | ⟨j, r, t, hscan, -, hr, ht, hfind⟩
  · -- nothing from the cursor on: the second pass
    rw [Nat.sub_zero] at hfind
    rw [hfind, Option.none_or] at hq
    rcases scan_eq s 0 s.schedule 0 hlive with ⟨-, hnone⟩ | ⟨j, r, t, hscan', -, hr, ht, hfind'⟩
    · rw [Nat.sub_zero, List.drop_zero, hq] at hnone
      cases hnone
    · rw [Nat.sub_zero, List.drop_zero, hq] at hfind'
      injection hfind' with hfind'
      subst hfind'
      exact ⟨j, t, by rw [hscan, hscan'], hr, ht⟩
  · rw [Nat.sub_zero] at hfind
    rw [hfind, Option.some_or] at hq
    injection hq with hq
    subst hq
    exact ⟨j, t, by rw [hscan], hr, ht⟩

theorem get_next_none (hlive : ∀ p ∈ s.schedule, ∃ t, s.objects p = some t)
    (hnone : s.inspected.find? s.idle = none) :
    s.get_next_thread_to_run = some (none, { s with idx := 0 }) := by
  rw [Sched.inspected, List.find?_append, Option.or_eq_none_iff] at hnone
  unfold Sched.get_next_thread_to_run
  rcases scan_eq s s.idx s.schedule 0 hlive with ⟨hscan, -⟩ | ⟨j, r, t, -, -, -, -, hfind⟩
  · rcases scan_eq s 0 s.schedule 0 hlive with ⟨hscan', -⟩ | ⟨j, r, t, -, -, -, -, hfind⟩
    · rw [hscan, hscan']
    · rw [Nat.sub_zero, List.drop_zero, hnone.2] at hfind
      cases hfind
  · rw [Nat.sub_zero, hnone.1] at hfind
    cases hfind

theorem inspected_find (s : Sched τ) : s.inspected.find? s.idle
      = (s.schedule.drop s.idx ++ s.schedule.take s.idx).find? s.idle := by
  rw [Sched.inspected, List.find?_append, List.find?_append]
  cases hdrop : (s.schedule.drop s.idx).find? s.idle with
  | some q => rfl
  | none =>
    have hall := List.take_append_drop s.idx s.schedule
    rw [← hall, List.find?_append, hall, hdrop, Option.or_none]

/-- **The picker is complete**: it returns a thread exactly if some thread in the list is
idle, and then the first one in cyclic order from the cursor on. -/
theorem picker_complete (s : Sched τ) (hlive : ∀ p ∈ s.schedule, ∃ t, s.objects p = some t) :
    ∃ r s', s.get_next_thread_to_run = some (r, s')
      ∧ (r.isSome ↔ ∃ p ∈ s.schedule, ∃ t, s.objects p = some t ∧ t.running_on = -1)
      ∧ ∀ id, r = some id → ∃ q t,
          (s.schedule.drop s.idx ++ s.schedule.take s.idx).find? s.idle = some q
          ∧ s.objects q = some t ∧ t.id = id := by
  have hidle : ∀ p, (∃ t, s.objects p = some t ∧ t.running_on = -1) ↔ s.idle p = true := by
    intro p
    simp [Sched.idle, Option.any_eq_true]
  simp only [hidle, ← inspected_find]
  cases hfind : s.inspected.find? s.idle with
  | none =>
    refine ⟨none, _, get_next_none hlive hfind, iff_of_false Bool.false_ne_true ?_,
      fun id h => by cases h⟩
    rintro ⟨p, hp, hrun⟩
    exact List.find?_eq_none.mp hfind p (List.mem_append_right _ hp) hrun
  | some q =>
    obtain ⟨j, t, hpick, hj, ht⟩ := get_next_eq hlive hfind
    refine ⟨some t.id, _, hpick, iff_of_true rfl ⟨q, List.mem_of_getElem? hj,
      List.find?_some hfind⟩, ?_⟩
    rintro id ⟨⟩
    exact ⟨q, t, rfl, ht, rfl⟩

/-- Three threads, the first of them running, and a cursor beyond them. -/
def staleCursor : Sched Unit :=
  { (Sched.initial : Sched Unit) with
    objects := fun p => some ⟨(), BitVec.ofNat 64 p, .running, if p = 0 then 0 else -1⟩
    schedule := [0, 1, 2]
    idx := 7 }

theorem picker_complete_stale : ∃ r s', staleCursor.get_next_thread_to_run = some (r, s')
    ∧ r.isSome := by
  obtain ⟨r, s', hpick, hsome, -⟩ := picker_complete staleCursor fun p _ => ⟨_, rfl⟩
  exact ⟨r, s', hpick, hsome.mpr ⟨1, by decide, _, rfl, rfl⟩⟩

/-! ## §2. One tick. -/

/-- CPU `cpu` runs the thread of key `cur`, which is object `p` and is in the
schedule. -/
structure Turn (s : Sched τ) (cpu : Nat) (cur : BitVec 64) (p : Nat) : Prop where
  ids : IdsConsistent s
  linked : ∀ q ∈ s.schedule, ∃ id, s.threads id = some q
  data : s.sched_procs[cpu]? = some ⟨cur, true⟩
  key : s.threads cur = some p
  queued : p ∈ s.schedule

/-- The thread the next tick of `cpu` selects. -/
def Selects (s : Sched τ) (cpu : Nat) (irq_state : τ) (id : BitVec 64) : Prop :=
  ∃ e s', s.sched_resched cpu irq_state false = some (e, s')
    ∧ s'.sched_procs[cpu]? = some ⟨id, true⟩

theorem Turn.live (h : Turn s cpu cur p) :
    ∀ q ∈ s.schedule, ∃ t, s.objects q = some t := by
  intro q hq
  obtain ⟨id, hid⟩ := h.linked q hq
  obtain ⟨t, ht, -⟩ := h.ids id q hid
  exact ⟨t, ht⟩

theorem Turn.key_of (h : Turn s cpu cur p) (hq : q ∈ s.schedule) (ht : s.objects q = some t) :
    s.threads t.id = some q := by
  obtain ⟨id, hid⟩ := h.linked q hq
  obtain ⟨u, hu, huid⟩ := h.ids id q hid
  rw [ht] at hu
  injection hu with hu
  rw [hu, huid]
  exact hid

theorem Turn.key_unique {id : BitVec 64} (h : Turn s cpu cur p)
    (hid : s.threads id = some p) : cur = id := by
  obtain ⟨t, ht, htid⟩ := h.ids cur p h.key
  obtain ⟨u, hu, huid⟩ := h.ids id p hid
  rw [ht] at hu
  injection hu with hu
  rw [← htid, hu, huid]

theorem idle_released (ht : t.running_on = -1) (q : Nat) :
    (s.setThread p t).idle q = (q == p || s.idle q) := by
  by_cases hq : q = p
  · subst hq
    rw [idle_eq (setThread_objects_self s q t), ht]
    simp
  · rw [Sched.idle, setThread_objects_ne s t hq, beq_eq_false_iff_ne.mpr hq]
    rfl

theorem Turn.tick (h : Turn s cpu cur p)
    (irq_state : τ) :
    ∃ q id e s', s.inspected.find? (fun r => r == p || s.idle r) = some q
      ∧ s.sched_resched cpu irq_state false = some (e, s')
      ∧ Turn s' cpu id q ∧ s'.schedule[s'.idx]? = some q
      ∧ s'.threads = s.threads ∧ s'.schedule = s.schedule := by
  obtain ⟨t, ht, -⟩ := h.ids cur p h.key
  have hrel : s.release ⟨cur, true⟩ irq_state false
      = some (s.setThread p { t with task := irq_state, running_on := -1 }) := by
    simp [Sched.release, deref_eq_some.mpr ⟨h.key, ht⟩]
  generalize hs1 : s.setThread p { t with task := irq_state, running_on := -1 } = s1 at hrel
  have h1 : Turn s1 cpu cur p := by
    subst hs1
    exact ⟨h.ids.setThread ht rfl, h.linked, h.data, h.key, h.queued⟩
  -- the outgoing thread itself is inspected, so something is found
  obtain ⟨q, hq⟩ : ∃ q, s1.inspected.find? s1.idle = some q := by
    refine Option.ne_none_iff_exists'.mp (fun hnone => ?_)
    have hp := List.find?_eq_none.mp hnone p (List.mem_append_right _ h1.queued)
    rw [← hs1, idle_released rfl] at hp
    simp at hp
  obtain ⟨j, u, hpick, hj, hu⟩ := get_next_eq h1.live hq
  have hqs : q ∈ s1.schedule := List.mem_of_getElem? hj
  have hkey := h1.key_of hqs hu
  have hlt : cpu < s.sched_procs.length := (List.getElem?_eq_some_iff.mp h.data).1
  have hfind : s.inspected.find? (fun r => r == p || s.idle r) = some q := by
    rw [← hq, ← hs1]
    exact congrArg (fun f => s.inspected.find? f) (funext fun r => (idle_released rfl r).symm)
  have hids : IdsConsistent (s1.setThread q { u with running_on := cpu }) :=
    h1.ids.setThread hu rfl
  have hframe : s1.threads = s.threads ∧ s1.schedule = s.schedule
      ∧ s1.sched_procs = s.sched_procs := release_frame hrel
  -- the state the tick ends in: the record may already name the thread
  refine ⟨q, u.id, if u.id = cur then .resume else .enter u.task,
    ({ s1 with idx := j }.setThread q { u with running_on := cpu }).setProc cpu ⟨u.id, true⟩,
    hfind, ?_, ⟨hids, h1.linked, ?_, hkey, hqs⟩, hj, hframe.1, hframe.2.1⟩
  · have hd : Sched.deref { s1 with idx := j } u.id = some (q, u) :=
      deref_eq_some.mpr ⟨hkey, hu⟩
    simp only [Sched.sched_resched, h.data, hrel, hpick, hd, Option.bind_eq_bind,
      Option.bind_some, Bool.true_and, beq_iff_eq]
    by_cases hsame : u.id = cur
    · rw [if_pos hsame, if_pos hsame, setProc_eq_self]
      rw [hsame]
      show s1.sched_procs[cpu]? = _
      rw [hframe.2.2]
      exact h.data
    · rw [if_neg hsame, if_neg hsame]
  · refine setProc_procs_self _ _ ?_
    show cpu < s1.sched_procs.length
    rw [hframe.2.2]
    exact hlt

/-! ## §3. Another thread. -/

theorem find_other_iff {f : Nat → Bool} {l : List Nat}
    (h : l.find? (fun r => r == p || f r) = some q) :
    (q ≠ p ↔ ∃ r ∈ l.takeWhile (· != p), f r = true) := by
  induction l with
  | nil => cases h
  | cons r l ih =>
    by_cases hr : r = p
    · subst hr
      rw [List.find?_cons_of_pos (by simp)] at h
      injection h with h
      simp [h]
    · rw [List.takeWhile_cons_of_pos (by simpa using hr)]
      by_cases hf : f r = true
      · rw [List.find?_cons_of_pos (by simp [hf])] at h
        injection h with h
        subst h
        exact ⟨fun _ => ⟨r, List.mem_cons_self, hf⟩, fun _ => hr⟩
      · rw [List.find?_cons_of_neg (by simp [hr, hf])] at h
        rw [ih h]
        simp [hf]

theorem Turn.selects_other_iff (h : Turn s cpu cur p) (irq_state : τ) :
    (∃ id, id ≠ cur ∧ Selects s cpu irq_state id)
      ↔ ∃ q ∈ s.inspected.takeWhile (· != p), s.idle q = true := by
  obtain ⟨q, id, e, s', hfind, hres, hturn, -, hth, -⟩ := h.tick irq_state
  rw [← find_other_iff hfind]
  constructor
  · rintro ⟨id', hne, e', s'', hres', hdata⟩ rfl
    rw [hres] at hres'
    injection hres' with hres'
    injection hres' with _ hs
    subst hs
    rw [hturn.data] at hdata
    injection hdata with hdata
    injection hdata with hid
    exact hne (by rw [← hid, hturn.key_unique (by rw [hth]; exact h.key)])
  · intro hne
    refine ⟨id, ?_, e, s', hres, hturn.data⟩
    rintro rfl
    have hkey := hturn.key
    rw [hth, h.key] at hkey
    injection hkey with hkey
    exact hne hkey.symm

/-! ## §4. Tick after tick. -/

def Sched.ticks (s : Sched τ) (cpu : Nat) : List τ → Option (List (BitVec 64) × Sched τ)
  | [] => some ([], s)
  | irq_state :: rest => do
    let (_, s) ← s.sched_resched cpu irq_state false
    let data ← s.sched_procs[cpu]?
    if data.running then
      let (ids, s) ← s.ticks cpu rest
      some (data.current_thread :: ids, s)
    else none

theorem Turn.ticks_at_cursor (cpu : Nat) (cur : BitVec 64) (p : Nat) (irqs : List τ) (s : Sched τ)
    (h : Turn s cpu cur p) (hcur : s.schedule[s.idx]? = some p) :
    ∃ s', s.ticks cpu irqs = some (List.replicate irqs.length cur, s') := by
  induction irqs generalizing s with
  | nil => exact ⟨s, rfl⟩
  | cons irq_state rest ih =>
    obtain ⟨q, id, e, s1, hfind, hres, hturn, hidx, hth, -⟩ := h.tick irq_state
    -- the first thread inspected is `p` itself
    have hqp : q = p := by
      obtain ⟨hlt, hget⟩ := List.getElem?_eq_some_iff.mp hcur
      rw [Sched.inspected, List.drop_eq_getElem_cons hlt, hget, List.cons_append,
        List.find?_cons_of_pos (by simp)] at hfind
      injection hfind with hfind
      exact hfind.symm
    subst hqp
    have hid : id = cur := hturn.key_unique (by rw [hth]; exact h.key)
    subst hid
    obtain ⟨s', hs'⟩ := ih s1 hturn hidx
    refine ⟨s', ?_⟩
    simp only [Sched.ticks, hres, hturn.data, hs', Option.bind_eq_bind, Option.bind_some,
      if_true, List.length_cons, List.replicate_succ]

theorem Turn.ticks_same (h : Turn s cpu cur p)
    (irqs : List τ) : ∃ id s', s.ticks cpu irqs = some (List.replicate irqs.length id, s') := by
  cases irqs with
  | nil => exact ⟨cur, s, rfl⟩
  | cons irq_state rest =>
    obtain ⟨q, id, e, s1, -, hres, hturn, hidx, -, -⟩ := h.tick irq_state
    obtain ⟨s', hs'⟩ := Turn.ticks_at_cursor cpu id q rest s1 hturn hidx
    refine ⟨id, s', ?_⟩
    simp only [Sched.ticks, hres, hturn.data, hs', Option.bind_eq_bind, Option.bind_some,
      if_true, List.length_cons, List.replicate_succ]

/-! ## §5. Round robin. -/

/-- **When the timer goes round.**  For every state with consistent ids and every
CPU that runs a scheduled thread: a tick selects another thread iff an idle one
is inspected before the outgoing one, and as many ticks as there are scheduled
threads select as many different threads iff there is just the one. -/
theorem round_robin_iff (s : Sched τ) (hids : IdsConsistent s)
    (hlink : ∀ p ∈ s.schedule, ∃ id, s.threads id = some p) (cpu : Nat) (cur : BitVec 64) (p : Nat)
    (hdata : s.sched_procs[cpu]? = some ⟨cur, true⟩) (hp : s.threads cur = some p)
    (hq : p ∈ s.schedule) :
    (∀ irq_state, (∃ id, id ≠ cur ∧ Selects s cpu irq_state id)
      ↔ ∃ q ∈ s.inspected.takeWhile (· != p), s.idle q = true)
    ∧ ∀ irqs : List τ, irqs.length = s.schedule.length →
        ((∃ ids s', s.ticks cpu irqs = some (ids, s') ∧ ids.Nodup) ↔ s.schedule.length ≤ 1) := by
  have h : Turn s cpu cur p := ⟨hids, hlink, hdata, hp, hq⟩
  refine ⟨h.selects_other_iff, fun irqs hlen => ?_⟩
  obtain ⟨id, s', hticks⟩ := h.ticks_same irqs
  rw [hlen] at hticks
  constructor
  · rintro ⟨ids, s'', hids', hnodup⟩
    rw [hticks] at hids'
    injection hids' with hids'
    injection hids' with hids' _
    rw [← hids'] at hnodup
    exact List.nodup_replicate.mp hnodup
  · intro hone
    exact ⟨_, s', hticks, List.nodup_replicate.mpr hone⟩

/-- With the cursor behind thread 5, CPU 0 goes on to thread 7. -/
theorem round_robin_behind_cursor :
    ∃ id, id ≠ 5 ∧ Selects { twoCpus.toSched with idx := 1 } 0 () id :=
  ((round_robin_iff { twoCpus.toSched with idx := 1 } twoCpus_ids twoCpus.linked 0 5 0 rfl rfl
    (by decide)).1 ()).mpr ⟨1, by decide, by decide⟩

/-- Thread 7 is idle, and CPU 0 selects thread 5 again. -/
theorem timer_selects_same_thread :
    ¬ ∀ (s : Sched Unit), IdsConsistent s → (∀ p ∈ s.schedule, ∃ id, s.threads id = some p) →
        ∀ (cpu : Nat) (cur : BitVec 64) (p : Nat), s.sched_procs[cpu]? = some ⟨cur, true⟩ →
          s.threads cur = some p → p ∈ s.schedule →
          (∃ q ∈ s.schedule, q ≠ p ∧ s.idle q = true) →
          ∃ id, id ≠ cur ∧ Selects s cpu () id := by
  intro h
  have hsel := h twoCpus.toSched twoCpus_ids twoCpus.linked 0 5 0 rfl rfl (by decide)
    ⟨1, by decide, by decide, by decide⟩
  have hturn : Turn twoCpus.toSched 0 5 0 :=
    ⟨twoCpus_ids, twoCpus.linked, rfl, rfl, by decide⟩
  obtain ⟨q, hq, -⟩ := (hturn.selects_other_iff ()).mp hsel
  have hnone : twoCpus.toSched.inspected.takeWhile (· != 0) = [] := by decide
  rw [hnone] at hq
  cases hq

end Quack.Proc
