/-
  Quack.Util.Spinlock
  **THE KERNEL'S SPINLOCK, one atomic access at a time.**

  `util/spinlock.cpp` takes the lock with a LOAD followed by a separate STORE.

      lock      while (_locked.load()) ;   _locked.store(true);
      try_lock  if (_locked.load()) return false;  _locked.store(true);
      unlock    _locked.store(false);

  The model interleaves the single accesses of any number of CPUs.  Each CPU
  is between two calls or in front of one particular access, and carries the
  number of its acquisitions that it has not released yet; `unlock` is only
  possible while that number is positive.

  Between the load and the store another CPU may have stored `true`.  The
  theorem at the end says this is the ONLY way to break mutual exclusion: a
  run excludes exactly when every acquiring store still finds `_locked` clear.
-/
import Quack.Lib.Runs

namespace Quack.Spinlock

open Lib

/-! ## §1. The accesses of `lock`, `try_lock` and `unlock`. -/

/-- Where a CPU stands: between calls, or in front of its next access. -/
inductive Pc where
  | idle
  /-- `lock`, in front of `_locked.load` (the spin loop). -/
  | lock_load
  /-- `lock`, the load returned `false`; in front of `_locked.store(true)`. -/
  | lock_store
  /-- `try_lock`, in front of `_locked.load`. -/
  | try_lock_load
  /-- `try_lock`, the load returned `false`; in front of the store. -/
  | try_lock_store
  deriving Repr, DecidableEq

/-- One CPU: its position, and its acquisitions not yet followed by `unlock`. -/
structure Cpu where
  pc : Pc
  held : Nat
  deriving Repr, DecidableEq

/-- The lock word and the CPUs that use it. -/
structure State (ι : Type) where
  locked : Bool
  cpus : ι → Cpu

/-- What a CPU can do next: enter a call, make the access it stands in front
of, or call `unlock` (a single store). -/
inductive Action where
  | call_lock
  | call_try_lock
  | access
  | unlock
  deriving Repr, DecidableEq

variable {ι : Type} [DecidableEq ι]

/-- Replace the record of CPU `c`. -/
def State.setCpu (s : State ι) (c : ι) (x : Cpu) : State ι :=
  { s with cpus := Function.update s.cpus c x }

/-- The access CPU `c` stands in front of. -/
def State.access (s : State ι) (c : ι) : Option (State ι) :=
  match (s.cpus c).pc with
  | .idle => none
  | .lock_load =>
    -- the loop spins while the load returns `true`
    if s.locked then some s
    else some (s.setCpu c { s.cpus c with pc := .lock_store })
  | .try_lock_load =>
    -- `return false` ends the call without an acquisition
    if s.locked then some (s.setCpu c { s.cpus c with pc := .idle })
    else some (s.setCpu c { s.cpus c with pc := .try_lock_store })
  | .lock_store | .try_lock_store =>
    some ({ s with locked := true }.setCpu c ⟨.idle, (s.cpus c).held + 1⟩)

/-- One step of CPU `l.1`. -/
def step (s : State ι) (l : ι × Action) : Option (State ι) :=
  match l.2 with
  | .call_lock =>
    if (s.cpus l.1).pc = .idle then
      some (s.setCpu l.1 { s.cpus l.1 with pc := .lock_load })
    else none
  | .call_try_lock =>
    if (s.cpus l.1).pc = .idle then
      some (s.setCpu l.1 { s.cpus l.1 with pc := .try_lock_load })
    else none
  | .access => s.access l.1
  | .unlock =>
    if (s.cpus l.1).pc = .idle ∧ 0 < (s.cpus l.1).held then
      some ({ s with locked := false }.setCpu l.1 ⟨.idle, (s.cpus l.1).held - 1⟩)
    else none

/-- A free lock and no CPU inside a call. -/
def initial : State ι := ⟨false, fun _ => ⟨.idle, 0⟩⟩

/-- In front of the store that takes the lock. -/
def Pc.storing : Pc → Bool
  | .lock_store | .try_lock_store => true
  | _ => false

/-- At most one CPU is between a successful acquisition and its `unlock`. -/
def MutualExclusion (s : State ι) : Prop :=
  ∀ c d, 0 < (s.cpus c).held → 0 < (s.cpus d).held → c = d

/-- The step is not an acquiring store that finds `_locked` already set. -/
def FreshStore (s : State ι) (l : ι × Action) : Prop :=
  l.2 = .access → (s.cpus l.1).pc.storing = true → s.locked = false

@[simp] theorem setCpu_locked (s : State ι) (c : ι) (x : Cpu) :
    (s.setCpu c x).locked = s.locked := rfl

@[simp] theorem setCpu_cpus_self (s : State ι) (c : ι) (x : Cpu) :
    (s.setCpu c x).cpus c = x := by
  simp [State.setCpu]

theorem setCpu_cpus_ne (s : State ι) {c d : ι} (x : Cpu) (h : d ≠ c) :
    (s.setCpu c x).cpus d = s.cpus d := by
  simp [State.setCpu, h]

/-! ## §2. What one step can do. -/

variable {s s' : State ι}

theorem step_cases {c : ι} {a : Action} (h : step s (c, a) = some s') :
    -- enter a call, spin, give up, or pass the load that read `false`
    (∃ pc, s' = s.setCpu c { s.cpus c with pc := pc } ∧ (pc.storing = true → s.locked = false))
    ∨ s' = s
    ∨ ((s.cpus c).pc.storing = true ∧ a = .access
        ∧ s' = { s with locked := true }.setCpu c ⟨.idle, (s.cpus c).held + 1⟩)
    ∨ (0 < (s.cpus c).held ∧ (s.cpus c).pc = .idle
        ∧ s' = { s with locked := false }.setCpu c ⟨.idle, (s.cpus c).held - 1⟩) := by
  cases a with
  | call_lock =>
    simp only [step] at h
    split at h
    · injection h with h
      exact Or.inl ⟨.lock_load, h.symm, by simp [Pc.storing]⟩
    · cases h
  | call_try_lock =>
    simp only [step] at h
    split at h
    · injection h with h
      exact Or.inl ⟨.try_lock_load, h.symm, by simp [Pc.storing]⟩
    · cases h
  | unlock =>
    simp only [step] at h
    split at h
    · next hg =>
        injection h with h
        exact Or.inr (Or.inr (Or.inr ⟨hg.2, hg.1, h.symm⟩))
    · cases h
  | access =>
    simp only [step, State.access] at h
    cases hpc : (s.cpus c).pc <;> simp only [hpc] at h
    case idle => cases h
    case lock_load =>
      split at h <;> injection h with h
      · exact Or.inr (Or.inl h.symm)
      · next hl => exact Or.inl ⟨.lock_store, h.symm, fun _ => by simpa using hl⟩
    case try_lock_load =>
      split at h <;> injection h with h
      · exact Or.inl ⟨.idle, h.symm, by simp [Pc.storing]⟩
      · next hl => exact Or.inl ⟨.try_lock_store, h.symm, fun _ => by simpa using hl⟩
    case lock_store | try_lock_store =>
      injection h with h
      exact Or.inr (Or.inr (Or.inl ⟨rfl, rfl, h.symm⟩))

/-! ## §3. The invariant of runs without a stale store. -/

/-- The lock word says whether somebody holds the lock, at most one CPU does
and at most once, and a CPU about to store does not hold it. -/
structure Inv (s : State ι) : Prop where
  locked_iff : s.locked = true ↔ ∃ c, 0 < (s.cpus c).held
  unique : MutualExclusion s
  held_le : ∀ c, (s.cpus c).held ≤ 1
  storing_free : ∀ c, (s.cpus c).pc.storing = true → (s.cpus c).held = 0

omit [DecidableEq ι] in
theorem Inv.initial : Inv (initial : State ι) := by
  constructor <;> simp [Spinlock.initial, MutualExclusion, Pc.storing]

omit [DecidableEq ι] in
theorem Inv.held_zero (hs : Inv s) (hl : s.locked = false) (c : ι) :
    (s.cpus c).held = 0 := by
  by_contra hne
  have : s.locked = true := hs.locked_iff.mpr ⟨c, by omega⟩
  rw [hl] at this
  cases this

theorem Inv.move (hs : Inv s) (c : ι) (pc : Pc)
    (hpc : pc.storing = true → s.locked = false) :
    Inv (s.setCpu c { s.cpus c with pc := pc }) := by
  have hheld : ∀ d, ((s.setCpu c { s.cpus c with pc := pc }).cpus d).held = (s.cpus d).held := by
    intro d
    by_cases hd : d = c
    · subst hd; simp
    · rw [setCpu_cpus_ne s _ hd]
  refine ⟨?_, ?_, ?_, ?_⟩
  · simp only [hheld, setCpu_locked]
    exact hs.locked_iff
  · intro d e hd he
    rw [hheld] at hd he
    exact hs.unique d e hd he
  · intro d
    rw [hheld]
    exact hs.held_le d
  · intro d hd
    rw [hheld]
    by_cases hdc : d = c
    · subst hdc
      rw [setCpu_cpus_self] at hd
      exact hs.held_zero (hpc hd) d
    · rw [setCpu_cpus_ne s _ hdc] at hd
      exact hs.storing_free d hd

theorem Inv.acquire (hs : Inv s) (c : ι) (hl : s.locked = false) :
    Inv ({ s with locked := true }.setCpu c ⟨.idle, (s.cpus c).held + 1⟩) := by
  have hz := hs.held_zero hl
  have hne : ∀ d, d ≠ c →
      ({ s with locked := true }.setCpu c ⟨.idle, (s.cpus c).held + 1⟩).cpus d = s.cpus d :=
    fun d hd => setCpu_cpus_ne _ _ hd
  refine ⟨?_, ?_, ?_, ?_⟩
  · exact ⟨fun _ => ⟨c, by simp⟩, fun _ => rfl⟩
  · -- every holder of the new state is `c`
    have hc : ∀ d, 0 < (({ s with locked := true }.setCpu c
        ⟨.idle, (s.cpus c).held + 1⟩).cpus d).held → d = c := by
      intro d hd
      by_contra hdc
      rw [hne d hdc, hz d] at hd
      omega
    intro d e hd he
    rw [hc d hd, hc e he]
  · intro d
    by_cases hd : d = c
    · subst hd; simp [hz d]
    · rw [hne d hd, hz d]; omega
  · intro d hd
    by_cases hdc : d = c
    · subst hdc
      rw [setCpu_cpus_self] at hd
      cases hd
    · rw [hne d hdc]
      exact hz d

theorem Inv.release (hs : Inv s) (c : ι) (hc : 0 < (s.cpus c).held) :
    Inv ({ s with locked := false }.setCpu c ⟨.idle, (s.cpus c).held - 1⟩) := by
  -- `c` was the only holder and held the lock once, so nobody holds it now
  have hz : ∀ d, (({ s with locked := false }.setCpu c
      ⟨.idle, (s.cpus c).held - 1⟩).cpus d).held = 0 := by
    intro d
    by_cases hd : d = c
    · subst hd
      have := hs.held_le d
      simp only [setCpu_cpus_self]
      omega
    · rw [setCpu_cpus_ne _ _ hd]
      by_contra hpos
      exact hd (hs.unique d c (by show 0 < (s.cpus d).held; exact Nat.pos_of_ne_zero hpos) hc)
  refine ⟨?_, ?_, ?_, fun d _ => hz d⟩
  · constructor
    · intro h; cases h
    · rintro ⟨d, hd⟩
      rw [hz d] at hd
      omega
  · intro d e hd _
    rw [hz d] at hd
    omega
  · intro d
    rw [hz d]
    omega

theorem Inv.step {l : ι × Action} (hs : Inv s) (hok : FreshStore s l)
    (h : step s l = some s') : Inv s' := by
  obtain ⟨c, a⟩ := l
  obtain ⟨pc, rfl, hpc⟩ | rfl | ⟨hst, ha, rfl⟩ | ⟨hheld, _, rfl⟩ := step_cases h
  · exact hs.move c pc hpc
  · exact hs
  · exact hs.acquire c (hok ha hst)
  · exact hs.release c hheld

theorem Inv.stale_store {l : ι × Action} (hs : Inv s) (hbad : ¬ FreshStore s l) :
    ∃ s', Spinlock.step s l = some s' ∧ ¬ MutualExclusion s' := by
  obtain ⟨c, a⟩ := l
  simp only [FreshStore, Classical.not_imp, Bool.not_eq_false] at hbad
  obtain ⟨rfl, hst, hl⟩ := hbad
  refine ⟨{ s with locked := true }.setCpu c ⟨.idle, (s.cpus c).held + 1⟩, ?_, ?_⟩
  · simp only [Spinlock.step, State.access]
    cases hpc : (s.cpus c).pc <;> rw [hpc] at hst <;> simp_all [Pc.storing]
  · -- the word is set, so some CPU holds the lock; it is not the one storing
    obtain ⟨d, hd⟩ := hs.locked_iff.mp hl
    have hdc : d ≠ c := by
      intro he
      subst he
      have := hs.storing_free d hst
      omega
    intro hmx
    refine hdc (hmx d c ?_ ?_)
    · rw [setCpu_cpus_ne _ _ hdc]
      exact hd
    · simp

/-! ## §4. Mutual exclusion over runs. -/

/-- **When the spinlock excludes**: for any number of CPUs and any
interleaving, no state of the run has two CPUs between an acquisition and its
`unlock` if and only if every acquiring store of the run still finds `_locked`
clear, that is, no other CPU stored between its load and its store. -/
theorem mutual_exclusion_iff_fresh_stores (ls : List (ι × Action)) :
    Always step MutualExclusion (initial : State ι) ls
      ↔ Along step FreshStore (initial : State ι) ls :=
  always_iff_along step Inv (fun _ hs => hs.unique) (fun _ _ _ hs hok h => hs.step hok h)
    (fun _ _ hs hbad => hs.stale_store hbad) ls initial Inv.initial

/-- Two CPUs whose loads both come before either store end up holding the
lock together. -/
theorem two_cpus_acquire_together :
    ¬ ∀ (ls : List (Bool × Action)) (s : State Bool),
        run step initial ls = some s → MutualExclusion s := by
  intro h
  have hrun : ∃ s : State Bool, run step initial
      [(false, .call_lock), (true, .call_lock), (false, .access), (true, .access),
        (false, .access), (true, .access)] = some s
      ∧ (s.cpus false).held = 1 ∧ (s.cpus true).held = 1 := ⟨_, rfl, rfl, rfl⟩
  obtain ⟨s, hs, h0, h1⟩ := hrun
  have := h _ s hs false true (by omega) (by omega)
  cases this

end Quack.Spinlock
