/-
  Quack.Object.GroupLock
  **THE LOCKING OF OBJECT GROUPS, STEP BY STEP.**

  A locked method of `object_group` reads `_dont_lock` twice:

      if (!_dont_lock) _lock.lock();   body   if (!_dont_lock) _lock.unlock();

  so that `check_membership_and`, which holds `_lock` and sets the flag, can
  call it.  But the flag is one for all threads, and the constructor does not
  initialise it.  The model interleaves the single steps of any number of
  threads; the lock itself is a mutex with a holder.

    • `disciplined_of_runs`    — one thread in a body, and unlocks by the holder
      only, in every run in which the first read of each direct call finds the
      flag clear.
    • `disciplined_two_bodies` — a call made while another thread is inside
      `check_membership_and` skips the lock.
-/
import Quack.Object.Group

namespace Quack.Object

open Lib

/-! ## §1. Threads. -/

/-- Where a thread stands, each time in front of the step it names.  `nested`
says that the method is called by `check_membership_and`. -/
inductive Pc (ω : Type) where
  | idle
  /-- The first read of `_dont_lock`. -/
  | enter (nested : Bool) (op : GroupOp ω)
  /-- `_lock.lock()` of a method. -/
  | lock (nested : Bool) (op : GroupOp ω)
  | body (nested : Bool) (op : GroupOp ω)
  /-- The second read of `_dont_lock`. -/
  | leave (nested : Bool)
  /-- `_lock.unlock()` of a method. -/
  | unlock (nested : Bool)
  /-- `unique_lock guard{_lock}` of `check_membership_and`. -/
  | guard (t : U64) (op : GroupOp ω)
  /-- `_members[t]`, which may insert an entry. -/
  | check (t : U64) (op : GroupOp ω)
  /-- `_dont_lock = true`. -/
  | set (op : GroupOp ω)
  /-- `_dont_lock = false`. -/
  | clear
  /-- The end of the guard. -/
  | release
  deriving Repr, DecidableEq

/-- One group and the threads that use it. -/
structure Shared (ι ω : Type) where
  group : ObjectGroup ω
  dont_lock : Bool
  /-- The thread that holds `_lock`. -/
  holder : Option ι
  threads : ι → Pc ω

variable {ι ω : Type} [DecidableEq ι]

/-- A new group; its flag has any value. -/
def Shared.new (dont_lock : Bool) : Shared ι ω := ⟨ObjectGroup.new, dont_lock, none, fun _ => .idle⟩

/-- `get_object` does not lock. -/
def GroupOp.locks : GroupOp ω → Bool
  | .get_object _ => false
  | _ => true

/-- What follows a method. -/
def Pc.after (nested : Bool) : Pc ω := if nested then .clear else .idle

def Shared.goto (s : Shared ι ω) (i : ι) (pc : Pc ω) : Shared ι ω :=
  { s with threads := Function.update s.threads i pc }

def Shared.next (s : Shared ι ω) (i : ι) : Option (Shared ι ω) :=
  match s.threads i with
  | .idle => none
  | .enter nested op => some (s.goto i (if s.dont_lock then .body nested op else .lock nested op))
  | .lock nested op =>
    if s.holder = none then some ({ s with holder := some i }.goto i (.body nested op)) else none
  | .body nested op => (s.group.apply op).map fun (_, g) =>
    { s with group := g }.goto i (if op.locks then .leave nested else Pc.after nested)
  | .leave nested => some (s.goto i (if s.dont_lock then Pc.after nested else .unlock nested))
  | .unlock nested => some ({ s with holder := none }.goto i (Pc.after nested))
  | .guard t op =>
    if s.holder = none then some ({ s with holder := some i }.goto i (.check t op)) else none
  | .check t op =>
    let out := s.group.check_membership t
    some ({ s with group := out.2 }.goto i (if out.1 then .set op else .release))
  | .set op => some ({ s with dont_lock := true }.goto i
      (if op.locks then .enter true op else .body true op))
  | .clear => some ({ s with dont_lock := false }.goto i .release)
  | .release => some ({ s with holder := none }.goto i .idle)

/-- A thread calls a locked method or `check_membership_and`, or takes its next
step. -/
inductive Move (ι ω : Type) where
  | call (i : ι) (op : GroupOp ω)
  | check_membership_and (i : ι) (t : U64) (op : GroupOp ω)
  | next (i : ι)
  deriving Repr, DecidableEq

def sharedStep (s : Shared ι ω) : Move ι ω → Option (Shared ι ω)
  | .call i op =>
    match s.threads i with
    | .idle => if op.locks then some (s.goto i (.enter false op)) else none
    | _ => none
  | .check_membership_and i t op =>
    match s.threads i with
    | .idle => some (s.goto i (.guard t op))
    | _ => none
  | .next i => s.next i

/-! ## §2. The discipline. -/

/-- The thread is about to update `_objects` or `_members`. -/
def Pc.inBody : Pc ω → Bool
  | .body _ _ => true
  | .check _ _ => true
  | _ => false

/-- The thread is about to unlock. -/
def Pc.unlocks : Pc ω → Bool
  | .unlock _ => true
  | .release => true
  | _ => false

/-- **The discipline**: one thread is in a body, and only the holder unlocks. -/
structure Disciplined (s : Shared ι ω) : Prop where
  exclusive : ∀ i j, (s.threads i).inBody → (s.threads j).inBody → i = j
  unlock : ∀ i, (s.threads i).unlocks → s.holder = some i

/-- The thread is a direct call in front of its first read of `_dont_lock`. -/
def Pc.entersDirectly : Pc ω → Bool
  | .enter false _ => true
  | _ => false

/-- The first read of `_dont_lock` by a direct call finds it clear. -/
def SeesClear (s : Shared ι ω) : Move ι ω → Prop
  | .next i => (s.threads i).entersDirectly = true → s.dont_lock = false
  | _ => True

instance (s : Shared ι ω) : ∀ m, Decidable (SeesClear s m)
  | .next _ => inferInstanceAs (Decidable (_ → _))
  | .call _ _ => isTrue trivial
  | .check_membership_and _ _ _ => isTrue trivial

/-- What is known of a thread: whether it holds the lock, and the flag. -/
def Fine (holds : Prop) (flag : Bool) : Pc ω → Prop
  | .idle => True
  | .enter nested _ => nested = true → holds ∧ flag = true
  | .lock nested _ => nested = false
  | .body nested _ => holds ∧ flag = nested
  | .leave nested => holds ∧ flag = nested
  | .unlock nested => holds ∧ flag = false ∧ nested = false
  | .guard _ _ => True
  | .check _ _ => holds
  | .set _ => holds
  | .clear => holds ∧ flag = true
  | .release => holds

/-- The thread has set the flag and not cleared it. -/
def Pc.raised : Pc ω → Bool
  | .enter nested _ => nested
  | .body nested _ => nested
  | .leave nested => nested
  | .clear => true
  | _ => false

/-- The flag is set by the holder of the lock. -/
def Shared.raised (s : Shared ι ω) : Bool :=
  match s.holder with
  | none => false
  | some j => (s.threads j).raised

/-- What holds of all threads together.  Once a direct call saw the flag clear,
the flag is as its holder left it; before that it may be uninitialised. -/
structure LockInv (s : Shared ι ω) : Prop where
  fine : ∀ i, Fine (s.holder = some i) s.dont_lock (s.threads i)
  flag : ∀ i op, s.threads i = .lock false op → s.dont_lock = s.raised

section Threads

omit [DecidableEq ι]

variable {s : Shared ι ω} {i : ι} {pc : Pc ω}

theorem Fine.of_not_holds {holds : Prop} {flag : Bool} (h : Fine holds flag pc) (hno : ¬ holds)
    (holds' : Prop) (flag' : Bool) : Fine holds' flag' pc := by
  cases pc with
  | idle | guard => trivial
  | enter nested op => exact fun hn => absurd (h hn).1 hno
  | lock nested op => exact h
  | body | leave | unlock | clear => exact absurd h.1 hno
  | check | set | release => exact absurd h hno

theorem Fine.flag {holds : Prop} {flag : Bool} (h : Fine holds flag pc) (hr : pc.raised) :
    flag = true := by
  cases pc with
  | enter nested op => exact (h hr).2
  | body nested op | leave nested => exact h.2.trans hr
  | clear => exact h.2
  | _ => exact absurd hr nofun

theorem LockInv.disciplined (h : LockInv s) : Disciplined s where
  exclusive i j hi hj := by
    have hbody : ∀ k, (s.threads k).inBody → s.holder = some k := by
      intro k hk
      have hfine := h.fine k
      cases hpc : s.threads k with
      | body nested op =>
        rw [hpc] at hfine
        exact hfine.1
      | check t op =>
        rw [hpc] at hfine
        exact hfine
      | _ =>
        rw [hpc] at hk
        exact absurd hk nofun
    have heq := (hbody i hi).symm.trans (hbody j hj)
    injection heq
  unlock i hi := by
    have hfine := h.fine i
    cases hpc : s.threads i with
    | unlock nested =>
      rw [hpc] at hfine
      exact hfine.1
    | release =>
      rw [hpc] at hfine
      exact hfine
    | _ =>
      rw [hpc] at hi
      exact absurd hi nofun

theorem others_of_free (hfree : s.holder = none) : ∀ j, j ≠ i → s.holder ≠ some j := by
  intro j _ hj
  rw [hfree] at hj
  exact absurd hj nofun

theorem others_of_holds (hi : s.holder = some i) : ∀ j, j ≠ i → s.holder ≠ some j := by
  intro j hj hs
  rw [hi] at hs
  injection hs with hs
  exact hj hs.symm

theorem LockInv.raised_false (h : LockInv s) (hfalse : s.raised = false) {k : ι} {op : GroupOp ω}
    (hk : s.threads k = .lock false op) : s.dont_lock = false :=
  (h.flag k op hk).trans hfalse

end Threads

section Steps

variable {s s' : Shared ι ω} {i : ι} {pc : Pc ω}

theorem LockInv.goto (h : LockInv s) (g : ObjectGroup ω)
    (hpc : Fine (s.holder = some i) s.dont_lock pc) (hraised : pc.raised = (s.threads i).raised)
    (hlock : ∀ op, pc = .lock false op → s.dont_lock = s.raised) :
    LockInv ({ s with group := g }.goto i pc) := by
  have hsame : ({ s with group := g }.goto i pc).raised = s.raised := by
    unfold Shared.raised
    show (match s.holder with | none => _ | some j => (Function.update s.threads i pc j).raised) = _
    cases s.holder with
    | none => rfl
    | some j =>
      show (Function.update s.threads i pc j).raised = (s.threads j).raised
      by_cases hj : j = i
      · subst hj
        rw [Function.update_self, hraised]
      · rw [Function.update_of_ne hj]
  constructor
  · intro j
    show Fine _ _ (Function.update s.threads i pc j)
    by_cases hj : j = i
    · subst hj
      rw [Function.update_self]
      exact hpc
    · rw [Function.update_of_ne hj]
      exact h.fine j
  · intro j op hj
    rw [hsame]
    have hj' : Function.update s.threads i pc j = .lock false op := hj
    by_cases hij : j = i
    · subst hij
      rw [Function.update_self] at hj'
      exact hlock op hj'
    · rw [Function.update_of_ne hij] at hj'
      exact h.flag j op hj'

theorem LockInv.goto_holder (h : LockInv s) (hother : ∀ j, j ≠ i → s.holder ≠ some j)
    {holder : Option ι} {flag : Bool} (hpc : Fine (holder = some i) flag pc)
    (hlock : ∀ op, pc ≠ .lock false op)
    (hflag : ∀ k op, s.threads k = .lock false op →
      flag = ({ s with holder := holder, dont_lock := flag }.goto i pc).raised) :
    LockInv ({ s with holder := holder, dont_lock := flag }.goto i pc) := by
  constructor
  · intro j
    show Fine _ _ (Function.update s.threads i pc j)
    by_cases hj : j = i
    · subst hj
      rw [Function.update_self]
      exact hpc
    · rw [Function.update_of_ne hj]
      exact (h.fine j).of_not_holds (hother j hj) _ _
  · intro j op hj
    have hj' : Function.update s.threads i pc j = .lock false op := hj
    by_cases hij : j = i
    · subst hij
      rw [Function.update_self] at hj'
      exact absurd hj' (hlock op)
    · rw [Function.update_of_ne hij] at hj'
      exact hflag j op hj'

theorem LockInv.take (h : LockInv s) (hfree : s.holder = none)
    (hpc : Fine True s.dont_lock pc) (hraised : pc.raised = false)
    (hlock : ∀ op, pc ≠ .lock false op) : LockInv ({ s with holder := some i }.goto i pc) := by
  refine h.goto_holder (others_of_free hfree) ?_ hlock ?_
  · simpa using hpc
  · intro k op hk
    have hs : s.raised = false := by
      unfold Shared.raised
      rw [hfree]
    rw [h.raised_false hs hk]
    show false = (Function.update s.threads i pc i).raised
    rw [Function.update_self, hraised]

theorem LockInv.drop (h : LockInv s) (hheld : s.holder = some i)
    (hraised : (s.threads i).raised = false) :
    LockInv ({ s with holder := none }.goto i .idle) := by
  refine h.goto_holder (others_of_holds hheld) trivial nofun ?_
  intro k op hk
  refine h.raised_false ?_ hk
  unfold Shared.raised
  rw [hheld]
  exact hraised

theorem LockInv.write (h : LockInv s) (hheld : s.holder = some i) {flag : Bool}
    (hpc : Fine (s.holder = some i) flag pc) (hraised : pc.raised = flag)
    (hlock : ∀ op, pc ≠ .lock false op) : LockInv ({ s with dont_lock := flag }.goto i pc) := by
  refine h.goto_holder (others_of_holds hheld) hpc hlock ?_
  intro k op hk
  show flag = (match s.holder with | none => _ | some j => (Function.update s.threads i pc j).raised)
  rw [hheld]
  show flag = (Function.update s.threads i pc i).raised
  rw [Function.update_self, hraised]

omit [DecidableEq ι] in
theorem LockInv.not_raised (h : LockInv s) (hflag : s.dont_lock = false) : s.raised = false := by
  cases hraised : s.raised with
  | false => rfl
  | true =>
    unfold Shared.raised at hraised
    cases hholder : s.holder with
    | none =>
      rw [hholder] at hraised
      exact hraised.symm
    | some j =>
      rw [hholder] at hraised
      rw [← hflag]
      exact ((h.fine j).flag hraised).symm

theorem LockInv.next (h : LockInv s) (hclear : SeesClear s (.next i)) (hs : s.next i = some s') :
    LockInv s' := by
  have hi := h.fine i
  unfold Shared.next at hs
  cases hpc : s.threads i with
  | idle =>
    rw [hpc] at hs
    exact absurd hs nofun
  | enter nested op =>
    rw [hpc] at hs hi
    injection hs with hs
    subst hs
    cases nested with
    | true =>
      -- called from a body that holds the lock and has set the flag
      obtain ⟨hheld, hflag⟩ := hi rfl
      rw [if_pos hflag]
      exact h.goto s.group ⟨hheld, hflag⟩ (by rw [hpc]; rfl) nofun
    | false =>
      have hflag := hclear (by rw [hpc]; rfl)
      rw [hflag, if_neg Bool.false_ne_true]
      refine h.goto s.group rfl (by rw [hpc]; rfl) fun _ _ => ?_
      rw [hflag, h.not_raised hflag]
  | lock nested op =>
    rw [hpc] at hs hi
    have hnested : nested = false := hi
    subst hnested
    by_cases hfree : s.holder = none
    · simp only [hfree, if_true] at hs
      injection hs with hs
      subst hs
      have hflag : s.dont_lock = false := by
        refine h.raised_false ?_ hpc
        unfold Shared.raised
        rw [hfree]
      exact h.take hfree ⟨trivial, hflag⟩ rfl nofun
    · simp only [hfree, if_false] at hs
      exact absurd hs nofun
  | body nested op =>
    rw [hpc] at hs hi
    obtain ⟨⟨r, g⟩, -, rfl⟩ := Option.map_eq_some_iff.mp hs
    cases op.locks with
    | true => exact h.goto g hi (by rw [hpc]; rfl) nofun
    | false =>
      cases nested with
      | true => exact h.goto g hi (by rw [hpc]; rfl) nofun
      | false => exact h.goto g trivial (by rw [hpc]; rfl) nofun
  | leave nested =>
    rw [hpc] at hs hi
    injection hs with hs
    subst hs
    cases nested with
    | true =>
      rw [if_pos hi.2]
      exact h.goto s.group hi (by rw [hpc]; rfl) nofun
    | false =>
      rw [hi.2, if_neg Bool.false_ne_true]
      exact h.goto s.group ⟨hi.1, hi.2, rfl⟩ (by rw [hpc]; rfl) nofun
  | unlock nested =>
    rw [hpc] at hs hi
    injection hs with hs
    subst hs
    obtain ⟨hheld, -, rfl⟩ := hi
    exact h.drop hheld (by rw [hpc]; rfl)
  | guard t op =>
    rw [hpc] at hs
    by_cases hfree : s.holder = none
    · simp only [hfree, if_true] at hs
      injection hs with hs
      subst hs
      exact h.take hfree trivial rfl nofun
    · simp only [hfree, if_false] at hs
      exact absurd hs nofun
  | check t op =>
    rw [hpc] at hs hi
    obtain rfl := Option.some.inj hs
    cases (s.group.check_membership t).1 with
    | true => exact h.goto _ hi (by rw [hpc]; rfl) nofun
    | false => exact h.goto _ hi (by rw [hpc]; rfl) nofun
  | set op =>
    rw [hpc] at hs hi
    injection hs with hs
    subst hs
    cases op.locks with
    | true => exact h.write hi (fun _ => ⟨hi, rfl⟩) rfl nofun
    | false => exact h.write hi ⟨hi, rfl⟩ rfl nofun
  | clear =>
    rw [hpc] at hs hi
    injection hs with hs
    subst hs
    exact h.write hi.1 hi.1 rfl nofun
  | release =>
    rw [hpc] at hs hi
    injection hs with hs
    subst hs
    exact h.drop hi (by rw [hpc]; rfl)

theorem LockInv.step {m : Move ι ω} (h : LockInv s) (hclear : SeesClear s m)
    (hs : sharedStep s m = some s') : LockInv s' := by
  cases m with
  | next i => exact h.next hclear hs
  | call i op =>
    unfold sharedStep at hs
    cases hpc : s.threads i with
    | idle =>
      simp only [hpc] at hs
      cases hlocks : op.locks with
      | true =>
        rw [hlocks] at hs
        injection hs with hs
        subst hs
        exact h.goto s.group nofun (by rw [hpc]; rfl) nofun
      | false =>
        rw [hlocks] at hs
        exact absurd hs nofun
    | _ =>
      simp only [hpc] at hs
      exact absurd hs nofun
  | check_membership_and i t op =>
    unfold sharedStep at hs
    cases hpc : s.threads i with
    | idle =>
      simp only [hpc] at hs
      injection hs with hs
      subst hs
      exact h.goto s.group trivial (by rw [hpc]; rfl) nofun
    | _ =>
      simp only [hpc] at hs
      exact absurd hs nofun

end Steps

/-! ## §3. Runs. -/

omit [DecidableEq ι] in
theorem LockInv.new (dont_lock : Bool) : LockInv (Shared.new dont_lock : Shared ι ω) where
  fine _ := trivial
  flag _ _ h := absurd h nofun

/-- **The locking discipline.**  Whatever the constructor leaves in the flag: in
every run in which the first read of each direct call finds it clear, at most one
thread is in a body and only the holder unlocks, in every state. -/
theorem disciplined_of_runs (dont_lock : Bool) (moves : List (Move ι ω))
    (hclear : Along sharedStep SeesClear (Shared.new dont_lock) moves) :
    Always sharedStep Disciplined (Shared.new dont_lock) moves :=
  Along.always sharedStep LockInv (fun _ h => h.disciplined)
    (fun _ _ _ h hclear hs => h.step hclear hs) moves _ (LockInv.new dont_lock) hclear

/-- A call that waits for the end of another thread's `check_membership_and`. -/
def waitingCall : List (Move Bool Unit) :=
  [.call true (.add_member 1), .next true, .next true, .next true, .next true, .next true,
   .call false (.add_object ()), .check_membership_and true 1 (.get_object 0), .next true,
   .next true, .next true, .next true, .next true, .next true, .next false, .next false]

theorem disciplined_of_runs_waiting :
    ∃ s, run sharedStep (Shared.new false) waitingCall = some s
      ∧ s.threads false = .body false (.add_object ()) ∧ Disciplined s := by
  have hrun : (run sharedStep (Shared.new false) waitingCall).map (·.threads false)
      = some (.body false (.add_object ())) := by
    decide +kernel
  obtain ⟨s, hs, hpc⟩ := Option.map_eq_some_iff.mp hrun
  have hclear : Along sharedStep SeesClear (Shared.new false) waitingCall := by decide +kernel
  exact ⟨s, hs, hpc,
    disciplined_of_runs false waitingCall hclear waitingCall (List.prefix_refl _) s hs⟩

/-- A thread is inside `check_membership_and`, so a call of another thread skips
the lock: both update the objects. -/
theorem disciplined_two_bodies :
    ∃ s, run sharedStep (Shared.new false : Shared Bool Unit)
        [.call true (.add_member 1), .next true, .next true, .next true, .next true, .next true,
         .check_membership_and true 1 (.add_object ()), .next true, .next true, .next true,
         .next true, .call false (.add_object ()), .next false] = some s
      ∧ s.threads true = .body true (.add_object ())
      ∧ s.threads false = .body false (.add_object ())
      ∧ ¬ Disciplined s := by
  have hrun : (run sharedStep (Shared.new false : Shared Bool Unit)
      [.call true (.add_member 1), .next true, .next true, .next true, .next true, .next true,
       .check_membership_and true 1 (.add_object ()), .next true, .next true, .next true,
       .next true, .call false (.add_object ()), .next false]).map
        (fun s => (s.threads true, s.threads false))
      = some (.body true (.add_object ()), .body false (.add_object ())) := by
    decide +kernel
  obtain ⟨s, hs, hpcs⟩ := Option.map_eq_some_iff.mp hrun
  injection hpcs with htrue hfalse
  refine ⟨s, hs, htrue, hfalse, fun h => ?_⟩
  have heq := h.exclusive true false (by rw [htrue]; rfl) (by rw [hfalse]; rfl)
  exact absurd heq nofun

end Quack.Object
