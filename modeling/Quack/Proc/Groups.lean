/-
  Quack.Proc.Groups
  **THE GLOBAL TABLE OF OBJECT GROUPS (`proc/groups.h`).**

  The table maps ids to pointers.  `remove_group` deletes the object behind the
  pointer, and leaves both the entry and the pointer in it: the null checks of
  the next call pass, and it uses a deleted object.

  `groupsStep` is one call by any thread; it records what it does to group
  objects in a log, and `LifeCycle` is read off the log: no object is deleted
  twice or used after its deletion, and no call reaches a group under an id
  that was removed.

    • `life_cycle_of_runs`        — no group is deleted twice or used afterwards as long as
      no call names an id whose group is deleted, and ids are not given out twice.
    • `life_cycle_second_removal`  — a second `remove_group` deletes again.
-/
import Quack.Object.Group

namespace Quack.Proc

open Lib Object

/-! ## §1. The table. -/

/-- What happens to group objects, by address, and to ids. -/
inductive Event where
  /-- The object is read or called. -/
  | used (ptr : Nat)
  | deleted (ptr : Nat)
  /-- `remove_group` of the id returned. -/
  | removed (id : Object.U64) (result : Bool)
  /-- A member operation on the id reached a group object. -/
  | reached (id : Object.U64)
  deriving Repr, DecidableEq

structure GlobalObjectGroups (ω : Type) where
  /-- `locked_group::grp`, by id. -/
  groups : HashMap (Option Nat)
  next_id : Object.U64
  /-- The objects by address.  What a deleted object held stays until the memory
  is used again. -/
  heap : Nat → ObjectGroup ω
  /-- The next address; the heap reuses none. -/
  fresh : Nat
  /-- Last event first. -/
  log : List Event
  /-- An assertion failed. -/
  panicked : Bool

namespace GlobalObjectGroups

variable {ω : Type}

def init : GlobalObjectGroups ω :=
  ⟨fun _ => none, 0, fun _ => ObjectGroup.new, 0, [], false⟩

def note (s : GlobalObjectGroups ω) (e : Event) : GlobalObjectGroups ω :=
  { s with log := e :: s.log }

/-- Read or call the object at `ptr`, which becomes `g`. -/
def use (s : GlobalObjectGroups ω) (ptr : Nat) (g : ObjectGroup ω) : GlobalObjectGroups ω :=
  { s with heap := Function.update s.heap ptr g }.note (.used ptr)

def new_group (s : GlobalObjectGroups ω) (t : Object.U64) : GlobalObjectGroups ω :=
  let id := s.next_id
  let ptr := s.fresh
  let s := { s with
    next_id := s.next_id + 1, fresh := s.fresh + 1,
    groups := Function.update s.groups id (some (some ptr)) }
  s.use ptr (ObjectGroup.new.add_member t)

def remove_group (s : GlobalObjectGroups ω) (t id : Object.U64) : Bool × GlobalObjectGroups ω :=
  match s.groups id with
  | none => (false, s)
  | some none => (false, s)
  | some (some ptr) =>
    let (member, g) := (s.heap ptr).check_membership t
    let s := s.use ptr g
    if member then (true, s.note (.deleted ptr)) else (false, s)

def check_membership_and (s : GlobalObjectGroups ω) (t id : Object.U64) (op : GroupOp ω) :
    GlobalObjectGroups ω :=
  match s.groups id with
  | none => { s with panicked := true }
  | some none => { s with panicked := true }
  | some (some ptr) =>
    let s := s.note (.reached id)
    match (s.heap ptr).check_membership_and t op with
    | none => { s.note (.used ptr) with panicked := true }
    | some (_, g) => s.use ptr g

end GlobalObjectGroups

inductive GroupsCall (ω : Type) where
  | new_group (t : Object.U64)
  | remove_group (t id : Object.U64)
  | check_membership_and (t id : Object.U64) (op : GroupOp ω)
  deriving Repr, DecidableEq

variable {ω : Type}

/-- The id a call is made on. -/
def GroupsCall.id? : GroupsCall ω → Option Object.U64
  | .new_group _ => none
  | .remove_group _ id => some id
  | .check_membership_and _ id _ => some id

/-- One call; after a failed assertion there are none. -/
def groupsStep (s : GlobalObjectGroups ω) (c : GroupsCall ω) : Option (GlobalObjectGroups ω) :=
  if s.panicked then none
  else
    match c with
    | .new_group t => some (s.new_group t)
    | .remove_group t id =>
      let (result, s) := s.remove_group t id
      some (s.note (.removed id result))
    | .check_membership_and t id op => some (s.check_membership_and t id op)

/-! ## §2. The life cycle. -/

/-- The object is used or deleted after its deletion. -/
def AfterDelete : (later earlier : Event) → Prop
  | .used ptr, .deleted ptr' => ptr = ptr'
  | .deleted ptr, .deleted ptr' => ptr = ptr'
  | _, _ => False

/-- The id is removed again, or reaches a group, after its removal. -/
def AfterRemoval : (later earlier : Event) → Prop
  | .removed id true, .removed id' true => id = id'
  | .reached id, .removed id' true => id = id'
  | _, _ => False

/-- Every group is deleted at most once, and not used after that. -/
def Sound (s : GlobalObjectGroups ω) : Prop :=
  s.log.Pairwise fun later earlier => ¬ AfterDelete later earlier

def LifeCycle (s : GlobalObjectGroups ω) : Prop :=
  Sound s ∧ s.log.Pairwise fun later earlier => ¬ AfterRemoval later earlier

/-- The call names no id whose group is deleted. -/
def Live (s : GlobalObjectGroups ω) (c : GroupsCall ω) : Prop :=
  ∀ id ptr, s.panicked = false → c.id? = some id → s.groups id = some (some ptr) →
    .deleted ptr ∉ s.log

/-- Nor does it give out an id again, after 2^64 groups. -/
def LiveFresh (s : GlobalObjectGroups ω) (c : GroupsCall ω) : Prop :=
  Live s c ∧ ∀ t, c = .new_group t → s.groups s.next_id = none

/-! ## §3. What a call does to the log. -/

/-- The events of a call on an id, last first. -/
inductive Logs (s : GlobalObjectGroups ω) : GroupsCall ω → List Event → Prop
  | remove_unknown {t id : Object.U64} (h : ∀ ptr, s.groups id ≠ some (some ptr)) :
      Logs s (.remove_group t id) [.removed id false]
  | remove_refused {t id : Object.U64} {ptr : Nat} (h : s.groups id = some (some ptr)) :
      Logs s (.remove_group t id) [.removed id false, .used ptr]
  | remove {t id : Object.U64} {ptr : Nat} (h : s.groups id = some (some ptr)) :
      Logs s (.remove_group t id) [.removed id true, .deleted ptr, .used ptr]
  | check_unknown {t id : Object.U64} {op : GroupOp ω} (h : ∀ ptr, s.groups id ≠ some (some ptr)) :
      Logs s (.check_membership_and t id op) []
  | check {t id : Object.U64} {op : GroupOp ω} {ptr : Nat} (h : s.groups id = some (some ptr)) :
      Logs s (.check_membership_and t id op) [.used ptr, .reached id]

/-- The table and the heap after a call: a new group has a new address under the
next id, and no other call changes the table. -/
structure Grown (s s' : GlobalObjectGroups ω) : Prop where
  groups : s'.groups = Function.update s.groups s.next_id (some (some s.fresh))
  fresh : s'.fresh = s.fresh + 1
  log : s'.log = .used s.fresh :: s.log

structure Logged (s s' : GlobalObjectGroups ω) (c : GroupsCall ω) : Prop where
  groups : s'.groups = s.groups
  fresh : s'.fresh = s.fresh
  log : ∃ events, Logs s c events ∧ s'.log = events ++ s.log

section Calls

variable {s s' : GlobalObjectGroups ω}

theorem remove_group_logged (t id : Object.U64) :
    Logged s ((s.remove_group t id).2.note (.removed id (s.remove_group t id).1))
      (.remove_group t id) := by
  unfold GlobalObjectGroups.remove_group
  cases hid : s.groups id with
  | none => exact ⟨rfl, rfl, _, .remove_unknown (by simp [hid]), rfl⟩
  | some grp =>
    cases grp with
    | none => exact ⟨rfl, rfl, _, .remove_unknown (by simp [hid]), rfl⟩
    | some ptr =>
      cases hmem : ((s.heap ptr).check_membership t).1 with
      | false =>
        simp only [hmem]
        exact ⟨rfl, rfl, _, .remove_refused hid, rfl⟩
      | true =>
        simp only [hmem]
        exact ⟨rfl, rfl, _, .remove hid, rfl⟩

theorem check_membership_and_logged (t id : Object.U64) (op : GroupOp ω) :
    Logged s (s.check_membership_and t id op) (.check_membership_and t id op) := by
  unfold GlobalObjectGroups.check_membership_and
  cases hid : s.groups id with
  | none => exact ⟨rfl, rfl, _, .check_unknown (by simp [hid]), rfl⟩
  | some grp =>
    cases grp with
    | none => exact ⟨rfl, rfl, _, .check_unknown (by simp [hid]), rfl⟩
    | some ptr =>
      -- the object is used also when an assertion in the method fails
      show Logged s (match (s.heap ptr).check_membership_and t op with
        | none => _
        | some (_, g) => _) _
      cases (s.heap ptr).check_membership_and t op with
      | none => exact ⟨rfl, rfl, _, .check hid, rfl⟩
      | some out => exact ⟨rfl, rfl, _, .check hid, rfl⟩

theorem groupsStep_cases {c : GroupsCall ω} (h : groupsStep s c = some s') :
    s.panicked = false ∧ ((∃ t, c = .new_group t ∧ Grown s s') ∨ Logged s s' c) := by
  unfold groupsStep at h
  split at h
  · exact absurd h nofun
  · rename_i hrun
    refine ⟨Bool.eq_false_iff.mpr hrun, ?_⟩
    cases c with
    | new_group t =>
      injection h with h
      subst h
      exact .inl ⟨t, rfl, rfl, rfl, rfl⟩
    | remove_group t id =>
      injection h with h
      subst h
      exact .inr (remove_group_logged t id)
    | check_membership_and t id op =>
      injection h with h
      subst h
      exact .inr (check_membership_and_logged t id op)

end Calls

/-! ## §4. Runs. -/

/-- What holds while calls are `Live`. -/
structure SoundInv (s : GlobalObjectGroups ω) : Prop where
  sound : Sound s
  /-- The next address is not one of a deleted object. -/
  fresh : ∀ ptr, .deleted ptr ∈ s.log → ptr < s.fresh
  /-- Entries point to objects. -/
  entries : ∀ id ptr, s.groups id = some (some ptr) → ptr < s.fresh

/-- What also holds while ids are given out once: a removed id still points to
its deleted group. -/
structure IdsInv (s : GlobalObjectGroups ω) : Prop extends SoundInv s where
  ids : s.log.Pairwise fun later earlier => ¬ AfterRemoval later earlier
  removed : ∀ id, .removed id true ∈ s.log →
    ∃ ptr, s.groups id = some (some ptr) ∧ .deleted ptr ∈ s.log

section Runs

variable {s s' : GlobalObjectGroups ω} {c : GroupsCall ω} {log : List Event} {ptr : Nat}
  {id : Object.U64}

theorem not_afterDelete (h : .deleted ptr ∉ log) :
    (∀ e ∈ log, ¬ AfterDelete (.used ptr) e) ∧ ∀ e ∈ log, ¬ AfterDelete (.deleted ptr) e := by
  refine ⟨?_, ?_⟩ <;>
  · intro e he hafter
    cases e with
    | deleted ptr' =>
      cases hafter
      exact h he
    | used => exact hafter
    | removed => exact hafter
    | reached => exact hafter

theorem not_afterRemoval (h : .removed id true ∉ log) :
    (∀ e ∈ log, ¬ AfterRemoval (.removed id true) e) ∧
      ∀ e ∈ log, ¬ AfterRemoval (.reached id) e := by
  refine ⟨?_, ?_⟩ <;>
  · intro e he hafter
    cases e with
    | removed id' result =>
      cases result with
      | true =>
        cases hafter
        exact h he
      | false => exact hafter
    | used => exact hafter
    | deleted => exact hafter
    | reached => exact hafter

variable {events : List Event}

theorem Logs.sound (h : Logs s c events) (hs : Sound s)
    (hrun : s.panicked = false) (hlive : Live s c) :
    (events ++ s.log).Pairwise fun later earlier => ¬ AfterDelete later earlier := by
  cases h with
  | remove_unknown _ =>
    exact List.pairwise_cons.mpr ⟨fun e _ h => h, hs⟩
  | remove_refused hid =>
    have hfree := hlive _ _ hrun rfl hid
    refine List.pairwise_cons.mpr ⟨fun e _ h => h, ?_⟩
    exact List.pairwise_cons.mpr ⟨(not_afterDelete hfree).1, hs⟩
  | remove hid =>
    have hfree := hlive _ _ hrun rfl hid
    refine List.pairwise_cons.mpr ⟨fun e _ h => h, ?_⟩
    refine List.pairwise_cons.mpr ⟨(not_afterDelete (by simpa using hfree)).2, ?_⟩
    exact List.pairwise_cons.mpr ⟨(not_afterDelete hfree).1, hs⟩
  | check_unknown _ => exact hs
  | check hid =>
    have hfree := hlive _ _ hrun rfl hid
    refine List.pairwise_cons.mpr ⟨(not_afterDelete (by simpa using hfree)).1, ?_⟩
    exact List.pairwise_cons.mpr ⟨fun e _ h => h, hs⟩

theorem Logs.deleted (h : Logs s c events) (hmem : .deleted ptr ∈ events) :
    ∃ id, s.groups id = some (some ptr) := by
  cases h with
  | remove hid =>
    simp only [List.mem_cons, Event.deleted.injEq, reduceCtorEq, List.not_mem_nil, or_false,
      false_or] at hmem
    subst hmem
    exact ⟨_, hid⟩
  | _ => simp at hmem

theorem SoundInv.step (hs : SoundInv s) (hlive : Live s c) (h : groupsStep s c = some s') :
    SoundInv s' := by
  obtain ⟨hrun, ⟨t, rfl, hnew⟩ | hold⟩ := groupsStep_cases h
  · constructor
    · show s'.log.Pairwise _
      rw [hnew.log]
      refine List.pairwise_cons.mpr ⟨(not_afterDelete fun hdel => ?_).1, hs.sound⟩
      exact absurd (hs.fresh _ hdel) (Nat.lt_irrefl _)
    · intro ptr hdel
      rw [hnew.log] at hdel
      rw [hnew.fresh]
      exact Nat.lt_succ_of_lt (hs.fresh ptr (by simpa using hdel))
    · intro id ptr hid
      rw [hnew.groups] at hid
      rw [hnew.fresh]
      by_cases hnext : id = s.next_id
      · subst hnext
        rw [Function.update_self] at hid
        cases hid
        exact Nat.lt_succ_self _
      · rw [Function.update_of_ne hnext] at hid
        exact Nat.lt_succ_of_lt (hs.entries id ptr hid)
  · obtain ⟨events, hlogs, hlog⟩ := hold.log
    constructor
    · show s'.log.Pairwise _
      rw [hlog]
      exact hlogs.sound hs.sound hrun hlive
    · intro ptr hdel
      rw [hold.fresh]
      rw [hlog, List.mem_append] at hdel
      rcases hdel with hdel | hdel
      · obtain ⟨id, hid⟩ := hlogs.deleted hdel
        exact hs.entries id ptr hid
      · exact hs.fresh ptr hdel
    · intro id ptr hid
      rw [hold.groups] at hid
      rw [hold.fresh]
      exact hs.entries id ptr hid

theorem unsound_of_not_live (hlive : ¬ Live s c) :
    ∃ s', groupsStep s c = some s' ∧ ¬ Sound s' := by
  unfold Live at hlive
  push Not at hlive
  obtain ⟨id, ptr, hrun, hid, hptr, hdel⟩ := hlive
  have hstep : ∃ s', groupsStep s c = some s' := by
    unfold groupsStep
    rw [hrun]
    cases c <;> exact ⟨_, rfl⟩
  obtain ⟨s', hs'⟩ := hstep
  refine ⟨s', hs', fun hsound => ?_⟩
  obtain ⟨-, ⟨t, rfl, -⟩ | hold⟩ := groupsStep_cases hs'
  · exact absurd hid nofun
  · obtain ⟨events, hlogs, hlog⟩ := hold.log
    have hused : .used ptr ∈ events := by
      cases hlogs with
      | remove_unknown h =>
        cases hid
        exact absurd hptr (h ptr)
      | check_unknown h =>
        cases hid
        exact absurd hptr (h ptr)
      | remove_refused h | remove h | check h =>
        cases hid
        rw [hptr] at h
        cases h
        simp
    rw [Sound, hlog] at hsound
    exact (List.pairwise_append.mp hsound).2.2 _ hused _ hdel rfl

theorem IdsInv.not_removed (hs : IdsInv s) (hid : s.groups id = some (some ptr))
    (hfree : .deleted ptr ∉ s.log) : .removed id true ∉ s.log := by
  intro hrem
  obtain ⟨ptr', hid', hdel⟩ := hs.removed id hrem
  rw [hid] at hid'
  cases hid'
  exact hfree hdel

theorem Logs.ids (h : Logs s c events) (hs : IdsInv s)
    (hrun : s.panicked = false) (hlive : Live s c) :
    (events ++ s.log).Pairwise fun later earlier => ¬ AfterRemoval later earlier := by
  cases h with
  | remove_unknown _ =>
    exact List.pairwise_cons.mpr ⟨fun e _ h => h, hs.ids⟩
  | remove_refused hid =>
    refine List.pairwise_cons.mpr ⟨fun e _ h => h, ?_⟩
    exact List.pairwise_cons.mpr ⟨fun e _ h => h, hs.ids⟩
  | remove hid =>
    have hnew := hs.not_removed hid (hlive _ _ hrun rfl hid)
    refine List.pairwise_cons.mpr ⟨(not_afterRemoval (by simpa using hnew)).1, ?_⟩
    refine List.pairwise_cons.mpr ⟨fun e _ h => h, ?_⟩
    exact List.pairwise_cons.mpr ⟨fun e _ h => h, hs.ids⟩
  | check_unknown _ => exact hs.ids
  | check hid =>
    have hnew := hs.not_removed hid (hlive _ _ hrun rfl hid)
    refine List.pairwise_cons.mpr ⟨fun e _ h => h, ?_⟩
    exact List.pairwise_cons.mpr ⟨(not_afterRemoval hnew).2, hs.ids⟩

theorem Logs.removed (h : Logs s c events)
    (hmem : .removed id true ∈ events) :
    ∃ ptr, s.groups id = some (some ptr) ∧ .deleted ptr ∈ events := by
  cases h with
  | remove hid =>
    simp only [List.mem_cons, Event.removed.injEq, and_true, reduceCtorEq, List.not_mem_nil,
      or_false] at hmem
    subst hmem
    exact ⟨_, hid, by simp⟩
  | _ => simp at hmem

theorem IdsInv.step (hs : IdsInv s) (hlive : LiveFresh s c) (h : groupsStep s c = some s') :
    IdsInv s' := by
  refine ⟨hs.toSoundInv.step hlive.1 h, ?_, ?_⟩
  · obtain ⟨hrun, ⟨t, rfl, hnew⟩ | hold⟩ := groupsStep_cases h
    · rw [hnew.log]
      exact List.pairwise_cons.mpr ⟨fun e _ h => h, hs.ids⟩
    · obtain ⟨events, hlogs, hlog⟩ := hold.log
      rw [hlog]
      exact hlogs.ids hs hrun hlive.1
  · intro id hrem
    obtain ⟨hrun, ⟨t, rfl, hnew⟩ | hold⟩ := groupsStep_cases h
    · rw [hnew.log] at hrem ⊢
      obtain ⟨ptr, hid, hdel⟩ := hs.removed id (by simpa using hrem)
      refine ⟨ptr, ?_, List.mem_cons_of_mem _ hdel⟩
      -- the new group takes an id that had no entry
      rw [hnew.groups, Function.update_of_ne, hid]
      rintro rfl
      rw [hlive.2 t rfl] at hid
      exact absurd hid nofun
    · obtain ⟨events, hlogs, hlog⟩ := hold.log
      rw [hlog, List.mem_append] at hrem
      rw [hlog, hold.groups]
      rcases hrem with hrem | hrem
      · obtain ⟨ptr, hid, hdel⟩ := hlogs.removed hrem
        exact ⟨ptr, hid, List.mem_append_left _ hdel⟩
      · obtain ⟨ptr, hid, hdel⟩ := hs.removed id hrem
        exact ⟨ptr, hid, List.mem_append_right _ hdel⟩

theorem IdsInv.init : IdsInv (GlobalObjectGroups.init : GlobalObjectGroups ω) where
  sound := .nil
  fresh _ h := absurd h List.not_mem_nil
  entries _ _ h := absurd h nofun
  ids := .nil
  removed _ h := absurd h List.not_mem_nil

end Runs

/-- **The life cycle of groups.**  Objects are used and deleted soundly exactly in
the runs whose calls name no id of a deleted group; in these, as long as ids are
given out once, no id is removed twice and none reaches a group after its
removal. -/
theorem life_cycle_of_runs (calls : List (GroupsCall ω)) :
    (Always groupsStep Sound GlobalObjectGroups.init calls
        ↔ Along groupsStep Live GlobalObjectGroups.init calls) ∧
      (Along groupsStep LiveFresh GlobalObjectGroups.init calls →
        Always groupsStep LifeCycle GlobalObjectGroups.init calls) := by
  constructor
  · exact always_iff_along groupsStep SoundInv (fun s h => h.sound)
      (fun s c s' h hlive hstep => h.step hlive hstep)
      (fun s c _ hlive => unsound_of_not_live hlive) calls _ IdsInv.init.toSoundInv
  · exact Along.always groupsStep IdsInv (fun s h => ⟨h.sound, h.ids⟩)
      (fun s c s' h hlive hstep => h.step hlive hstep) calls _ IdsInv.init

/-- A second removal of a group by its member deletes it again. -/
theorem life_cycle_second_removal :
    ∃ s, run groupsStep (GlobalObjectGroups.init : GlobalObjectGroups Unit)
        [.new_group 1, .remove_group 1 0, .remove_group 1 0] = some s
      ∧ s.log = [.removed 0 true, .deleted 0, .used 0, .removed 0 true, .deleted 0, .used 0, .used 0]
      ∧ ¬ LifeCycle s := by
  have hlog : (run groupsStep (GlobalObjectGroups.init : GlobalObjectGroups Unit)
      [.new_group 1, .remove_group 1 0, .remove_group 1 0]).map (·.log)
        = some [.removed 0 true, .deleted 0, .used 0, .removed 0 true, .deleted 0, .used 0,
            .used 0] := by
    decide +kernel
  obtain ⟨s, hs, hlog⟩ := Option.map_eq_some_iff.mp hlog
  refine ⟨s, hs, hlog, fun hlife => ?_⟩
  have hsound := hlife.1
  rw [Sound, hlog] at hsound
  simp [AfterDelete] at hsound

end Quack.Proc
