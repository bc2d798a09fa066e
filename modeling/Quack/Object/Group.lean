/-
  Quack.Object.Group
  **OBJECT GROUPS (`object/group.cpp`, `object/object.h`) AND A REFERENCE MONITOR.**

  A group has members, and objects under handles.  Both are hash maps, and both
  are read with `operator[]`, which inserts a default value for a missing key:
  a read leaves a key behind.

  What a group is for is said by `Monitor`: a set of members, a finite map from
  handles to objects, and the handles given out so far.  The two are run side by
  side (`bothStep`), and a call is `Allowed` if its outcome is the monitor's.

    • `group_refines_monitor`  — all outcomes of a run are the monitor's exactly
      if no handle is removed that is absent but was read before, and no more
      than 2^64 objects are added.
    • `group_stale_handle`     — a handle that was read and never added can be
      removed.
-/
import Mathlib.Algebra.Group.Nat.Defs
import Quack.Lib.Runs

namespace Quack.Object

open Lib

/-! ## §1. The group. -/

abbrev U64 := BitVec 64

/-- A hash map, by key. -/
abbrev HashMap (α : Type) := U64 → Option α

def HashMap.index {α : Type} (map : HashMap α) (key : U64) (default : α) : α × HashMap α :=
  match map key with
  | some x => (x, map)
  | none => (default, Function.update map key (some default))

/-- `object_group`, with objects of type `ω`; a null pointer is `none`. -/
structure ObjectGroup (ω : Type) where
  objects : HashMap (Option ω)
  members : HashMap Bool
  next_id : U64

namespace ObjectGroup

variable {ω : Type}

/-- The constructor. -/
def new : ObjectGroup ω := ⟨fun _ => none, fun _ => none, 0⟩

def add_object (g : ObjectGroup ω) (obj : ω) : U64 × ObjectGroup ω :=
  (g.next_id, { g with
    next_id := g.next_id + 1, objects := Function.update g.objects g.next_id (some (some obj)) })

/-- The assertion is on the entry, not on the pointer in it. -/
def remove_object (g : ObjectGroup ω) (handle : U64) : Option (ObjectGroup ω) :=
  match g.objects handle with
  | none => none
  | some _ => some { g with objects := Function.update g.objects handle none }

def get_object (g : ObjectGroup ω) (handle : U64) : Option ω × ObjectGroup ω :=
  let (obj, objects) := HashMap.index g.objects handle none
  (obj, { g with objects := objects })

def check_membership (g : ObjectGroup ω) (id : U64) : Bool × ObjectGroup ω :=
  let (member, members) := HashMap.index g.members id false
  (member, { g with members := members })

def add_member (g : ObjectGroup ω) (id : U64) : ObjectGroup ω :=
  { g with members := Function.update g.members id (some true) }

def remove_member (g : ObjectGroup ω) (id : U64) : ObjectGroup ω :=
  { g with members := Function.update g.members id (some false) }

end ObjectGroup

/-- A method that `check_membership_and` may run. -/
inductive GroupOp (ω : Type) where
  | add_object (obj : ω)
  | remove_object (handle : U64)
  | get_object (handle : U64)
  | add_member (id : U64)
  | remove_member (id : U64)
  deriving Repr, DecidableEq

/-- What a method returns. -/
inductive OpResult (ω : Type) where
  | handle (h : U64)
  | object (obj : Option ω)
  | done
  deriving Repr, DecidableEq

namespace ObjectGroup

variable {ω : Type}

/-- Run a method; `none` is a failed assertion. -/
def apply (g : ObjectGroup ω) : GroupOp ω → Option (OpResult ω × ObjectGroup ω)
  | .add_object obj =>
    let (h, g) := g.add_object obj
    some (.handle h, g)
  | .remove_object handle => (g.remove_object handle).map fun g => (.done, g)
  | .get_object handle =>
    let (obj, g) := g.get_object handle
    some (.object obj, g)
  | .add_member id => some (.done, g.add_member id)
  | .remove_member id => some (.done, g.remove_member id)

/-- `check_membership_and`: the empty answer if `t` is no member. -/
def check_membership_and (g : ObjectGroup ω) (t : U64) (op : GroupOp ω) :
    Option (Option (OpResult ω) × ObjectGroup ω) :=
  let (member, g) := g.check_membership t
  if member then (g.apply op).map fun (result, g) => (some result, g)
  else some (none, g)

end ObjectGroup

/-- A call on a group. -/
inductive Call (ω : Type) where
  | check_membership_and (t : U64) (op : GroupOp ω)
  | add_member (id : U64)
  | check_membership (id : U64)
  deriving Repr, DecidableEq

inductive Outcome (ω : Type) where
  | refused
  | ran (result : OpResult ω)
  | done
  | member (b : Bool)
  deriving Repr, DecidableEq

/-- One call; `none` is a failed assertion. -/
def ObjectGroup.call {ω : Type} (g : ObjectGroup ω) : Call ω →
    Option (Outcome ω × ObjectGroup ω)
  | .check_membership_and t op => (g.check_membership_and t op).map fun (result, g) =>
    (match result with
      | none => .refused
      | some result => .ran result, g)
  | .add_member id => some (.done, g.add_member id)
  | .check_membership id =>
    let (b, g) := g.check_membership id
    some (.member b, g)

/-! ## §2. The monitor. -/

/-- What a group is for. -/
structure Monitor (ω : Type) where
  members : U64 → Bool
  objects : U64 → Option ω
  /-- The handles given out, last first. -/
  returned : List U64

namespace Monitor

variable {ω : Type}

def init : Monitor ω := ⟨fun _ => false, fun _ => none, []⟩

/-- The outcomes of a method; `none` is a failed assertion. -/
def AllowsOp (a : Monitor ω) : GroupOp ω → Option (OpResult ω) → Prop
  | .add_object _, out => ∃ h, h ∉ a.returned ∧ out = some (.handle h)
  | .remove_object h, out => out = if (a.objects h).isSome then some .done else none
  | .get_object h, out => out = some (.object (a.objects h))
  | .add_member _, out => out = some .done
  | .remove_member _, out => out = some .done

/-- The outcomes of a call. -/
def Allows (a : Monitor ω) : Call ω → Option (Outcome ω) → Prop
  | .check_membership_and t op, out =>
    if a.members t then ∃ res, a.AllowsOp op res ∧ out = res.map .ran else out = some .refused
  | .add_member _, out => out = some .done
  | .check_membership id, out => out = some (.member (a.members id))

/-- The state after a method. -/
def afterOp (a : Monitor ω) : GroupOp ω → OpResult ω → Monitor ω
  | .add_object obj, .handle h =>
    { a with objects := Function.update a.objects h (some obj), returned := h :: a.returned }
  | .remove_object h, _ => { a with objects := Function.update a.objects h none }
  | .add_member id, _ => { a with members := Function.update a.members id true }
  | .remove_member id, _ => { a with members := Function.update a.members id false }
  | _, _ => a

/-- The state after a call. -/
def after (a : Monitor ω) : Call ω → Outcome ω → Monitor ω
  | .check_membership_and _ op, .ran result => a.afterOp op result
  | .add_member id, _ => { a with members := Function.update a.members id true }
  | _, _ => a

end Monitor

/-! ## §3. Side by side. -/

structure Both (ω : Type) where
  group : ObjectGroup ω
  monitor : Monitor ω

variable {ω : Type}

def Both.init : Both ω := ⟨ObjectGroup.new, Monitor.init⟩

/-- One call of the group; the monitor follows its outcome. -/
def bothStep (s : Both ω) (c : Call ω) : Option (Both ω) :=
  (s.group.call c).map fun (out, g) => ⟨g, s.monitor.after c out⟩

/-- The outcome of the call is the monitor's. -/
def Allowed (s : Both ω) (c : Call ω) : Prop :=
  s.monitor.Allows c ((s.group.call c).map Prod.fst)

/-- The monitor describes the group. -/
structure Simulates (s : Both ω) : Prop where
  members : ∀ t, (s.group.members t).getD false = s.monitor.members t
  objects : ∀ h, (s.group.objects h).getD none = s.monitor.objects h
  next_id : s.group.next_id = BitVec.ofNat 64 s.monitor.returned.length
  returned : ∀ h, h ∈ s.monitor.returned ↔ h.toNat < s.monitor.returned.length

def Careful (s : Both ω) : Call ω → Prop
  | .check_membership_and t (.remove_object h) =>
    s.monitor.members t = true → s.monitor.objects h = none → s.group.objects h = none
  | .check_membership_and t (.add_object _) =>
    s.monitor.members t = true → s.monitor.returned.length < 2 ^ 64
  | _ => True

section Index

variable {α : Type} {map : HashMap α} {key : U64} {d : α}

@[simp] theorem index_fst : (HashMap.index map key d).1 = (map key).getD d := by
  unfold HashMap.index
  cases map key <;> rfl

@[simp] theorem index_snd_getD (k : U64) :
    ((HashMap.index map key d).2 k).getD d = (map k).getD d := by
  unfold HashMap.index
  cases hkey : map key with
  | some x => rfl
  | none =>
    show (Function.update map key (some d) k).getD d = _
    by_cases hk : k = key
    · subst hk
      rw [Function.update_self, hkey]
      rfl
    · rw [Function.update_of_ne hk]

end Index

theorem update_getD {α : Type} (map : HashMap α) (key k : U64) (x d : α) :
    (Function.update map key (some x) k).getD d
      = Function.update (fun k => (map k).getD d) key x k := by
  by_cases hk : k = key
  · subst hk
    rw [Function.update_self, Function.update_self]
    rfl
  · rw [Function.update_of_ne hk, Function.update_of_ne hk]

/-- The group after its member table was read. -/
def ObjectGroup.noted (g : ObjectGroup ω) (t : U64) : ObjectGroup ω := (g.check_membership t).2

theorem call_check_membership_and (g : ObjectGroup ω) (t : U64) (op : GroupOp ω) :
    g.call (.check_membership_and t op)
      = if (g.members t).getD false then ((g.noted t).apply op).map fun (r, g) => (.ran r, g)
        else some (.refused, g.noted t) := by
  simp only [ObjectGroup.call, ObjectGroup.check_membership_and, ObjectGroup.check_membership,
    ObjectGroup.noted, index_fst]
  split
  · rw [Option.map_map]
    rfl
  · rfl

section Simulation

variable {s s' : Both ω}

section

variable (h : Simulates s)

include h

theorem Simulates.noted (t : U64) :
    Simulates ⟨s.group.noted t, s.monitor⟩ where
  members t' := by
    rw [← h.members t']
    exact index_snd_getD t'
  objects := h.objects
  next_id := h.next_id
  returned := h.returned

theorem Simulates.get_object (handle : U64) :
    Simulates ⟨(s.group.get_object handle).2, s.monitor⟩ where
  members := h.members
  objects h' := by
    rw [← h.objects h']
    exact index_snd_getD h'
  next_id := h.next_id
  returned := h.returned

theorem Simulates.set_member (id : U64) (b : Bool) :
    Simulates ⟨{ s.group with members := Function.update s.group.members id (some b) },
      { s.monitor with members := Function.update s.monitor.members id b }⟩ where
  members t := by
    show (Function.update s.group.members id (some b) t).getD false = _
    rw [update_getD, funext h.members]
  objects := h.objects
  next_id := h.next_id
  returned := h.returned

theorem Simulates.remove_object (handle : U64) :
    Simulates ⟨{ s.group with objects := Function.update s.group.objects handle none },
      { s.monitor with objects := Function.update s.monitor.objects handle none }⟩ where
  members := h.members
  objects h' := by
    show (Function.update s.group.objects handle none h').getD none
      = Function.update s.monitor.objects handle none h'
    by_cases hk : h' = handle
    · subst hk
      rw [Function.update_self, Function.update_self]
      rfl
    · rw [Function.update_of_ne hk, Function.update_of_ne hk]
      exact h.objects h'
  next_id := h.next_id
  returned := h.returned

theorem Simulates.add_object (obj : ω)
    (hlen : s.monitor.returned.length < 2 ^ 64) :
    Simulates ⟨(s.group.add_object obj).2,
      s.monitor.afterOp (.add_object obj) (.handle s.group.next_id)⟩ where
  members := h.members
  objects h' := by
    show (Function.update s.group.objects s.group.next_id (some (some obj)) h').getD none
      = Function.update s.monitor.objects s.group.next_id (some obj) h'
    rw [update_getD, funext h.objects]
  next_id := by
    show s.group.next_id + 1 = BitVec.ofNat 64 (s.monitor.returned.length + 1)
    rw [h.next_id, BitVec.ofNat_add]
    rfl
  returned h' := by
    show h' ∈ s.group.next_id :: s.monitor.returned ↔ h'.toNat < s.monitor.returned.length + 1
    have hnext : s.group.next_id.toNat = s.monitor.returned.length := by
      rw [h.next_id, BitVec.toNat_ofNat, Nat.mod_eq_of_lt hlen]
    rw [List.mem_cons, h.returned, ← BitVec.toNat_inj, hnext]
    omega

theorem Simulates.next_id_fresh :
    s.group.next_id ∉ s.monitor.returned ↔ s.monitor.returned.length < 2 ^ 64 := by
  rw [h.returned, h.next_id, BitVec.toNat_ofNat]
  omega

theorem Simulates.allowsOp_iff {t : U64} (ht : s.monitor.members t = true)
    (op : GroupOp ω) :
    s.monitor.AllowsOp op ((s.group.apply op).map Prod.fst)
      ↔ Careful s (.check_membership_and t op) := by
  cases op with
  | add_object obj =>
    refine Iff.trans ?_ (forall_prop_of_true ht).symm
    rw [← h.next_id_fresh]
    constructor
    · rintro ⟨h', hfresh, hout⟩
      injection hout with hout
      injection hout with hout
      subst hout
      exact hfresh
    · intro hfresh
      exact ⟨_, hfresh, rfl⟩
  | remove_object handle =>
    refine Iff.trans ?_ (forall_prop_of_true ht).symm
    have hobj := h.objects handle
    show Option.map Prod.fst ((s.group.remove_object handle).map _) = _ ↔ _
    unfold ObjectGroup.remove_object
    cases hentry : s.group.objects handle with
    | none =>
      rw [hentry] at hobj
      rw [← hobj]
      simp
    | some o =>
      rw [hentry] at hobj
      rw [← hobj]
      cases o <;> simp
  | get_object handle =>
    refine iff_of_true ?_ trivial
    show some (OpResult.object (HashMap.index s.group.objects handle none).1) = _
    rw [index_fst, h.objects]
  | add_member id => exact iff_of_true rfl trivial
  | remove_member id => exact iff_of_true rfl trivial

theorem Simulates.allowed_iff (c : Call ω) : Allowed s c ↔ Careful s c := by
  cases c with
  | add_member id => exact iff_of_true rfl trivial
  | check_membership id =>
    refine iff_of_true ?_ trivial
    show some (Outcome.member (HashMap.index s.group.members id false).1) = _
    rw [index_fst, h.members]
  | check_membership_and t op =>
    unfold Allowed
    rw [call_check_membership_and, h.members]
    cases ht : s.monitor.members t with
    | false =>
      refine iff_of_true ?_ ?_
      · simp [Monitor.Allows, ht]
      · cases op <;> simp [Careful, ht]
    | true =>
      have hcareful : Careful ⟨s.group.noted t, s.monitor⟩ (.check_membership_and t op)
          ↔ Careful s (.check_membership_and t op) := by
        cases op <;> exact Iff.rfl
      rw [← hcareful, ← (h.noted t).allowsOp_iff ht op, if_pos rfl, Option.map_map]
      show (if s.monitor.members t then _ else _) ↔ _
      rw [if_pos ht]
      constructor
      · rintro ⟨res, hres, hout⟩
        have hinj : Function.Injective (Outcome.ran : OpResult ω → Outcome ω) :=
          fun a b hab => by injection hab
        have hfst : ((s.group.noted t).apply op).map Prod.fst = res := by
          apply Option.map_injective hinj
          rw [Option.map_map]
          exact hout
        rw [hfst]
        exact hres
      · intro hres
        refine ⟨_, hres, ?_⟩
        rw [Option.map_map]
        rfl

theorem Simulates.applyOp {op : GroupOp ω} {r : OpResult ω} {g : ObjectGroup ω}
    (hlen : ∀ obj, op = .add_object obj → s.monitor.returned.length < 2 ^ 64)
    (hrun : s.group.apply op = some (r, g)) : Simulates ⟨g, s.monitor.afterOp op r⟩ := by
  cases op with
  | add_object obj =>
    injection hrun with hrun
    injection hrun with hr hg
    subst hr
    subst hg
    exact h.add_object obj (hlen obj rfl)
  | remove_object handle =>
    obtain ⟨g', hg', hrun⟩ := Option.map_eq_some_iff.mp hrun
    injection hrun with hr hg
    subst hg
    unfold ObjectGroup.remove_object at hg'
    split at hg'
    · cases hg'
    · injection hg' with hg'
      subst hg'
      exact h.remove_object handle
  | get_object handle =>
    injection hrun with hrun
    injection hrun with hr hg
    subst hg
    exact h.get_object handle
  | add_member id =>
    injection hrun with hrun
    injection hrun with hr hg
    subst hg
    exact h.set_member id true
  | remove_member id =>
    injection hrun with hrun
    injection hrun with hr hg
    subst hg
    exact h.set_member id false

theorem Simulates.step {c : Call ω} (hc : Careful s c)
    (hstep : bothStep s c = some s') : Simulates s' := by
  obtain ⟨⟨out, g⟩, hrun, rfl⟩ := Option.map_eq_some_iff.mp hstep
  cases c with
  | add_member id =>
    injection hrun with hrun
    injection hrun with hout hg
    subst hg
    exact h.set_member id true
  | check_membership id =>
    injection hrun with hrun
    injection hrun with hout hg
    subst hg
    exact h.noted id
  | check_membership_and t op =>
    rw [call_check_membership_and, h.members] at hrun
    cases ht : s.monitor.members t with
    | false =>
      rw [ht, if_neg Bool.false_ne_true] at hrun
      injection hrun with hrun
      injection hrun with hout hg
      subst hout
      subst hg
      exact h.noted t
    | true =>
      rw [ht, if_pos rfl] at hrun
      obtain ⟨⟨r, g'⟩, happly, hrun⟩ := Option.map_eq_some_iff.mp hrun
      injection hrun with hout hg
      subst hout
      subst hg
      refine (h.noted t).applyOp ?_ happly
      rintro obj rfl
      exact hc ht

end

theorem Simulates.init : Simulates (Both.init : Both ω) where
  members _ := rfl
  objects _ := rfl
  next_id := rfl
  returned h := by simp [Both.init, Monitor.init]

end Simulation

/-! ## §4. Runs. -/

/-- **A group refines the monitor** exactly in the runs of careful calls: every
result and every failed assertion is the monitor's if and only if no member
removes a handle that is absent but was read, or adds an object after 2^64
others. -/
theorem group_refines_monitor (calls : List (Call ω)) :
    Along bothStep Allowed (Both.init : Both ω) calls
      ↔ Along bothStep Careful (Both.init : Both ω) calls :=
  along_congr bothStep Simulates (fun _ c h => h.allowed_iff c)
    (fun _ c _ h hok hstep => h.step ((h.allowed_iff c).mp hok) hstep) calls _ Simulates.init

/-- Handle 0 was never given out: reading it leaves a key, and removing it
succeeds. -/
theorem group_stale_handle :
    ¬ Along bothStep Allowed (Both.init : Both Unit)
      [.add_member 1, .check_membership_and 1 (.get_object 0),
        .check_membership_and 1 (.remove_object 0)] := by
  rintro ⟨-, hrest⟩
  obtain ⟨-, hrest⟩ := hrest _ rfl
  obtain ⟨hallowed, -⟩ := hrest _ rfl
  -- the monitor asks for a failed assertion, the group has none
  obtain ⟨res, hres, hout⟩ := hallowed
  cases hres
  cases hout

end Quack.Object
