/-
  Quack.Arch.PageRows
  **LOOPS THAT GIVE UP AT A MISSING TABLE (`vmm_unmap_pages`, `vmm_update_perms`).**

  Both loops go over a row of pages, rewrite the last entry of each, and end at
  the first page whose walk finds no table.  So they do their work on a prefix of
  the row and nothing on the rest of it.

    • `unmap_pages_complete`  — when unmapping leaves nothing of the range.
    • `update_perms_keeps`    — when changing permissions keeps the mapping.
-/
import Quack.Arch.Translation

namespace Quack.Arch

open Lib

variable {κ : Type}

/-! ## §1. The upper half. -/

section Upper

variable {k r r' w : Nat} {m m' : Machine} {G G' : Ledger κ}

theorem Accounted.upper_slot {f i : Nat} {p : List Nat} (hA : Accounted k m G)
    (hf : G f = some (.upper p)) (hp : p.length < 3) (hi : i < 512) :
    m.slot f i = 0 ∨ (∃ c, m.slot f i = tableEnt c ∧ c < 2 ^ 51 ∧ G c = some (.upper (p ++ [i])))
    ∨ (p.length = 2 ∧ m.slot f i &&& VMM_FLAG_LARGE ≠ 0) := by
  have hchild : (Use.upper p : Use κ).child i = some (.upper (p ++ [i])) := if_pos hp
  rcases hA.slots f _ i hf hi _ hchild with h0 | ⟨c, hent, hc⟩ | ⟨⟨q, hq, hlen⟩, -, hlarge⟩
  · exact Or.inl h0
  · have hwin := (hA.managed c _ hc).window
    exact Or.inr (Or.inl ⟨c, hent, by omega, hc⟩)
  · injection hq with hq
    exact Or.inr (Or.inr ⟨hq ▸ hlen, hlarge⟩)

theorem Accounted.root_upper_slot {i : Nat} (hA : Accounted k m G)
    (hr : G r = some (.table r [])) (hlo : 256 ≤ i) (hi : i < 512) :
    m.slot r i = 0 ∨ ∃ c, m.slot r i = tableEnt c ∧ c < 2 ^ 51 ∧ G c = some (.upper [i]) := by
  have hchild : (Use.table r [] : Use κ).child i = some (.upper [i]) := if_pos ⟨rfl, hlo⟩
  rcases hA.slots r _ i hr hi _ hchild with h0 | ⟨c, hent, hc⟩ | ⟨⟨q, hq, -⟩, -⟩
  · exact Or.inl h0
  · have hwin := (hA.managed c _ hc).window
    exact Or.inr ⟨c, hent, by omega, hc⟩
  · cases hq

theorem Touches.translate_upper (ht : Touches r m G m' G') (hA : Accounted k m G)
    (hr' : G r' = some (.table r' [])) (hw : 256 ≤ w / 2 ^ 27 % 512) :
    m'.translate r' w = m.translate r' w := by
  have hupper : ∀ f p j, G f = some (.upper p) → j < 512 → m'.slot f j = m.slot f j := by
    intro f p j hf hj
    exact ht.slots f _ j hf (fun q hq => by cases hq) hj
  have hroot : m'.slot r' (w / 2 ^ 27 % 512) = m.slot r' (w / 2 ^ 27 % 512) := by
    by_cases hne : r' = r
    · subst hne
      exact ht.upper _ hw (Nat.mod_lt _ (by omega))
    · exact ht.slots_other hne r' [] _ hr' (Nat.mod_lt _ (by omega))
  have hlt2 : w / 2 ^ 18 % 512 < 512 := Nat.mod_lt _ (by omega)
  have hlt3 : w / 2 ^ 9 % 512 < 512 := Nat.mod_lt _ (by omega)
  unfold Machine.translate
  rw [hroot]
  rcases hA.root_upper_slot hr' hw (Nat.mod_lt _ (by omega)) with h0 | ⟨pdp, hent, hc, hpdp⟩
  · rw [h0, child_zero, Option.bind_none, Option.bind_none]
  · rw [hent, child_tableEnt hc, Option.bind_some, Option.bind_some, hupper pdp _ _ hpdp hlt2]
    rcases hA.upper_slot hpdp (by simp) hlt2 with h0 | ⟨pd, hent, hc, hpd⟩ | ⟨hlen, -⟩
    · simp only [h0, child_zero, Option.bind_none]
    · simp only [hent, child_tableEnt hc, Option.bind_some, large_tableEnt hc,
        hupper pd _ _ hpd hlt3]
      rcases hA.upper_slot hpd (by simp) hlt3 with h0 | ⟨pt, hent, hc, hpt⟩ | ⟨-, hlarge⟩
      · simp only [h0, child_zero, Option.bind_none]
      · simp only [hent, child_tableEnt hc, Option.bind_some, large_tableEnt hc,
          hupper pt _ _ hpt (Nat.mod_lt w (by omega : 0 < 512))]
      · -- a huge page ends the walk before the last table
        simp only [if_pos hlarge]
    · cases hlen

end Upper

/-! ## §2. A prefix of a row is rewritten. -/

/-- The walk finds a table for every page from `v` to `w`. -/
def Reached (m : Machine) (r v w : Nat) : Prop := ∀ u, v ≤ u → u ≤ w → m.table r u ≠ none

/-- **The work of a loop that gives up at a missing table**: `F` is applied to the
entries of the `n` pages from `v` on that are reached, and no other page of any
context changes. -/
structure Rewritten (F : U64 → U64) (k r v n : Nat) (G : Ledger κ) (m m' : Machine) : Prop where
  accounted : Accounted k m' G
  touches : Touches r m G m' G
  inside : ∀ w, v ≤ w → w < v + n → Reached m r v w → m'.entry r w = F (m.entry r w)
  outside : ∀ r' w, G r' = some (.table r' []) → w < 2 ^ 35 →
    ¬ (r' = r ∧ v ≤ w ∧ w < v + n ∧ Reached m r v w) → m'.entry r' w = m.entry r' w

section Rows

variable {F : U64 → U64} {k r v n : Nat} {G : Ledger κ} {m m' : Machine}

theorem Rewritten.nothing (hA : Accounted k m G) : Rewritten F k r v 0 G m m where
  accounted := hA
  touches := Touches.refl r m G
  inside := by
    intro w hlo hhi
    omega
  outside := fun _ _ _ _ _ => rfl

theorem Rewritten.stop (hA : Accounted k m G) (ht : m.table r v = none) :
    Rewritten F k r v n G m m where
  accounted := hA
  touches := Touches.refl r m G
  inside := fun _ hlo _ hreach => absurd ht (hreach v (Nat.le_refl v) hlo)
  outside := fun _ _ _ _ _ => rfl

theorem Rewritten.next {pt : Nat} (hA : Accounted k m G) (hr : G r = some (.table r []))
    (hv : v + (n + 1) ≤ 2 ^ 35) (ht : m.table r v = some pt)
    (h : Rewritten F k r (v + 1) n G (m.setWord (512 * pt + v % 512) (F (m.entry r v))) m') :
    Rewritten F k r v (n + 1) G m m' := by
  have hlt : v < 2 ^ 35 := by omega
  obtain ⟨-, htouch, hentry⟩ := hA.write_leaf hr hlt ht (F (m.entry r v))
  -- the write leaves all tables, so the rest is reached as before
  have hreach : ∀ w, v + 1 ≤ w → w < v + (n + 1) →
      (Reached (m.setWord (512 * pt + v % 512) (F (m.entry r v))) r (v + 1) w
        ↔ Reached m r v w) := by
    intro w hlo hhi
    constructor
    · intro hreach u hu huw
      by_cases hfirst : u = v
      · rw [hfirst, ht]
        exact Option.some_ne_none pt
      · rw [← hA.write_leaf_table hr hlt ht (F (m.entry r v)) hr (by omega)]
        exact hreach u (by omega) huw
    · intro hreach u hu huw
      rw [hA.write_leaf_table hr hlt ht (F (m.entry r v)) hr (by omega)]
      exact hreach u (by omega) huw
  have hown : Reached m r v v := by
    intro u hu huw
    rw [show u = v by omega, ht]
    exact Option.some_ne_none pt
  refine ⟨h.accounted, htouch.trans h.touches, ?_, ?_⟩
  · intro w hlo hhi hw
    by_cases hfirst : w = v
    · -- the loop has gone past the first page
      rw [h.outside r w hr (by omega) (by omega), hentry r w hr (by omega), if_pos ⟨rfl, hfirst⟩,
        hfirst]
    · rw [h.inside w (by omega) (by omega) ((hreach w (by omega) hhi).mpr hw),
        hentry r w hr (by omega), if_neg fun h => hfirst h.2]
  · intro r' w hr' hw hout
    have hne : ¬ (r' = r ∧ w = v) := by
      rintro ⟨rfl, rfl⟩
      exact hout ⟨rfl, Nat.le_refl w, by omega, hown⟩
    rw [h.outside r' w hr' hw ?_, hentry r' w hr' hw, if_neg hne]
    rintro ⟨rfl, hlo, hhi, hin⟩
    exact hout ⟨rfl, by omega, by omega, (hreach w hlo (by omega)).mp hin⟩

theorem Rewritten.translate_outside (h : Rewritten F k r v n G m m') (hA : Accounted k m G)
    {r' w : Nat} (hr' : G r' = some (.table r' [])) (hw : w < 2 ^ 36)
    (hout : ¬ (r' = r ∧ v ≤ w ∧ w < v + n)) : m'.translate r' w = m.translate r' w := by
  by_cases hlow : w < 2 ^ 35
  · rw [h.accounted.translate_lower hr' hlow, hA.translate_lower hr' hlow,
      h.outside r' w hr' hlow fun hin => hout ⟨hin.1, hin.2.1, hin.2.2.1⟩]
  · exact h.touches.translate_upper hA hr' (by omega)

theorem Rewritten.unreached (h : Rewritten F k r v n G m m') (hr : G r = some (.table r []))
    {w : Nat} (hw : w < 2 ^ 35) (hno : ¬ Reached m r v w) : m'.entry r w = m.entry r w :=
  h.outside r w hr hw fun hin => hno hin.2.2.2

end Rows

/-! ## §3. The loops. -/

section Loops

variable {k r : Nat} {G : Ledger κ} {pml4 : U64}

/-- Are there tables for all pages of a range? -/
def TablesPresent (m : Machine) (r v n : Nat) : Prop :=
  ∀ w, v ≤ w → w < v + n → m.table r w ≠ none

theorem vmm_find_pt_last {m : Machine} {virt : U64} (hA : Accounted k m G)
    (hr : G r = some (.table r [])) (hpml4 : pml4.toNat = 4096 * r)
    (hv : pageOf virt < 2 ^ 35) :
    (m.table r (pageOf virt) = none ∧ vmm_find_pt pml4 virt m = some (none, m))
    ∨ ∃ pt, m.table r (pageOf virt) = some pt
        ∧ vmm_find_pt pml4 virt m = some (some (4096 * pt), m)
        ∧ readEnt (some (4096 * pt)) (vmm_virt_to_offs virt).pt_off m
          = some (m.entry r (pageOf virt), m)
        ∧ ∀ ent, writeEnt (some (4096 * pt)) (vmm_virt_to_offs virt).pt_off ent m
          = some ((), m.setWord (512 * pt + pageOf virt % 512) ent) := by
  obtain ⟨o, hfind⟩ := vmm_find_pt_returns hA hr hpml4 hv
  obtain ⟨-, rfl⟩ := vmm_find_pt_spec hpml4 hfind
  cases ht : m.table r (pageOf virt) with
  | none =>
    rw [ht] at hfind
    exact Or.inl ⟨rfl, hfind⟩
  | some pt =>
    rw [ht] at hfind
    have hpt := (hA.managed pt _ (hA.table_typed hr hv ht)).window
    have hlast : m.entry r (pageOf virt) = m.slot pt (pageOf virt % 512) := by
      unfold Machine.entry
      rw [ht]
    refine Or.inr ⟨pt, rfl, hfind, ?_, ?_⟩
    · rw [hlast, vmm_virt_to_offs_eq]
      exact readEnt_returns hpt (Nat.mod_lt _ (by omega))
    · intro ent
      rw [vmm_virt_to_offs_eq]
      exact writeEnt_returns hpt (Nat.mod_lt _ (by omega)) ent

theorem vmm_unmap_pages_rewrites (hpml4 : pml4.toNat = 4096 * r)
    (hr : G r = some (.table r [])) (count : Nat) (virt : U64) (m : Machine) (hA : Accounted k m G)
    (hrow : pageOf virt + count ≤ 2 ^ 35) :
    ∃ i m', vmm_unmap_pages pml4 virt count m = some (i, m')
      ∧ Rewritten (fun _ => 0) k r (pageOf virt) count G m m'
      ∧ (i = 1 ↔ TablesPresent m r (pageOf virt) count) := by
  induction count generalizing virt m with
  | zero =>
    refine ⟨1, m, rfl, Rewritten.nothing hA, fun _ w hlo hhi => ?_, fun _ => rfl⟩
    omega
  | succ count ih =>
    have hv : pageOf virt < 2 ^ 35 := by omega
    rcases vmm_find_pt_last hA hr hpml4 hv with ⟨ht, hfind⟩ | ⟨pt, ht, hfind, -, hwrite⟩
    · refine ⟨0, m, ?_, Rewritten.stop hA ht, ?_⟩
      · unfold vmm_unmap_pages
        rw [Prog.bind_apply hfind]
        rfl
      · constructor
        · intro h
          exact absurd h (by decide)
        · intro hall
          exact absurd ht (hall _ (Nat.le_refl _) (by omega))
    · obtain ⟨hA1, -, -⟩ := hA.write_leaf hr hv ht 0
      obtain ⟨i, m', hrun, hrest, hi⟩ := ih (virt + 0x1000) _ hA1 (by rw [pageOf_succ hv]; omega)
      rw [pageOf_succ hv] at hrest hi
      refine ⟨i, m', ?_, Rewritten.next hA hr hrow ht hrest, ?_⟩
      · unfold vmm_unmap_pages
        rw [Prog.bind_apply hfind]
        simp only [Prog.bind_apply (hwrite 0)]
        exact hrun
      · rw [hi]
        constructor
        · intro hall w hlo hhi
          by_cases hfirst : w = pageOf virt
          · rw [hfirst, ht]
            exact Option.some_ne_none pt
          · rw [← hA.write_leaf_table hr hv ht 0 hr (by omega)]
            exact hall w (by omega) (by omega)
        · intro hall w hlo hhi
          rw [hA.write_leaf_table hr hv ht 0 hr (by omega)]
          exact hall w (by omega) (by omega)

/-- The entry `vmm_update_perms` makes of one. -/
def permsEntry (perms ent : U64) : U64 := ent &&& VMM_ADDR_MASK ||| perms ||| VMM_FLAG_PRESENT

theorem vmm_update_perms_rewrites (hpml4 : pml4.toNat = 4096 * r)
    (hr : G r = some (.table r [])) (perms : U64) (count : Nat) (virt : U64) (m : Machine)
    (hA : Accounted k m G) (hrow : pageOf virt + count ≤ 2 ^ 35) :
    ∃ m', vmm_update_perms pml4 virt count perms m = some (0, m')
      ∧ Rewritten (permsEntry perms) k r (pageOf virt) count G m m' := by
  induction count generalizing virt m with
  | zero =>
    exact ⟨m, rfl, Rewritten.nothing hA⟩
  | succ count ih =>
    have hv : pageOf virt < 2 ^ 35 := by omega
    rcases vmm_find_pt_last hA hr hpml4 hv with ⟨ht, hfind⟩ | ⟨pt, ht, hfind, hread, hwrite⟩
    · refine ⟨m, ?_, Rewritten.stop hA ht⟩
      unfold vmm_update_perms
      rw [Prog.bind_apply hfind]
      rfl
    · obtain ⟨hA1, -, -⟩ := hA.write_leaf hr hv ht (permsEntry perms (m.entry r (pageOf virt)))
      obtain ⟨m', hrun, hrest⟩ := ih (virt + 0x1000) _ hA1 (by rw [pageOf_succ hv]; omega)
      rw [pageOf_succ hv] at hrest
      refine ⟨m', ?_, Rewritten.next hA hr hrow ht hrest⟩
      unfold vmm_update_perms
      rw [Prog.bind_apply hfind]
      simp only [Prog.bind_apply hread]
      rw [Prog.bind_apply (hwrite _)]
      exact hrun

end Loops

/-! ## §4. Unmapping. -/

/-- Every page outside the `n` pages of `ctx` from `v` on is what it was, in
every context. -/
structure OutsideKept (s : CtxState) (ctx : U64) (v n : Nat) (m' : Machine) : Prop where
  entries : ∀ ctx' ∈ s.contexts, ∀ w, w < 2 ^ 35 → ¬ (ctx' = ctx ∧ v ≤ w ∧ w < v + n) →
    m'.entry (rootOf ctx') w = s.machine.entry (rootOf ctx') w
  translations : ∀ ctx' ∈ s.contexts, ∀ w, w < 2 ^ 36 → ¬ (ctx' = ctx ∧ v ≤ w ∧ w < v + n) →
    m'.translate (rootOf ctx') w = s.machine.translate (rootOf ctx') w

theorem Separated.outsideKept {F : U64 → U64} {G : Ledger Empty} {s : CtxState} {ctx : U64}
    {v n : Nat} {m' : Machine} (h : Separated G s) (hctx : ctx ∈ s.contexts)
    (hw : Rewritten F (rootOf s.machine.kernel_pml4) (rootOf ctx) v n G s.machine m') :
    OutsideKept s ctx v n m' := by
  -- a context is known by its root
  have hsame : ∀ ctx' ∈ s.contexts, rootOf ctx' = rootOf ctx → ctx' = ctx := by
    intro ctx' hctx' hroot
    apply BitVec.eq_of_toNat_eq
    rw [(h.roots ctx' hctx').1, (h.roots ctx hctx).1, hroot]
  constructor
  · intro ctx' hctx' w hlow hout
    refine hw.outside _ w (h.roots ctx' hctx').2 hlow ?_
    rintro ⟨hroot, hlo, hhi, -⟩
    exact hout ⟨hsame ctx' hctx' hroot, hlo, hhi⟩
  · intro ctx' hctx' w hlt hout
    refine hw.translate_outside h.accounted (h.roots ctx' hctx').2 hlt ?_
    rintro ⟨hroot, hin⟩
    exact hout ⟨hsame ctx' hctx' hroot, hin⟩

variable {m : Machine} {r w k : Nat}

theorem entry_of_table_none (h : m.table r w = none) :
    m.entry r w = 0 := by
  unfold Machine.entry
  rw [h]

theorem Accounted.translate_eq_none {G : Ledger κ}
    (hA : Accounted k m G) (hr : G r = some (.table r [])) (hw : w < 2 ^ 35) :
    m.translate r w = none ↔ child (m.entry r w) = none := by
  rw [hA.translate_lower hr hw, Option.map_eq_none_iff]

/-- **Unmapping.**  In every state the contexts reach by mapping and unmapping
pages of the lower half, for every range there, `vmm_unmap_pages` returns and
leaves all pages outside the range as they were.  No page of the range is then
present iff there was none after a page without a table; 1 says that every page
has a table. -/
theorem unmap_pages_complete (ehdr : Option (List Elf64Phdr)) (m : Machine) (hboot : Booted m)
    (ops : List CtxOp) (s : CtxState)
    (hrun : run (ctxStep ehdr) (CtxState.init m) ops = some s) (hlower : ∀ op ∈ ops, op.Lower)
    (hnull : 0 ∉ s.contexts) (ctx : U64) (hctx : ctx ∈ s.contexts) (virt : U64) (count : Nat)
    (hrow : pageOf virt + count ≤ 2 ^ 35) :
    ∃ i m', vmm_unmap_pages ctx virt count s.machine = some (i, m')
      ∧ ((∀ w, pageOf virt ≤ w → w < pageOf virt + count → m'.translate (rootOf ctx) w = none)
        ↔ ∀ u w, pageOf virt ≤ u → u < w → w < pageOf virt + count →
            s.machine.table (rootOf ctx) u = none → s.machine.translate (rootOf ctx) w = none)
      ∧ (i = 1 ↔ TablesPresent s.machine (rootOf ctx) (pageOf virt) count)
      ∧ OutsideKept s ctx (pageOf virt) count m' := by
  obtain ⟨G, h⟩ := (Separated.run hboot hrun hlower).resolve_left hnull
  obtain ⟨hpml4, hr⟩ := h.roots ctx hctx
  obtain ⟨i, m', hunmap, hw, hi⟩ :=
    vmm_unmap_pages_rewrites hpml4 hr count virt s.machine h.accounted hrow
  refine ⟨i, m', hunmap, ?_, hi, h.outsideKept hctx hw⟩
  constructor
  · -- nothing is done after a missing table
    intro hnone u w hu huw hhi ht
    have hgone := (hw.accounted.translate_eq_none hr (by omega)).mp (hnone w (by omega) hhi)
    rw [hw.unreached hr (by omega) fun hreach => hreach u hu (by omega) ht] at hgone
    exact (h.accounted.translate_eq_none hr (by omega)).mpr hgone
  · intro hcond w hlo hhi
    rw [hw.accounted.translate_eq_none hr (by omega)]
    by_cases hreach : Reached s.machine (rootOf ctx) (pageOf virt) w
    · rw [hw.inside w hlo hhi hreach]
      exact child_zero
    · rw [hw.unreached hr (by omega) hreach]
      unfold Reached at hreach
      push Not at hreach
      obtain ⟨u, hu, huw, ht⟩ := hreach
      by_cases hself : u = w
      · rw [entry_of_table_none (hself ▸ ht)]
        exact child_zero
      · exact (h.accounted.translate_eq_none hr (by omega)).mp
          (hcond u w hu (by omega) hhi ht)

/-- A page is mapped at 0x200000, the first of its table.  Unmapping it together
with the page before stops at that one, which has no table. -/
theorem unmap_pages_stops :
    ∃ s m', run (ctxStep none) (CtxState.init bootMachine)
        [.new_address_space, .map_pages 0x2009000 0x200000 0x5000 1 3] = some s
      ∧ vmm_unmap_pages 0x2009000 0x1FF000 2 s.machine = some (0, m')
      ∧ s.machine.table 0x2009 0x1FF = none
      ∧ m'.translate 0x2009 0x200 = some (.page 0x5003) := by
  have heval : ((run (ctxStep none) (CtxState.init bootMachine)
      [.new_address_space, .map_pages 0x2009000 0x200000 0x5000 1 3]).bind fun s =>
        (vmm_unmap_pages 0x2009000 0x1FF000 2 s.machine).map fun r =>
          (r.1, s.machine.table 0x2009 0x1FF, r.2.translate 0x2009 0x200))
      = some (0, none, some (.page 0x5003)) := by
    decide +kernel
  obtain ⟨s, hrun, h⟩ := Option.bind_eq_some_iff.mp heval
  obtain ⟨⟨i, m'⟩, hunmap, h⟩ := Option.map_eq_some_iff.mp h
  simp only [Prod.mk.injEq] at h
  obtain ⟨rfl, htable, htrans⟩ := h
  exact ⟨s, m', hrun, hunmap, htable, htrans⟩

/-- Two pages of two tables are mapped and unmapped again. -/
theorem unmap_pages_complete_two_tables :
    ∃ s i m', run (ctxStep none) (CtxState.init bootMachine)
        [.new_address_space, .map_pages 0x2009000 0x1FF000 0x5000 2 3] = some s
      ∧ vmm_unmap_pages 0x2009000 0x1FF000 2 s.machine = some (i, m')
      ∧ s.machine.translate 0x2009 0x200 = some (.page 0x6003)
      ∧ (∀ w, 0x1FF ≤ w → w < 0x1FF + 2 → m'.translate 0x2009 w = none)
      ∧ OutsideKept s 0x2009000 0x1FF 2 m' := by
  have heval : ((run (ctxStep none) (CtxState.init bootMachine)
      [.new_address_space, .map_pages 0x2009000 0x1FF000 0x5000 2 3]).map fun s =>
        (s.contexts, (s.machine.table 0x2009 0x1FF).isSome, s.machine.translate 0x2009 0x200))
      = some ([0x2009000, 0x2001000], true, some (.page 0x6003)) := by
    decide +kernel
  obtain ⟨s, hrun, h⟩ := Option.map_eq_some_iff.mp heval
  simp only [Prod.mk.injEq] at h
  obtain ⟨hcontexts, htable, htrans⟩ := h
  have hlower : ∀ op ∈ [CtxOp.new_address_space, .map_pages 0x2009000 0x1FF000 0x5000 2 3],
      op.Lower := by
    simp [CtxOp.Lower, pageOf]
  obtain ⟨i, m', hunmap, hiff, -, hout⟩ := unmap_pages_complete none bootMachine
    bootMachine_booted _ s hrun hlower (by rw [hcontexts]; decide) 0x2009000
    (by rw [hcontexts]; decide) 0x1FF000 2 (by decide)
  refine ⟨s, i, m', hrun, hunmap, htrans, hiff.mpr ?_, hout⟩
  intro u w hu huw hhi hnone
  have hlast : u = 0x1FF := by
    have : pageOf 0x1FF000 = 0x1FF := by decide
    omega
  rw [hlast, show rootOf 0x2009000 = 0x2009 from by decide] at hnone
  rw [hnone] at htable
  cases htable

/-- **Unmapping undoes mapping** in every reached state: the row is cleared, and the other
entries of the context are those from before. -/
theorem map_unmap_pages (ehdr : Option (List Elf64Phdr)) (m : Machine) (hboot : Booted m)
    (ops : List CtxOp) (s : CtxState)
    (hrun : run (ctxStep ehdr) (CtxState.init m) ops = some s) (hlower : ∀ op ∈ ops, op.Lower)
    (hnull : 0 ∉ s.contexts) (ctx : U64) (hctx : ctx ∈ s.contexts) (virt phys perms : U64)
    (count : Nat) (hrow : pageOf virt + count ≤ 2 ^ 35) (i : Int) (m' : Machine)
    (hmap : vmm_map_pages ctx virt phys count perms s.machine = some (i, m')) :
    ∃ m'', vmm_unmap_pages ctx virt count m' = some (1, m'') ∧ ∀ w, w < 2 ^ 35 →
      m''.entry (rootOf ctx) w = if pageOf virt ≤ w ∧ w < pageOf virt + count then 0
        else s.machine.entry (rootOf ctx) w := by
  obtain ⟨G, h⟩ := (Separated.run hboot hrun hlower).resolve_left hnull
  obtain ⟨hpml4, hr⟩ := h.roots ctx hctx
  obtain ⟨G', hA', ht, -⟩ := vmm_map_pages_touches hpml4 _ _ _ _ _ _ _ _ h.accounted hr hrow hmap
  have hent := vmm_map_pages_entries hpml4 _ _ _ _ _ _ _ _ h.accounted hr hrow hmap
  have hr' := ht.ext _ _ hr
  -- a page that is present has a table
  have htable : TablesPresent m' (rootOf ctx) (pageOf virt) count := by
    intro w hlo hhi hnone
    have hzero := hent w (by omega)
    rw [entry_of_table_none hnone, if_pos ⟨hlo, hhi⟩, rowEntry] at hzero
    exact absurd (congrArg (·.getLsbD 0) hzero) (by simp [VMM_FLAG_PRESENT])
  obtain ⟨j, m'', hunmap, hw, hj⟩ := vmm_unmap_pages_rewrites hpml4 hr' count virt m' hA' hrow
  refine ⟨m'', hj.mpr htable ▸ hunmap, fun w hlow => ?_⟩
  split
  · next hin => exact hw.inside w hin.1 hin.2 fun u hlo hhi => htable u hlo (by omega)
  · next hin =>
    rw [hw.outside _ w hr' hlow fun hout => hin ⟨hout.2.1, hout.2.2.1⟩, hent w hlow, if_neg hin]

theorem map_unmap_kernel :
    ∃ r, vmm_map_pages 0x2001000 0x1FF000 0x5000 2 3 bootMachine = some r
      ∧ ∃ m', vmm_unmap_pages 0x2001000 0x1FF000 2 r.2 = some (1, m') := by
  obtain ⟨r, hmap⟩ := Option.isSome_iff_exists.mp
    (show (vmm_map_pages 0x2001000 0x1FF000 0x5000 2 3 bootMachine).isSome by decide +kernel)
  obtain ⟨m', hunmap, -⟩ := map_unmap_pages none bootMachine bootMachine_booted [] _ rfl
    (by simp) (by decide) 0x2001000 (by decide) 0x1FF000 0x5000 3 2 (by decide) _ _ hmap
  exact ⟨r, hmap, m', hunmap⟩

/-! ## §5. Changing permissions. -/

theorem permsEntry_addr (perms ent : U64) :
    permsEntry perms ent &&& VMM_ADDR_MASK = (ent ||| perms) &&& VMM_ADDR_MASK := by
  have hpresent : VMM_FLAG_PRESENT &&& VMM_ADDR_MASK = 0#64 := by decide
  unfold permsEntry
  rw [BitVec.and_or_distrib_right, BitVec.and_or_distrib_right, BitVec.and_or_distrib_right,
    BitVec.and_assoc, BitVec.and_self, hpresent, BitVec.or_zero]

theorem permsEntry_flags (perms ent : U64) :
    permsEntry perms ent &&& VMM_FLAG_MASK = (perms ||| VMM_FLAG_PRESENT) &&& VMM_FLAG_MASK := by
  have hmasks : VMM_ADDR_MASK &&& VMM_FLAG_MASK = 0#64 := by decide
  unfold permsEntry
  rw [BitVec.or_assoc, BitVec.and_or_distrib_right, BitVec.and_assoc, hmasks, BitVec.and_zero,
    BitVec.zero_or]

theorem frameOf_permsEntry (perms ent : U64) :
    frameOf (permsEntry perms ent) = frameOf (ent ||| perms) := by
  have haddr := congrArg BitVec.toNat (permsEntry_addr perms ent)
  rw [toNat_and_addr_mask, toNat_and_addr_mask] at haddr
  omega

theorem child_permsEntry (perms ent : U64) : child (permsEntry perms ent) ≠ none := by
  have hpresent : permsEntry perms ent &&& VMM_FLAG_PRESENT ≠ 0 := by
    unfold permsEntry
    rw [BitVec.and_or_distrib_right, BitVec.and_self]
    intro h
    have hbit := congrArg (fun x => BitVec.getLsbD x 0) h
    simp [VMM_FLAG_PRESENT] at hbit
  unfold child
  rw [if_neg hpresent]
  exact Option.some_ne_none _

/-- **The mapping is preserved** when the permissions of the `n` pages from `v` on
are changed. -/
structure PermsChanged (s : CtxState) (ctx : U64) (v n : Nat) (perms : U64) (m' : Machine) :
    Prop where
  present : ∀ w, w < 2 ^ 36 →
    (m'.translate (rootOf ctx) w ≠ none ↔ s.machine.translate (rootOf ctx) w ≠ none)
  frame : ∀ w leaf leaf', w < 2 ^ 36 → s.machine.translate (rootOf ctx) w = some leaf →
    m'.translate (rootOf ctx) w = some leaf' → leaf'.phys (4096 * w) = leaf.phys (4096 * w)
  flags : ∀ w, v ≤ w → w < v + n → s.machine.translate (rootOf ctx) w ≠ none →
    ∃ ent, m'.translate (rootOf ctx) w = some (.page ent)
      ∧ ent &&& VMM_FLAG_MASK = (perms ||| VMM_FLAG_PRESENT) &&& VMM_FLAG_MASK
  outside : OutsideKept s ctx v n m'

/-- What the loop needs for that: the pages it reaches are present, and `perms`
adds nothing to their addresses; the pages after a missing table are absent, or
have these permissions already. -/
structure PermsFit (m : Machine) (r v n : Nat) (perms : U64) : Prop where
  reached : ∀ w, v ≤ w → w < v + n → Reached m r v w →
    child (m.entry r w) ≠ none ∧ frameOf (m.entry r w ||| perms) = frameOf (m.entry r w)
  unreached : ∀ w, v ≤ w → w < v + n → ¬ Reached m r v w → child (m.entry r w) ≠ none →
    m.entry r w &&& VMM_FLAG_MASK = (perms ||| VMM_FLAG_PRESENT) &&& VMM_FLAG_MASK

theorem Accounted.translate_present {G : Ledger κ}
    (hA : Accounted k m G) (hr : G r = some (.table r [])) (hw : w < 2 ^ 35)
    (h : child (m.entry r w) ≠ none) : m.translate r w = some (.page (m.entry r w)) := by
  obtain ⟨c, hc⟩ := Option.ne_none_iff_exists'.mp h
  rw [hA.translate_lower hr hw, hc]
  rfl

section Perms

variable {G : Ledger Empty} {s : CtxState} {ctx perms : U64} {v n : Nat} {m' : Machine}

section

variable (h : Separated G s) (hctx : ctx ∈ s.contexts) (hrow : v + n ≤ 2 ^ 35)
  (hw : Rewritten (permsEntry perms) (rootOf s.machine.kernel_pml4) (rootOf ctx) v n G s.machine m')

include h hctx hrow hw

theorem Separated.permsFit (hp : PermsChanged s ctx v n perms m') :
    PermsFit s.machine (rootOf ctx) v n perms := by
  obtain ⟨-, hr⟩ := h.roots ctx hctx
  constructor
  · intro w hlo hhi hreach
    have hentry := hw.inside w hlo hhi hreach
    have hafter := hw.accounted.translate_present hr (w := w) (by omega)
      (hentry ▸ child_permsEntry perms _)
    -- the page is present now, so it was, and at the same frame
    have hbefore : child (s.machine.entry (rootOf ctx) w) ≠ none := by
      rw [ne_eq, ← h.accounted.translate_eq_none hr (by omega)]
      exact (hp.present w (by omega)).mp (by rw [hafter]; exact Option.some_ne_none _)
    have hframe := hp.frame w _ _ (by omega) (h.accounted.translate_present hr (by omega) hbefore)
      hafter
    rw [hentry] at hframe
    simp only [Leaf.phys, frameOf_permsEntry] at hframe
    exact ⟨hbefore, by omega⟩
  · intro w hlo hhi hreach hbefore
    have htrans := h.accounted.translate_present hr (by omega) hbefore
    obtain ⟨ent, hafter, hflags⟩ := hp.flags w hlo hhi (by rw [htrans]; exact Option.some_ne_none _)
    have hentry := hw.unreached hr (by omega) hreach
    rw [hw.accounted.translate_present hr (by omega) (by rwa [hentry]), hentry] at hafter
    injection hafter with hafter
    injection hafter with hafter
    rw [hafter, hflags]

theorem Separated.permsChanged (hfit : PermsFit s.machine (rootOf ctx) v n perms) :
    PermsChanged s ctx v n perms m' := by
  obtain ⟨-, hr⟩ := h.roots ctx hctx
  have hout := h.outsideKept hctx hw
  -- one page of the range: absent before and after, or present with one frame and the flags
  have hpage : ∀ w, v ≤ w → w < v + n →
      (s.machine.translate (rootOf ctx) w = none ∧ m'.translate (rootOf ctx) w = none)
      ∨ ∃ ent, s.machine.translate (rootOf ctx) w = some (.page (s.machine.entry (rootOf ctx) w))
          ∧ m'.translate (rootOf ctx) w = some (.page ent)
          ∧ frameOf ent = frameOf (s.machine.entry (rootOf ctx) w)
          ∧ ent &&& VMM_FLAG_MASK = (perms ||| VMM_FLAG_PRESENT) &&& VMM_FLAG_MASK := by
    intro w hlo hhi
    have hlow : w < 2 ^ 35 := by omega
    by_cases hreach : Reached s.machine (rootOf ctx) v w
    · obtain ⟨hbefore, hframe⟩ := hfit.reached w hlo hhi hreach
      have hentry := hw.inside w hlo hhi hreach
      refine Or.inr ⟨permsEntry perms (s.machine.entry (rootOf ctx) w),
        h.accounted.translate_present hr hlow hbefore, ?_, ?_, permsEntry_flags perms _⟩
      · rw [hw.accounted.translate_present hr hlow (hentry ▸ child_permsEntry perms _), hentry]
      · rw [frameOf_permsEntry, hframe]
    · have hentry := hw.unreached hr hlow hreach
      by_cases hbefore : child (s.machine.entry (rootOf ctx) w) = none
      · left
        rw [h.accounted.translate_eq_none hr hlow, hw.accounted.translate_eq_none hr hlow, hentry]
        exact ⟨hbefore, hbefore⟩
      · refine Or.inr ⟨s.machine.entry (rootOf ctx) w,
          h.accounted.translate_present hr hlow hbefore, ?_, rfl,
          hfit.unreached w hlo hhi hreach hbefore⟩
        rw [hw.accounted.translate_present hr hlow (by rwa [hentry]), hentry]
  constructor
  · intro w hlt
    by_cases hin : v ≤ w ∧ w < v + n
    · rcases hpage w hin.1 hin.2 with ⟨hb, ha⟩ | ⟨ent, hb, ha, -⟩
      · rw [hb, ha]
      · rw [hb, ha]
        exact ⟨fun _ => Option.some_ne_none _, fun _ => Option.some_ne_none _⟩
    · rw [hout.translations ctx hctx w hlt fun hc => hin hc.2]
  · intro w leaf leaf' hlt hleaf hleaf'
    by_cases hin : v ≤ w ∧ w < v + n
    · rcases hpage w hin.1 hin.2 with ⟨hb, -⟩ | ⟨ent, hb, ha, hframe, -⟩
      · rw [hb] at hleaf
        cases hleaf
      · rw [hb] at hleaf
        rw [ha] at hleaf'
        injection hleaf with hleaf
        injection hleaf' with hleaf'
        rw [← hleaf, ← hleaf']
        simp only [Leaf.phys, hframe]
    · rw [hout.translations ctx hctx w hlt fun hc => hin hc.2, hleaf] at hleaf'
      injection hleaf' with hleaf'
      rw [hleaf']
  · intro w hlo hhi hbefore
    rcases hpage w hlo hhi with ⟨hb, -⟩ | ⟨ent, -, ha, -, hflags⟩
    · exact absurd hb hbefore
    · exact ⟨ent, ha, hflags⟩
  · exact hout

end

end Perms

/-- **Changing permissions.**  In every state the contexts reach by mapping and
unmapping pages of the lower half, for every range there, `vmm_update_perms`
returns.  The mapping is preserved iff `PermsFit`; and a value meant for the end
of the range, or another one for a missing table, is what it returns only if
that value is 0. -/
theorem update_perms_keeps (ehdr : Option (List Elf64Phdr)) (m : Machine) (hboot : Booted m)
    (ops : List CtxOp) (s : CtxState)
    (hrun : run (ctxStep ehdr) (CtxState.init m) ops = some s) (hlower : ∀ op ∈ ops, op.Lower)
    (hnull : 0 ∉ s.contexts) (ctx : U64) (hctx : ctx ∈ s.contexts) (virt perms : U64)
    (count : Nat) (hrow : pageOf virt + count ≤ 2 ^ 35) :
    ∃ i m', vmm_update_perms ctx virt count perms s.machine = some (i, m')
      ∧ (PermsChanged s ctx (pageOf virt) count perms m'
        ↔ PermsFit s.machine (rootOf ctx) (pageOf virt) count perms)
      ∧ ∀ done stopped : Int, done ≠ stopped →
          (((TablesPresent s.machine (rootOf ctx) (pageOf virt) count → i = done)
              ∧ (¬ TablesPresent s.machine (rootOf ctx) (pageOf virt) count → i = stopped))
            ↔ (TablesPresent s.machine (rootOf ctx) (pageOf virt) count ∧ done = 0)
              ∨ (¬ TablesPresent s.machine (rootOf ctx) (pageOf virt) count ∧ stopped = 0)) := by
  obtain ⟨G, h⟩ := (Separated.run hboot hrun hlower).resolve_left hnull
  obtain ⟨hpml4, hr⟩ := h.roots ctx hctx
  obtain ⟨m', hupdate, hw⟩ :=
    vmm_update_perms_rewrites hpml4 hr perms count virt s.machine h.accounted hrow
  refine ⟨0, m', hupdate, ⟨h.permsFit hctx hrow hw, h.permsChanged hctx hrow hw⟩, ?_⟩
  intro done stopped _
  by_cases hall : TablesPresent s.machine (rootOf ctx) (pageOf virt) count
  · simp [hall, eq_comm]
  · simp [hall, eq_comm]

/-- Two pages of two tables are made read-only. -/
theorem update_perms_keeps_two_tables :
    ∃ s i m', run (ctxStep none) (CtxState.init bootMachine)
        [.new_address_space, .map_pages 0x2009000 0x1FF000 0x5000 2 3] = some s
      ∧ vmm_update_perms 0x2009000 0x1FF000 2 1 s.machine = some (i, m')
      ∧ s.machine.entry 0x2009 0x200 = 0x6003
      ∧ PermsChanged s 0x2009000 0x1FF 2 1 m' := by
  have heval : ((run (ctxStep none) (CtxState.init bootMachine)
      [.new_address_space, .map_pages 0x2009000 0x1FF000 0x5000 2 3]).map fun s =>
        (s.contexts, (s.machine.table 0x2009 0x1FF).isSome, (s.machine.table 0x2009 0x200).isSome,
          s.machine.entry 0x2009 0x1FF, s.machine.entry 0x2009 0x200))
      = some ([0x2009000, 0x2001000], true, true, 0x5003, 0x6003) := by
    decide +kernel
  obtain ⟨s, hrun, h⟩ := Option.map_eq_some_iff.mp heval
  simp only [Prod.mk.injEq] at h
  obtain ⟨hcontexts, htable1, htable2, hentry1, hentry2⟩ := h
  have hlower : ∀ op ∈ [CtxOp.new_address_space, .map_pages 0x2009000 0x1FF000 0x5000 2 3],
      op.Lower := by
    simp [CtxOp.Lower, pageOf]
  obtain ⟨i, m', hupdate, hiff, -⟩ := update_perms_keeps none bootMachine bootMachine_booted _ s
    hrun hlower (by rw [hcontexts]; decide) 0x2009000 (by rw [hcontexts]; decide) 0x1FF000 1 2
    (by decide)
  have hpages : ∀ w, 0x1FF ≤ w → w < 0x1FF + 2 → w = 0x1FF ∨ w = 0x200 := by
    intro w hlo hhi
    omega
  have hreached : ∀ w, w < 0x1FF + 2 → Reached s.machine 0x2009 0x1FF w := by
    intro w hw u hlo huw
    rcases hpages u hlo (by omega) with rfl | rfl
    · exact Option.isSome_iff_ne_none.mp htable1
    · exact Option.isSome_iff_ne_none.mp htable2
  refine ⟨s, i, m', hrun, hupdate, hentry2, hiff.mpr ⟨?_, ?_⟩⟩
  · intro w hlo hhi _
    show child (s.machine.entry 0x2009 w) ≠ none
      ∧ frameOf (s.machine.entry 0x2009 w ||| 1) = frameOf (s.machine.entry 0x2009 w)
    rcases hpages w hlo hhi with rfl | rfl
    · rw [hentry1]
      decide
    · rw [hentry2]
      decide
  · intro w _ hhi hno
    exact absurd (hreached w hhi) hno

/-- One page is mapped at 0x1000.  Changing the permissions of two pages maps the
second to frame 0; changing those of two pages at 0x1FF000 stops at the second,
which has no table, with the same result. -/
theorem update_perms_maps :
    ∃ s m1 m2, run (ctxStep none) (CtxState.init bootMachine)
        [.new_address_space, .map_pages 0x2009000 0x1000 0x5000 1 3] = some s
      ∧ vmm_update_perms 0x2009000 0x1000 2 1 s.machine = some (0, m1)
      ∧ TablesPresent s.machine 0x2009 1 2
      ∧ s.machine.translate 0x2009 2 = none ∧ m1.translate 0x2009 2 = some (.page 1)
      ∧ vmm_update_perms 0x2009000 0x1FF000 2 1 s.machine = some (0, m2)
      ∧ ¬ TablesPresent s.machine 0x2009 0x1FF 2 := by
  have heval : ((run (ctxStep none) (CtxState.init bootMachine)
      [.new_address_space, .map_pages 0x2009000 0x1000 0x5000 1 3]).bind fun s =>
        (vmm_update_perms 0x2009000 0x1000 2 1 s.machine).bind fun r1 =>
        (vmm_update_perms 0x2009000 0x1FF000 2 1 s.machine).map fun r2 =>
          (r1.1, r2.1, (s.machine.table 0x2009 1).isSome && (s.machine.table 0x2009 0x200).isNone,
            s.machine.translate 0x2009 2, r1.2.translate 0x2009 2))
      = some (0, 0, true, none, some (.page 1)) := by
    decide +kernel
  obtain ⟨s, hrun, h⟩ := Option.bind_eq_some_iff.mp heval
  obtain ⟨⟨i1, m1⟩, hupdate1, h⟩ := Option.bind_eq_some_iff.mp h
  obtain ⟨⟨i2, m2⟩, hupdate2, h⟩ := Option.map_eq_some_iff.mp h
  simp only [Prod.mk.injEq, Bool.and_eq_true, Option.isNone_iff_eq_none] at h
  obtain ⟨rfl, rfl, ⟨htable, hnone⟩, hbefore, hafter⟩ := h
  refine ⟨s, m1, m2, hrun, hupdate1, ?_, hbefore, hafter, hupdate2, ?_⟩
  · -- the two pages share their table
    intro w hlo hhi
    have hpath : pagePath w = pagePath 1 := by
      have hw : w = 1 ∨ w = 2 := by omega
      rcases hw with rfl | rfl <;> rfl
    unfold Machine.table at htable ⊢
    rw [hpath]
    exact Option.isSome_iff_ne_none.mp htable
  · intro hall
    exact hall 0x200 (by decide) (by decide) hnone

end Quack.Arch
