/-
  Quack.Arch.TableRuns
  **RUNS OF PAGE-TABLE OPERATIONS ON A CREATED CONTEXT.**

  A context is `Created` by `vmm_new_address_space`, as the first one or with
  the kernel's upper half.  From there any operations follow, at any addresses.

    • `table_accesses_stay_iff` — when a run stays in the tables of its contexts.
-/
import Quack.Arch.TableWrites
import Quack.Lib.Runs

namespace Quack.Arch

open Lib Lib.Traced

/-! ## §1. Operations and runs. -/

inductive TableOp where
  | map_pages (virt phys count perms : U64)
  | unmap_pages (virt count : U64)
  | update_perms (virt count perms : U64)
  | map_huge_pages (virt phys count perms : U64)
  | unmap_huge_pages (virt count : U64)
  | update_huge_perms (virt count perms : U64)
  deriving Repr, DecidableEq

/-- The operation on the context at `ctx`. -/
def TableOp.exec (ctx : U64) : TableOp → TableProg Int
  | .map_pages virt phys count perms => Logged.vmm_map_pages ctx virt phys count perms
  | .unmap_pages virt count => Logged.vmm_unmap_pages ctx virt count
  | .update_perms virt count perms => Logged.vmm_update_perms ctx virt count perms
  | .map_huge_pages virt phys count perms => Logged.vmm_map_huge_pages ctx virt phys count perms
  | .unmap_huge_pages virt count => Logged.vmm_unmap_huge_pages ctx virt count
  | .update_huge_perms virt count perms => Logged.vmm_update_huge_perms ctx virt count perms

def TableOp.Fits (ctx : U64) (m : Machine) : TableOp → Prop
  | .map_pages virt phys count perms =>
    AlongRounds (fun m p => PageClear m (rootOf ctx) (pageOf p.1))
      (fun p => Logged.vmm_map_page ctx perms p.1 p.2) (Logged.step2 0x1000) count.toNat
      (virt, phys) m
  | .unmap_pages virt count =>
    AlongRounds (fun m virt => PageClear m (rootOf ctx) (pageOf virt))
      (Logged.vmm_unmap_page ctx) (· + 0x1000) count.toNat virt m
  | .update_perms virt count perms =>
    AlongRounds (fun m virt => PageClear m (rootOf ctx) (pageOf virt))
      (Logged.vmm_update_perm ctx perms) (· + 0x1000) count.toNat virt m
  | .map_huge_pages _ _ _ _ => True
  | .unmap_huge_pages virt count =>
    AlongRounds (fun m virt => HasDirectory m (rootOf ctx) (pageOf virt))
      (Logged.vmm_unmap_huge_page ctx) (· + 0x200000) count.toNat virt m
  | .update_huge_perms virt count perms =>
    AlongRounds (fun m virt => HasDirectory m (rootOf ctx) (pageOf virt))
      (Logged.vmm_update_huge_perm ctx perms) (· + 0x200000) count.toNat virt m

instance (ctx : U64) (m : Machine) : (op : TableOp) → Decidable (op.Fits ctx m)
  | .map_pages _ _ _ _ => inferInstanceAs (Decidable (AlongRounds ..))
  | .unmap_pages _ _ => inferInstanceAs (Decidable (AlongRounds ..))
  | .update_perms _ _ _ => inferInstanceAs (Decidable (AlongRounds ..))
  | .map_huge_pages _ _ _ _ => inferInstanceAs (Decidable True)
  | .unmap_huge_pages _ _ => inferInstanceAs (Decidable (AlongRounds ..))
  | .update_huge_perms _ _ _ => inferInstanceAs (Decidable (AlongRounds ..))

/-- The machine, and the frames taken for tables of the context or shared from
the kernel. -/
structure TableState where
  machine : Machine
  tables : Set Nat

/-- An operation; the frames it takes become tables. -/
def tableStep (ctx : U64) (s : TableState) (op : TableOp) : Option TableState :=
  (op.exec ctx s.machine).2.map fun res =>
    ⟨res.2, watch.after s.tables (op.exec ctx s.machine).1⟩

/-- Every allocation of the operation succeeds. -/
def Supplied (ctx : U64) (s : TableState) (op : TableOp) : Prop :=
  ∀ e ∈ (op.exec ctx s.machine).1, watch.assumed e

def StaysInTables (ctx : U64) (s : TableState) (op : TableOp) : Prop :=
  watch.Accepts s.tables (op.exec ctx s.machine).1

/-- The condition, in the state the operation starts from. -/
def MeetsTables (ctx : U64) (s : TableState) (op : TableOp) : Prop := op.Fits ctx s.machine

instance (ctx : U64) (s : TableState) (op : TableOp) : Decidable (MeetsTables ctx s op) :=
  inferInstanceAs (Decidable (op.Fits ctx s.machine))

variable {m : Machine} {r f : Nat} {κ : Type}

theorem TableOp.keeps {ctx : U64} (hctx : ctx.toNat = 4096 * r) (op : TableOp)
    {T : Set Nat} (h : ∃ lvl, TablesIn r lvl T m) :
    Keeps watch (op.exec ctx) T m (op.Fits ctx m) (fun T' _ m' => ∃ lvl, TablesIn r lvl T' m') := by
  have hr : rootOf ctx = r := rootOf_eq hctx
  -- the value returned after the loop touches nothing
  have hend : ∀ {α : Type} (i : α → Int) (T' : Set Nat) (a : α) (m' : Machine),
      (∃ lvl, TablesIn r lvl T' m') →
      Keeps watch (pure (i a)) T' m' True (fun T' _ m' => ∃ lvl, TablesIn r lvl T' m') :=
    fun i T' a m' h' => Keeps.pure h'
  cases op with
  | map_pages virt phys count perms =>
    refine (Keeps.rounds ?_ _ _ T m h).seq (hend fun _ => 1)
    rintro p T m ⟨lvl, h⟩
    rw [hr]
    exact vmm_map_page_keeps hctx perms p.1 p.2 h
  | unmap_pages virt count =>
    refine (Keeps.rounds ?_ _ _ T m h).seq (hend fun done : Bool => if done then 1 else 0)
    rintro virt T m ⟨lvl, h⟩
    rw [hr]
    exact vmm_unmap_page_keeps hctx virt h
  | update_perms virt count perms =>
    refine (Keeps.rounds ?_ _ _ T m h).seq (hend fun _ => 0)
    rintro virt T m ⟨lvl, h⟩
    rw [hr]
    exact vmm_update_perm_keeps hctx perms virt h
  | map_huge_pages virt phys count perms =>
    refine (Keeps.mono (c := AlongRounds (fun _ _ => True) _ _ _ _ _)
      (Keeps.rounds ?_ _ _ T m h) (iff_true_intro (alongRounds_of_forall (fun _ _ => trivial) _ _ _ _ _))
      (fun _ _ _ hq => hq)).seq (hend fun _ => 1)
    rintro p T m ⟨lvl, h⟩
    exact vmm_map_huge_page_keeps hctx perms p.1 p.2 h
  | unmap_huge_pages virt count =>
    refine (Keeps.rounds ?_ _ _ T m h).seq (hend fun done : Bool => if done then 1 else 0)
    rintro virt T m ⟨lvl, h⟩
    rw [hr]
    exact vmm_unmap_huge_page_keeps hctx virt h
  | update_huge_perms virt count perms =>
    refine (Keeps.rounds ?_ _ _ T m h).seq (hend fun _ => 0)
    rintro virt T m ⟨lvl, h⟩
    rw [hr]
    exact vmm_update_huge_perm_keeps hctx perms virt h

/-! ## §2. Created contexts. -/

/-- The level a ledger gives the tables of the context at `r`. -/
def Ledger.level {κ : Type} (G : Ledger κ) (r f : Nat) : Option Nat :=
  match G f with
  | some (.table r' p) => if r' = r then some (4 - p.length) else none
  | some (.upper p) => some (4 - p.length)
  | _ => none

theorem Ledger.level_table {G : Ledger κ} {p : List Nat}
    (h : G f = some (.table r p)) : G.level r f = some (4 - p.length) := by
  simp [Ledger.level, h]

theorem Ledger.level_upper {G : Ledger κ} {p : List Nat}
    (h : G f = some (.upper p)) : G.level r f = some (4 - p.length) := by
  simp [Ledger.level, h]

theorem Ledger.level_eq_some {G : Ledger κ} {l : Nat} (h : G.level r f = some l) :
    ∃ u p, G f = some u ∧ (u = .table r p ∨ u = .upper p) ∧ l = 4 - p.length := by
  unfold Ledger.level at h
  split at h
  · next r' p hG =>
      split at h
      · next hr =>
          injection h with h
          exact ⟨_, p, hG, Or.inl (by rw [hr]), h.symm⟩
      · cases h
  · next p hG =>
      injection h with h
      exact ⟨_, p, hG, Or.inr rfl, h.symm⟩
  · cases h

theorem Accounted.typed {k : Nat} {G : Ledger κ} (h : Accounted k m G)
    (r : Nat) : Typed (G.level r) m where
  len := h.len
  bitmap := h.bitmap
  managed f l hf := by
    obtain ⟨u, p, hG, -, -⟩ := Ledger.level_eq_some hf
    exact h.managed f u hG
  links f l i c hf hl hi hc := by
    obtain ⟨u, p, hG, hu, hlen⟩ := Ledger.level_eq_some hf
    -- the entry links what the ledger has for it, one level down
    obtain ⟨u', hu', hlevel⟩ : ∃ u', u.child i = some u'
        ∧ ∀ c, G c = some u' → G.level r c = some l := by
      rcases hu with rfl | rfl
      · by_cases htop : p = [] ∧ 256 ≤ i
        · obtain ⟨rfl, h256⟩ := htop
          refine ⟨.upper [i], by simp [Use.child, h256], fun c hc => ?_⟩
          rw [Ledger.level_upper hc]
          simp only [List.length_nil, List.length_singleton] at hlen ⊢
          congr 1
          omega
        · refine ⟨.table r (p ++ [i]), ?_, fun c hc => ?_⟩
          · rw [Use.child, if_neg htop, if_pos (by omega)]
          · rw [Ledger.level_table hc, List.length_append, List.length_singleton]
            congr 1
            omega
      · refine ⟨.upper (p ++ [i]), ?_, fun c hc => ?_⟩
        · rw [Use.child, if_pos (by omega)]
        · rw [Ledger.level_upper hc, List.length_append, List.length_singleton]
          congr 1
          omega
    rcases h.slots f u i hG hi u' hu' with h0 | ⟨c', hent, hc'⟩ | ⟨⟨q, rfl, hq⟩, -, hlarge⟩
    · rw [h0, child_zero] at hc
      cases hc
    · have hwin := (h.managed c' u' hc').window
      rw [hent, child_tableEnt (by omega)] at hc
      injection hc with hc
      subst hc
      rw [hent]
      exact Or.inl ⟨hlevel _ hc', large_tableEnt (by omega)⟩
    · rcases hu with hu | hu
      · cases hu
      · injection hu with hu
        subst hu
        exact Or.inr ⟨by omega, hlarge⟩

/-- A context just created by `vmm_new_address_space`, with the frames that are
its tables or shared from the kernel: the first context's are those taken while
it was created. -/
inductive Created : Machine → U64 → Set Nat → Prop
  | first {ehdr : Option (List Elf64Phdr)} {m0 m : Machine} {ctx : U64} :
      PmmReady m0 → m0.kernel_pml4 = 0 → SegmentsFit ehdr →
      vmm_new_address_space ehdr m0 = some (ctx, m) →
      Created m ctx {f | f < m0.pmm_bitmap_len ∧ m0.bit f = false ∧ m.bit f = true}
  | shared {κ : Type} {k : Nat} {G : Ledger κ} {ehdr : Option (List Elf64Phdr)} {m0 m : Machine}
      {ctx : U64} :
      Accounted k m0 G → m0.kernel_pml4.toNat = 4096 * k →
      vmm_new_address_space ehdr m0 = some (ctx, m) → ctx ≠ 0 →
      Created m ctx {f | f = rootOf ctx ∨ ∃ p, G f = some (.upper p)}

theorem Created.tablesIn {ctx : U64} {T : Set Nat} (h : Created m ctx T) :
    ctx.toNat = 4096 * rootOf ctx ∧ ∃ lvl, TablesIn (rootOf ctx) lvl T m := by
  cases h with
  | @first ehdr m0 m ctx hready hkernel hseg hnew =>
    obtain ⟨L, k, G, hctx, hboots, hgrown⟩ := vmm_new_address_space_first hready hkernel hseg hnew
    have hA := hboots.accounted
    rw [rootOf_eq hctx]
    refine ⟨hctx, G.level k, hA.typed k, ?_, ?_⟩
    · intro f l hf
      obtain ⟨u, p, hG, -, -⟩ := Ledger.level_eq_some hf
      rcases hgrown.fresh f u hG with hnone | ⟨hlen, hclear⟩
      · cases hnone
      · exact ⟨hlen, hclear, (hA.managed f u hG).bit⟩
    · exact Ledger.level_table hA.kernel
  | @shared κ k G ehdr m0 m ctx hA hk hnew hne =>
    obtain ⟨-, ⟨rfl, -⟩ | ⟨c, hctx, hlen, hbit, hA', -⟩⟩ :=
      vmm_new_address_space_accounted hA hk hnew
    · exact absurd rfl hne
    · have hfree := hA.free_of_bit hbit
      rw [rootOf_eq hctx]
      refine ⟨hctx, Ledger.level (Function.update G c (some (.table c []))) c, hA'.typed c, ?_, ?_⟩
      · intro f l hf
        obtain ⟨u, p, hG, hu, -⟩ := Ledger.level_eq_some hf
        by_cases hfc : f = c
        · exact Or.inl hfc
        · rw [Function.update_of_ne hfc] at hG
          rcases hu with rfl | rfl
          · -- no frame was a table of the new root before
            rw [hA.root f c p hG] at hfree
            cases hfree
          · exact Or.inr ⟨p, hG⟩
      · exact Ledger.level_table (Function.update_self ..)

/-! ## §3. Runs. -/

/-- **Page-table accesses over whole runs.**  Any operations on a created
context, at any addresses, with frames for the tables they need: every word
read or written lies in a frame taken for a table, no huge page is taken for a
table and no missing table is used EXACTLY WHEN every round of every operation
finds what it takes for granted.  Then no operation faults. -/
theorem table_accesses_stay_iff {m : Machine} {ctx : U64} {T : Set Nat} (hnew : Created m ctx T)
    (ops : List TableOp) (hsupply : Along (tableStep ctx) (Supplied ctx) ⟨m, T⟩ ops) :
    (Along (tableStep ctx) (StaysInTables ctx) ⟨m, T⟩ ops
      ↔ Along (tableStep ctx) (MeetsTables ctx) ⟨m, T⟩ ops)
    ∧ (Along (tableStep ctx) (MeetsTables ctx) ⟨m, T⟩ ops →
        ∃ s, run (tableStep ctx) ⟨m, T⟩ ops = some s) := by
  obtain ⟨hctx, hinit⟩ := hnew.tablesIn
  let Inv : TableState → Prop := fun s => ∃ lvl, TablesIn (rootOf ctx) lvl s.tables s.machine
  -- one operation
  have hstep : ∀ s op, Inv s → Supplied ctx s op ∧ MeetsTables ctx s op →
      ∃ s', tableStep ctx s op = some s' ∧ Inv s' := by
    rintro s op hs ⟨hsup, hfit⟩
    obtain ⟨i, m', hres, hinv⟩ := (op.keeps hctx hs).returns hsup hfit
    exact ⟨⟨m', watch.after s.tables (op.exec ctx s.machine).1⟩, by rw [tableStep, hres]; rfl, hinv⟩
  have hkeep : ∀ s op s', Inv s → Supplied ctx s op ∧ MeetsTables ctx s op →
      tableStep ctx s op = some s' → Inv s' := by
    intro s op s' hs hok hs'
    obtain ⟨s'', hs'', hinv⟩ := hstep s op hs hok
    rw [hs'] at hs''
    cases hs''
    exact hinv
  have hiff : ∀ s op, Inv s →
      (Supplied ctx s op ∧ MeetsTables ctx s op ↔ Supplied ctx s op ∧ StaysInTables ctx s op) :=
    fun s op hs => and_congr_right fun hsup => ((op.keeps hctx hs).accepts hsup).symm
  have hruns := along_congr (tableStep ctx) Inv hiff hkeep ops ⟨m, T⟩ hinit
  rw [along_and, along_and, and_iff_right hsupply, and_iff_right hsupply] at hruns
  refine ⟨hruns.symm, fun hfit => ?_⟩
  obtain ⟨s, hs, -⟩ := Along.returns (tableStep ctx) Inv hstep ops ⟨m, T⟩ hinit
    ((along_and (tableStep ctx) ops ⟨m, T⟩).mpr ⟨hsupply, hfit⟩)
  exact ⟨s, hs⟩

instance (e : TableEvent) : Decidable (watch.assumed e) :=
  match e with
  | .alloc frame => inferInstanceAs (Decidable (frame ≠ none ∧ frame ≠ some 0))
  | .read _ _ => inferInstanceAs (Decidable True)
  | .write _ _ => inferInstanceAs (Decidable True)
  | .clear _ => inferInstanceAs (Decidable True)
  | .follow _ => inferInstanceAs (Decidable True)

instance (ctx : U64) (s : TableState) (op : TableOp) : Decidable (Supplied ctx s op) :=
  inferInstanceAs (Decidable (∀ e ∈ (op.exec ctx s.machine).1, watch.assumed e))

def secondTables : Set Nat := {f | f = rootOf 0x2009000 ∨ ∃ p, bootLedger f = some (.upper p)}

theorem created_second (h : vmm_new_address_space none bootMachine = some (0x2009000, m)) :
    Created m 0x2009000 secondTables :=
  Created.shared bootMachine_accounted rfl h (by decide)

/-- A huge page and small pages beside it. -/
def sideBySide : List TableOp :=
  [.map_huge_pages 0x200000 0x400000 1 3, .map_pages 0x400000 0x5000 2 3,
    .update_perms 0x400000 1 1, .unmap_pages 0x401000 1, .update_huge_perms 0x200000 1 1,
    .unmap_huge_pages 0x200000 1]

/-- They are mapped, changed and unmapped within the tables. -/
theorem table_accesses_stay_side_by_side :
    ∃ m, Created m 0x2009000 secondTables
      ∧ Along (tableStep 0x2009000) (Supplied 0x2009000) ⟨m, secondTables⟩ sideBySide
      ∧ Along (tableStep 0x2009000) (StaysInTables 0x2009000) ⟨m, secondTables⟩ sideBySide
      ∧ ∃ s, run (tableStep 0x2009000) ⟨m, secondTables⟩ sideBySide = some s := by
  have hruns : ((vmm_new_address_space none bootMachine).map fun res => (res.1,
      decide (Along (tableStep 0x2009000) (Supplied 0x2009000) ⟨res.2, secondTables⟩ sideBySide),
      decide (Along (tableStep 0x2009000) (MeetsTables 0x2009000) ⟨res.2, secondTables⟩ sideBySide)))
      = some (0x2009000, true, true) := by
    decide +kernel
  obtain ⟨⟨ctx, m⟩, hnew, h⟩ := Option.map_eq_some_iff.mp hruns
  simp only [Prod.mk.injEq, decide_eq_true_eq] at h
  obtain ⟨rfl, hsupply, hfit⟩ := h
  have hcreated := created_second hnew
  obtain ⟨hiff, hreturns⟩ := table_accesses_stay_iff hcreated sideBySide hsupply
  exact ⟨m, hcreated, hsupply, hiff.mpr hfit, hreturns hfit⟩

/-- **Two operations that leave the tables.**  After a huge page is mapped at
`0x200000`, mapping a small page there follows the huge page's entry and writes
a page-table entry into the data; and unmapping a huge page one gigabyte up,
where the directory is missing, writes through `NULL`. -/
theorem huge_page_taken_for_table :
    ∃ m s s', Created m 0x2009000 secondTables
      ∧ run (tableStep 0x2009000) ⟨m, secondTables⟩ [.map_huge_pages 0x200000 0x400000 1 3] = some s
      ∧ Supplied 0x2009000 s (.map_pages 0x200000 0x5000 1 3)
      ∧ tableStep 0x2009000 s (.map_pages 0x200000 0x5000 1 3) = some s'
      ∧ s.machine.mem (0x400000 / 8) = 0 ∧ s'.machine.mem (0x400000 / 8) = 0x5003
      ∧ ¬ StaysInTables 0x2009000 s (.map_pages 0x200000 0x5000 1 3)
      ∧ tableStep 0x2009000 s (.unmap_huge_pages 0x40000000 1) = none
      ∧ ¬ StaysInTables 0x2009000 s (.unmap_huge_pages 0x40000000 1) := by
  have hruns : ((vmm_new_address_space none bootMachine).bind fun res =>
      (run (tableStep 0x2009000) ⟨res.2, secondTables⟩
        [.map_huge_pages 0x200000 0x400000 1 3]).bind fun s =>
      (tableStep 0x2009000 s (.map_pages 0x200000 0x5000 1 3)).map fun s' =>
        (res.1, s.machine.mem (0x400000 / 8), s'.machine.mem (0x400000 / 8),
          decide (Supplied 0x2009000 s (.map_pages 0x200000 0x5000 1 3)
            ∧ .follow 0x400083
              ∈ ((TableOp.map_pages 0x200000 0x5000 1 3).exec 0x2009000 s.machine).1
            ∧ (tableStep 0x2009000 s (.unmap_huge_pages 0x40000000 1)).isNone
            ∧ .write none 0
              ∈ ((TableOp.unmap_huge_pages 0x40000000 1).exec 0x2009000 s.machine).1)))
      = some (0x2009000, 0, 0x5003, true) := by
    decide +kernel
  obtain ⟨⟨ctx, m⟩, hnew, h⟩ := Option.bind_eq_some_iff.mp hruns
  obtain ⟨s, hmap, h⟩ := Option.bind_eq_some_iff.mp h
  obtain ⟨s', hstep, h⟩ := Option.map_eq_some_iff.mp h
  simp only [Prod.mk.injEq, decide_eq_true_eq, Option.isNone_iff_eq_none] at h
  obtain ⟨rfl, hbefore, hafter, hsupply, hfollow, hnull, hwrite⟩ := h
  refine ⟨m, s, s', created_second hnew, hmap, hsupply, hstep, hbefore, hafter, ?_, hnull, ?_⟩
  · intro hstays
    obtain ⟨T, hok⟩ := Monitor.Accepts.ok_of_mem _ s.tables hstays hfollow
    have hlarge : ¬ (0x400083 : U64) &&& VMM_FLAG_LARGE = 0 := by decide
    exact hlarge hok
  · intro hstays
    obtain ⟨T, hok⟩ := Monitor.Accepts.ok_of_mem _ s.tables hstays hwrite
    exact not_inTable_none T 0 hok

end Quack.Arch
