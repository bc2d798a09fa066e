/-
  Quack.Arch.OutOfMemory
  **`vmm_map_pages` WITHOUT FRAMES FOR ITS TABLES.**

  `vmm_get_or_alloc_ent` returns `NULL` if there is no frame for a table, and
  `vmm_map_pages` goes on with it: the next level is read through `NULL`, or the
  last entry is written through it.

    • `map_pages_oom_iff` — when it is handled: only if it does not happen.
-/
import Quack.Arch.Isolation
import Quack.Arch.TableAccess
import Quack.Arch.TableDemand

namespace Quack.Arch

open Lib

variable {κ : Type}

/-! ## §1. After a failed allocation. -/

/-- An access through `NULL`. -/
def TableEvent.Null : TableEvent → Prop
  | .read tab _ => tab = none
  | .write tab _ => tab = none
  | .clear _ => False
  | .alloc _ => False
  | .follow _ => False

/-- The `NULL` table is accessed, and the program faults. -/
structure NullUsed {α : Type} (x : TableProg α) (m : Machine) : Prop where
  event : ∃ e ∈ (x m).1, e.Null
  faults : (x m).2 = none

/-- `pmm_alloc` has returned `NULL`. -/
def noFrame : TableEvent := .alloc (some 0)

namespace Logged

theorem memset_page_log (p : U64) (m : Machine) :
    memset_page p m = ([.clear p], Arch.memset_page p.toNat m) := rfl

end Logged

section Null

variable {α β : Type} {x : TableProg α} {f : α → TableProg β} {m t : Machine} {a : α}

theorem NullUsed.bind (h : NullUsed x m) : NullUsed (x >>= f) m := by
  obtain ⟨⟨e, he, hnull⟩, hres⟩ := h
  have happly := Traced.bind_of_none (f := f) hres
  exact ⟨⟨e, by rw [happly]; exact he, hnull⟩, by rw [happly]⟩

theorem NullUsed.later (hx : (x m).2 = some (a, t)) (h : NullUsed (f a) t) :
    NullUsed (x >>= f) m := by
  obtain ⟨⟨e, he, hnull⟩, hres⟩ := h
  have happly := Traced.bind_of_some (f := f) hx
  refine ⟨⟨e, ?_, hnull⟩, by rw [happly]; exact hres⟩
  rw [happly]
  exact List.mem_append_right _ he

theorem nullUsed_readEnt (off : Nat) (m : Machine) : NullUsed (Logged.readEnt none off) m :=
  ⟨⟨_, List.mem_singleton_self _, rfl⟩, rfl⟩

theorem nullUsed_writeEnt (off : Nat) (ent : U64) (m : Machine) :
    NullUsed (Logged.writeEnt none off ent) m :=
  ⟨⟨_, List.mem_singleton_self _, rfl⟩, rfl⟩

theorem nullUsed_ent (off : Nat) (flags : U64) (m : Machine) :
    NullUsed (Logged.vmm_get_or_alloc_ent none off flags) m :=
  (nullUsed_readEnt off m).bind

theorem noFrame_clear (p : U64) (m : Machine) :
    noFrame ∉ ((Logged.memset_page p >>= fun _ => Logged.follow p) m).1 := by
  rw [Traced.mem_bind]
  rintro (hmem | ⟨_, _, -, hmem⟩)
  · rw [Logged.memset_page_log] at hmem
    cases List.mem_singleton.mp hmem
  · cases List.mem_singleton.mp hmem

variable {flags perms phys pml4 virt : U64}

theorem noFrame_ent {tab : Table} {off : Nat}
    (h : noFrame ∈ (Logged.vmm_get_or_alloc_ent tab off flags m).1) :
    ∃ t, (Logged.vmm_get_or_alloc_ent tab off flags m).2 = some (none, t) := by
  unfold Logged.vmm_get_or_alloc_ent at h ⊢
  rcases Traced.mem_bind.mp h with hmem | ⟨ent, m1, hread, hmem⟩
  · cases List.mem_singleton.mp hmem
  obtain ⟨tab, rfl, hwin, -, rfl⟩ := readEnt_eq_some hread
  rw [Traced.bind_of_some hread]
  dsimp only
  split at hmem
  · next hp =>
      rw [if_pos hp]
      rcases Traced.mem_bind.mp hmem with hmem | ⟨p, m2, halloc, hmem⟩
      · -- this is the allocation
        have hnull := List.mem_singleton.mp hmem
        injection hnull with hnull
        obtain ⟨⟨p, m2⟩, halloc, hp0⟩ := Option.map_eq_some_iff.mp hnull.symm
        dsimp only at hp0
        subst hp0
        have hwrite : (Logged.writeEnt (some tab) off 0 m2).2
            = some ((), m2.setWord ((tab + 8 * off) / 8) 0) := store64_eq_some.mpr ⟨hwin, rfl⟩
        rw [Traced.bind_of_some (show (Logged.pmm_alloc m).2 = _ from halloc),
          Traced.bind_of_some hwrite]
        exact ⟨_, rfl⟩
      · -- nothing is asked for after it
        rcases Traced.mem_bind.mp hmem with hmem | ⟨_, m3, -, hmem⟩
        · cases List.mem_singleton.mp hmem
        split at hmem
        · cases hmem
        · rcases Traced.mem_bind.mp hmem with hmem | ⟨_, m4, -, hmem⟩
          · cases List.mem_singleton.mp hmem
          rcases Traced.mem_bind.mp hmem with hmem | ⟨_, m5, -, hmem⟩
          · cases List.mem_singleton.mp hmem
          exact absurd hmem (noFrame_clear p m5)
  · cases List.mem_singleton.mp hmem

theorem noFrame_level {g : Table → TableProg β} {tab : Table} {off : Nat}
    (hnull : ∀ t, NullUsed (g none) t)
    (hrest : ∀ o t, noFrame ∈ (g o t).1 → NullUsed (g o) t)
    (h : noFrame ∈ ((Logged.vmm_get_or_alloc_ent tab off flags >>= g) m).1) :
    NullUsed (Logged.vmm_get_or_alloc_ent tab off flags >>= g) m := by
  rcases Traced.mem_bind.mp h with hmem | ⟨o, t, hres, hmem⟩
  · obtain ⟨t, hres⟩ := noFrame_ent hmem
    exact NullUsed.later hres (hnull t)
  · exact NullUsed.later hres (hrest o t hmem)

theorem noFrame_page (h : noFrame ∈ (Logged.vmm_map_page pml4 perms virt phys m).1) :
    NullUsed (Logged.vmm_map_page pml4 perms virt phys) m := by
  refine noFrame_level (fun t => (nullUsed_ent _ _ t).bind) (fun pdp t hmem => ?_) h
  refine noFrame_level (fun t => (nullUsed_ent _ _ t).bind) (fun pd t hmem => ?_) hmem
  refine noFrame_level (fun t => (nullUsed_writeEnt _ _ t).bind) (fun pt t hmem => ?_) hmem
  -- the last entry asks for nothing
  rcases Traced.mem_bind.mp hmem with hmem | ⟨_, _, -, hmem⟩
  · cases List.mem_singleton.mp hmem
  · cases hmem

theorem null_used {count : U64}
    (h : noFrame ∈ (Logged.vmm_map_pages pml4 virt phys count perms m).1) :
    NullUsed (Logged.vmm_map_pages pml4 virt phys count perms) m := by
  have hrounds : ∀ n p t,
      noFrame ∈ (Traced.rounds (fun p => Logged.vmm_map_page pml4 perms p.1 p.2)
        (Logged.step2 0x1000) n p t).1 →
      NullUsed (Traced.rounds (fun p => Logged.vmm_map_page pml4 perms p.1 p.2)
        (Logged.step2 0x1000) n p) t := by
    intro n
    induction n with
    | zero =>
      intro p t hmem
      cases hmem
    | succ n ih =>
      intro p t hmem
      rcases Traced.mem_bind.mp hmem with hmem | ⟨b, u, hres, hmem⟩
      · exact (noFrame_page hmem).bind
      · refine NullUsed.later hres ?_
        cases b with
        | true => exact ih _ u hmem
        | false => cases hmem
  rcases Traced.mem_bind.mp h with hmem | ⟨_, _, -, hmem⟩
  · exact (hrounds _ _ _ hmem).bind
  · cases hmem

end Null

/-! ## §2. When it happens. -/

def HighMarked (m : Machine) : Prop := ∀ f, 2 ^ 20 ≤ f → f < m.pmm_bitmap_len → m.bit f = true

section Frames

variable {k r f i : Nat} {p : List Nat} {m m' : Machine} {G G' : Ledger κ}

theorem Touches.highMarked (h : Touches r m G m' G') (hA' : Accounted k m' G') :
    HighMarked m' ↔ HighMarked m := by
  have hbits : ∀ f, 2 ^ 20 ≤ f → f < m.pmm_bitmap_len → (m'.bit f = true ↔ m.bit f = true) := by
    intro f hf hlt
    rw [h.bits f hlt]
    refine or_iff_left ?_
    rintro ⟨-, hsome⟩
    obtain ⟨u, hu⟩ := Option.ne_none_iff_exists'.mp hsome
    have := (hA'.managed f u hu).window
    omega
  unfold HighMarked
  rw [h.vars.len]
  exact forall_congr' fun f => forall_congr' fun hf => forall_congr' fun hlt => hbits f hf hlt

theorem pmm_alloc_none_left (hA : Accounted k m G) (hfree : freeFrames m = 0) :
    (HighMarked m ∧ pmm_alloc 1 m = some (0, m)) ∨ (¬ HighMarked m ∧ pmm_alloc 1 m = none) := by
  have hempty : freeSet m = ∅ := Finset.card_eq_zero.mp hfree
  have hlow : ∀ f, 0x2000 ≤ f → f < m.pmm_bitmap_len → f < 2 ^ 20 → m.bit f = true := by
    intro f hf hlt hwin
    rw [← Bool.not_eq_false]
    intro hbit
    have := mem_freeSet.mpr ⟨hf, hlt, hwin, hbit⟩
    rw [hempty] at this
    cases this
  by_cases hhigh : HighMarked m
  · refine Or.inl ⟨hhigh, pmm_alloc_full hA fun f hf hlt => ?_⟩
    rcases Nat.lt_or_ge f (2 ^ 20) with hwin | hwin
    · exact hlow f hf hlt hwin
    · exact hhigh f hwin hlt
  · refine Or.inr ⟨hhigh, ?_⟩
    cases halloc : pmm_alloc 1 m with
    | none => rfl
    | some res =>
      obtain ⟨q, m'⟩ := res
      exfalso
      rcases pmm_alloc_cases hA.bitmap_len_le halloc with
        ⟨-, -, hfull⟩ | ⟨f, -, -, hf, hlt, hwin, hbit, -⟩
      · exact hhigh fun f hf hlt => hfull f (by omega) hlt
      · rw [hlow f hf hlt hwin] at hbit
        cases hbit

/-- The program stops for want of a frame: `pmm_alloc` returns `NULL`, or faults on
a frame past 4 GiB. -/
structure OutOfFrames {α : Type} (x : TableProg α) (m : Machine) : Prop where
  faults : (x m).2 = none
  event : noFrame ∈ (x m).1 ↔ HighMarked m

theorem OutOfFrames.later {α β : Type} {x : TableProg α} {g : α → TableProg β} {a : α} {t : Machine}
    (hx : (x m).2 = some (a, t)) (hno : noFrame ∉ (x m).1) (hH : HighMarked t ↔ HighMarked m)
    (h : OutOfFrames (g a) t) : OutOfFrames (x >>= g) m := by
  have happly := Traced.bind_of_some (f := g) hx
  refine ⟨by rw [happly]; exact h.faults, ?_⟩
  rw [happly, List.mem_append, or_iff_right hno, h.event, hH]

theorem OutOfFrames.bind {α β : Type} {x : TableProg α} {g : α → TableProg β}
    (h : OutOfFrames x m) : OutOfFrames (x >>= g) m := by
  have happly := Traced.bind_of_none (f := g) h.faults
  exact ⟨by rw [happly], by rw [happly]; exact h.event⟩

theorem level_cases (hA : Accounted k m G)
    (hr : G r = some (.table r [])) (hp : Forest.Inner LowerSlot (p ++ [i]))
    (hw : Forest.walk child m.slot r p = some f) :
    (∃ m' c, (Logged.vmm_get_or_alloc_ent (some (4096 * f)) i higher_perms m).2
        = some (some (4096 * c), m')
      ∧ noFrame ∉ (Logged.vmm_get_or_alloc_ent (some (4096 * f)) i higher_perms m).1
      ∧ Enter m f i m' c)
    ∨ ∀ {β : Type} {g : Table → TableProg β}, (∀ t, NullUsed (g none) t) →
      OutOfFrames (Logged.vmm_get_or_alloc_ent (some (4096 * f)) i higher_perms >>= g) m := by
  obtain ⟨hp', hslot⟩ := hp.snoc
  have hwin := (hA.managed f _ (hA.walk_typed hr hp' hw)).window
  by_cases hsupply : child (m.slot f i) ≠ none ∨ 0 < freeFrames m
  · obtain ⟨_, m', hrun⟩ := vmm_get_or_alloc_ent_returns hA hwin hslot.2.1 hsupply
    obtain ⟨c, rfl, he⟩ := vmm_get_or_alloc_ent_spec hA.bitmap_len_le hrun
    have hplain := (congrFun (Logged.vmm_get_or_alloc_ent_plain _ _ _) m).trans hrun
    refine Or.inl ⟨m', c, hplain, fun hmem => ?_, he⟩
    obtain ⟨t, hnone⟩ := noFrame_ent hmem
    cases hplain.symm.trans hnone
  · rw [not_or, not_not, Nat.not_lt, Nat.le_zero] at hsupply
    have hpresent : m.slot f i &&& VMM_FLAG_PRESENT = 0 := by
      by_contra hno
      have hmiss := hsupply.1
      unfold child at hmiss
      rw [if_neg hno] at hmiss
      cases hmiss
    have hrun : Logged.vmm_get_or_alloc_ent (some (4096 * f)) i higher_perms m = _ :=
      Traced.bind_of_some (readEnt_returns hwin hslot.2.1)
    rw [if_pos hpresent] at hrun
    refine Or.inr fun hnull => ?_
    rcases pmm_alloc_none_left hA hsupply.2 with ⟨hhigh, halloc⟩ | ⟨hhigh, halloc⟩
    · -- `NULL` is returned, and used
      have hmem : noFrame ∈ (Logged.vmm_get_or_alloc_ent (some (4096 * f)) i higher_perms m).1 := by
        rw [hrun]
        refine List.mem_append_right _ (Traced.mem_bind.mpr (Or.inl ?_))
        unfold Logged.pmm_alloc
        rw [halloc]
        exact List.mem_singleton_self _
      obtain ⟨t, hnone⟩ := noFrame_ent hmem
      exact ⟨(NullUsed.later hnone (hnull t)).faults,
        iff_of_true (Traced.mem_bind.mpr (Or.inl hmem)) hhigh⟩
    · -- the allocator faults
      rw [Traced.bind_of_none (show (Logged.pmm_alloc m).2 = none from halloc)] at hrun
      have hres := congrArg Prod.snd hrun
      refine OutOfFrames.bind ⟨hres, iff_of_false (fun hmem => ?_) hhigh⟩
      obtain ⟨t, hnone⟩ := noFrame_ent hmem
      cases hres.symm.trans hnone

theorem page_cases (hA : Accounted k m G) (hr : G r = some (.table r [])) {pml4 virt : U64}
    (phys perms : U64) (hpml4 : pml4.toNat = 4096 * r) (hv : pageOf virt < 2 ^ 35) :
    (∃ m', vmm_map_page pml4 virt phys perms m = some ((), m'))
      ∨ OutOfFrames (Logged.vmm_map_page pml4 perms virt phys) m := by
  obtain ⟨hp1, hp2, hp3⟩ := inner_levels hv
  rw [or_iff_not_imp_left]
  intro hfails
  have hpage : (Logged.vmm_map_page pml4 perms virt phys m).2 = none := by
    rw [← Option.not_isSome_iff_eq_none, Option.isSome_iff_exists]
    rintro ⟨⟨b, t⟩, hres⟩
    have hplain := (congrFun (Logged.vmm_map_page_plain pml4 perms virt phys) m).symm.trans hres
    obtain ⟨_, t', hrun, -⟩ := Prog.bind_eq_some.mp hplain
    exact hfails ⟨t', hrun⟩
  revert hpage
  unfold Logged.vmm_map_page ctxTable
  rw [vmm_virt_to_offs_eq, hpml4]
  intro hpage
  rcases level_cases hA hr hp1 rfl with ⟨m1, c1, run1, no1, e1⟩ | hout
  swap
  · exact hout fun t => (nullUsed_ent _ _ t).bind
  obtain ⟨G1, hA1, ht1, w1, -⟩ := e1.accounted hA hr hp1 rfl
  have hr1 := ht1.ext r _ hr
  refine OutOfFrames.later run1 no1 (ht1.highMarked hA1) ?_
  rw [Traced.bind_of_some run1] at hpage
  rcases level_cases hA1 hr1 hp2 w1 with ⟨m2, c2, run2, no2, e2⟩ | hout
  swap
  · exact hout fun t => (nullUsed_ent _ _ t).bind
  obtain ⟨G2, hA2, ht2, w2, -⟩ := e2.accounted hA1 hr1 hp2 w1
  have hr2 := ht2.ext r _ hr1
  refine OutOfFrames.later run2 no2 (ht2.highMarked hA2) ?_
  dsimp only at hpage
  rw [Traced.bind_of_some run2] at hpage
  rcases level_cases hA2 hr2 hp3 w2 with ⟨m3, c3, run3, no3, e3⟩ | hout
  swap
  · exact hout fun t => (nullUsed_writeEnt _ _ t).bind
  -- with its three tables the page is mapped
  obtain ⟨G3, hA3, ht3, w3, -⟩ := e3.accounted hA2 hr2 hp3 w2
  have hc3 := (hA3.managed c3 _ (hA3.walk_typed (ht3.ext r _ hr2) hp3 w3)).window
  have hwrite := writeEnt_returns (m := m3) hc3 (Nat.mod_lt (pageOf virt) (by decide))
    (phys ||| perms ||| VMM_FLAG_PRESENT)
  dsimp only at hpage
  rw [Traced.bind_of_some run3] at hpage
  dsimp only at hpage
  rw [Traced.bind_of_some (show (Logged.writeEnt _ _ _ m3).2 = _ from hwrite)] at hpage
  cases hpage

theorem map_pages_cases {pml4 : U64} (hpml4 : pml4.toNat = 4096 * r) (perms : U64)
    (count : Nat) (virt phys : U64) (m : Machine) (G : Ledger κ) (hA : Accounted k m G)
    (hr : G r = some (.table r [])) (hrow : pageOf virt + count ≤ 2 ^ 35) :
    (∃ m', vmm_map_pages pml4 virt phys count perms m = some (1, m'))
      ∨ OutOfFrames (Traced.rounds (fun p => Logged.vmm_map_page pml4 perms p.1 p.2)
        (Logged.step2 0x1000) count (virt, phys)) m := by
  induction count generalizing virt phys m G with
  | zero => exact Or.inl ⟨m, rfl⟩
  | succ count ih =>
    have hv : pageOf virt < 2 ^ 35 := by omega
    rcases page_cases hA hr phys perms hpml4 hv with ⟨m1, hrun⟩ | hout
    · obtain ⟨G1, hA1, ht, -, -⟩ := vmm_map_page_touches hA hr hpml4 hv hrun
      have hpage : (Logged.vmm_map_page pml4 perms virt phys m).2 = some (true, m1) :=
        (congrFun (Logged.vmm_map_page_plain pml4 perms virt phys) m).trans (Prog.bind_apply hrun)
      refine (ih (virt + 0x1000) (phys + 0x1000) m1 G1 hA1 (ht.ext r _ hr)
        (by rw [pageOf_succ hv]; omega)).imp ?_ fun hout => ?_
      · rintro ⟨m', hrest⟩
        exact ⟨m', (Prog.bind_apply hrun).trans hrest⟩
      · refine OutOfFrames.later hpage (fun hmem => ?_) (ht.highMarked hA1) hout
        cases hpage.symm.trans (noFrame_page hmem).faults
    · exact Or.inr hout.bind

end Frames

/-! ## §3. Out of memory. -/

/-- The accesses of a call. -/
def mapEvents (ctx virt phys count perms : U64) (m : Machine) : List TableEvent :=
  (Logged.vmm_map_pages ctx virt phys count perms m).1

/-- **What a caller may expect** of a call that runs out of frames. -/
structure OomHandled (ctx virt phys count perms : U64) (m : Machine) : Prop where
  /-- `NULL` is not used as a table. -/
  null : ∀ e ∈ mapEvents ctx virt phys count perms m, ¬ e.Null
  /-- 0 is returned, and the pages outside the range are what they were. -/
  zero : ∃ m', vmm_map_pages ctx virt phys count.toNat perms m = some (0, m')
    ∧ ∀ w, (∀ j, j < count.toNat →
        pageOf (virt + BitVec.ofNat 64 (4096 * j)) % 2 ^ 36 ≠ w % 2 ^ 36) →
      m'.translate (rootOf ctx) w = m.translate (rootOf ctx) w

/-- **Running out of frames is never handled.**  In any state, a call in which an
allocation returns `NULL` does not do what its caller may expect.  In a context that
is reached by mapping and unmapping this happens exactly if there are fewer frames
than tables missing (and none past 4 GiB, for which `pmm_alloc` itself faults). -/
theorem map_pages_oom_iff (ctx virt phys count perms : U64) :
    (∀ m, (noFrame ∈ mapEvents ctx virt phys count perms m → OomHandled ctx virt phys count perms m)
      ↔ noFrame ∉ mapEvents ctx virt phys count perms m)
    ∧ ∀ (ehdr : Option (List Elf64Phdr)) (m : Machine) (ops : List CtxOp) (s : CtxState),
        Booted m → run (ctxStep ehdr) (CtxState.init m) ops = some s → (∀ op ∈ ops, op.Lower) →
        0 ∉ s.contexts → ctx ∈ s.contexts → pageOf virt + count.toNat ≤ 2 ^ 35 →
        (noFrame ∈ mapEvents ctx virt phys count perms s.machine
          ↔ freeFrames s.machine < tablesMissing s.machine (rootOf ctx)
              (Finset.Ico (pageOf virt) (pageOf virt + count.toNat))
            ∧ HighMarked s.machine) := by
  constructor
  · intro m
    refine ⟨fun h hmem => ?_, fun hno hmem => absurd hmem hno⟩
    obtain ⟨e, he, hnull⟩ := (null_used hmem).event
    exact (h hmem).null e he hnull
  · intro ehdr m ops s hboot hrun hlower hnull hctx hrow
    obtain ⟨G, hsep⟩ := (Separated.run hboot hrun hlower).resolve_left hnull
    obtain ⟨haddr, hroot⟩ := hsep.roots ctx hctx
    have hplain := congrFun (Logged.vmm_map_pages_plain ctx virt phys count perms) s.machine
    have hmapped := vmm_map_pages_returns_iff haddr count.toNat virt phys perms s.machine G
      hsep.accounted hroot hrow
    rw [← Nat.not_le, ← hmapped]
    rcases map_pages_cases haddr perms count.toNat virt phys s.machine G hsep.accounted hroot hrow
      with hdone | hout
    · refine iff_of_false (fun hmem => ?_) (fun h => h.1 hdone)
      obtain ⟨m', hdone⟩ := hdone
      cases (hplain.trans hdone).symm.trans (null_used hmem).faults
    · have hcall : OutOfFrames (Logged.vmm_map_pages ctx virt phys count perms) s.machine := hout.bind
      refine hcall.event.trans ⟨fun hhigh => ⟨?_, hhigh⟩, fun h => h.2⟩
      rintro ⟨m', hdone⟩
      cases (hplain.trans hdone).symm.trans hcall.faults

/-- A context with one page in each of the first `n` slots of its root. -/
def spreadPages (n : Nat) : List CtxOp :=
  .new_address_space :: (List.range n).map fun i =>
    .map_pages 0x2009000 (BitVec.ofNat 64 (2 ^ 39 * i)) 0x5000 1 3

theorem spreadPages_lower {n : Nat} (hn : n ≤ 256) : ∀ op ∈ spreadPages n, op.Lower := by
  intro op hop
  rcases List.mem_cons.mp hop with rfl | hop
  · trivial
  · obtain ⟨i, hi, rfl⟩ := List.mem_map.mp hop
    have hi := List.mem_range.mp hi
    show pageOf (BitVec.ofNat 64 (2 ^ 39 * i)) + 1 ≤ 2 ^ 35
    unfold pageOf
    rw [BitVec.toNat_ofNat]
    omega

theorem map_pages_oom_enough :
    ∃ s, run (ctxStep none) (CtxState.init bootMachine) (spreadPages 1) = some s
      ∧ (noFrame ∈ mapEvents 0x2009000 0x1000 0x6000 2 3 s.machine →
        OomHandled 0x2009000 0x1000 0x6000 2 3 s.machine)
      ∧ tablesMissing s.machine 0x2009 (Finset.Ico 1 3) ≤ freeFrames s.machine := by
  have hrun : (run (ctxStep none) (CtxState.init bootMachine) (spreadPages 1)).map (fun s =>
      (s.contexts, s.machine.pmm_bitmap_len,
        decide (noFrame ∈ mapEvents 0x2009000 0x1000 0x6000 2 3 s.machine)))
      = some ([0x2009000, 0x2001000], 0x2020, false) := by
    decide +kernel
  obtain ⟨s, hs, hall⟩ := Option.map_eq_some_iff.mp hrun
  injection hall with hctx hall
  injection hall with hlen hno
  have hno' := of_decide_eq_false hno
  obtain ⟨hiff, hstate⟩ := map_pages_oom_iff 0x2009000 0x1000 0x6000 2 3
  have hframes := hstate none bootMachine (spreadPages 1) s bootMachine_booted hs
    (spreadPages_lower (by omega)) (by rw [hctx]; decide) (by rw [hctx]; decide) (by decide)
  refine ⟨s, hs, (hiff s.machine).mpr hno', Nat.le_of_not_lt fun hlt => ?_⟩
  exact hno' (hframes.mpr ⟨hlt, fun f hf hlt => by omega⟩)

/-- **The last frame is used up**: after seven pages in seven slots of the root, the
eighth gets its first table and no second one.  Its entry is read through `NULL`. -/
theorem map_pages_oom_null :
    ∃ s, run (ctxStep none) (CtxState.init bootMachine) (spreadPages 7) = some s
      ∧ noFrame ∈ mapEvents 0x2009000 0x38000000000 0x6000 1 3 s.machine
      ∧ .read none 0 ∈ mapEvents 0x2009000 0x38000000000 0x6000 1 3 s.machine
      ∧ vmm_map_pages 0x2009000 0x38000000000 0x6000 1 3 s.machine = none
      ∧ ¬ OomHandled 0x2009000 0x38000000000 0x6000 1 3 s.machine := by
  have hrun : (run (ctxStep none) (CtxState.init bootMachine) (spreadPages 7)).map (fun s =>
      (decide (noFrame ∈ mapEvents 0x2009000 0x38000000000 0x6000 1 3 s.machine
          ∧ .read none 0 ∈ mapEvents 0x2009000 0x38000000000 0x6000 1 3 s.machine),
        (vmm_map_pages 0x2009000 0x38000000000 0x6000 1 3 s.machine).isNone))
      = some (true, true) := by
    decide +kernel
  obtain ⟨s, hs, hall⟩ := Option.map_eq_some_iff.mp hrun
  injection hall with hevents hnone
  obtain ⟨hno, hread⟩ := of_decide_eq_true hevents
  exact ⟨s, hs, hno, hread, Option.isNone_iff_eq_none.mp hnone,
    fun h => h.null _ hread rfl⟩

end Quack.Arch
