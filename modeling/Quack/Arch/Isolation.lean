/-
  Quack.Arch.Isolation
  **CONTEXTS DO NOT DISTURB EACH OTHER.**

  The system is the machine with the contexts created so far, the kernel's
  included; its steps are `vmm_new_address_space`, `vmm_map_pages` and
  `vmm_unmap_pages`.  A ledger carries the separation of the tables through
  every run (`Separated`), and a step on one context then leaves the lower half
  of every other context alone, while all upper halves remain that of
  `kernel_pml4`.
-/
import Quack.Arch.Boot
import Quack.Lib.Runs

namespace Quack.Arch

open Lib

/-! ## §1. The system. -/

/-- The machine and the contexts in existence. -/
structure CtxState where
  machine : Machine
  contexts : List U64

inductive CtxOp where
  | new_address_space
  | map_pages (ctx virt phys count perms : U64)
  | unmap_pages (ctx virt count : U64)
  deriving Repr, DecidableEq

/-- The context an operation works on. -/
def CtxOp.ctx : CtxOp → Option U64
  | .new_address_space => none
  | .map_pages ctx _ _ _ _ => some ctx
  | .unmap_pages ctx _ _ => some ctx

/-- The operation stays in the lower half. -/
def CtxOp.Lower : CtxOp → Prop
  | .new_address_space => True
  | .map_pages _ virt _ count _ => pageOf virt + count.toNat ≤ 2 ^ 35
  | .unmap_pages _ virt count => pageOf virt + count.toNat ≤ 2 ^ 35

/-- One call, on a context that exists. -/
def ctxStep (ehdr : Option (List Elf64Phdr)) (s : CtxState) : CtxOp → Option CtxState
  | .new_address_space =>
    (vmm_new_address_space ehdr s.machine).map fun r => ⟨r.2, r.1 :: s.contexts⟩
  | .map_pages ctx virt phys count perms =>
    if ctx ∈ s.contexts then
      (vmm_map_pages ctx virt phys count.toNat perms s.machine).map fun r => ⟨r.2, s.contexts⟩
    else none
  | .unmap_pages ctx virt count =>
    if ctx ∈ s.contexts then
      (vmm_unmap_pages ctx virt count.toNat s.machine).map fun r => ⟨r.2, s.contexts⟩
    else none

/-! ## §2. Separation. -/

/-- A ledger accounts for the machine and has every context as a root. -/
structure Separated (G : Ledger Empty) (s : CtxState) : Prop where
  accounted : Accounted (rootOf s.machine.kernel_pml4) s.machine G
  kernel : s.machine.kernel_pml4.toNat = 4096 * rootOf s.machine.kernel_pml4
  roots : ∀ ctx ∈ s.contexts, ctx.toNat = 4096 * rootOf ctx
    ∧ G (rootOf ctx) = some (.table (rootOf ctx) [])

/-- What one operation leaves alone: the lower halves of the other contexts. -/
def LeavesOthers (op : CtxOp) (s s' : CtxState) : Prop :=
  ∀ ctx ∈ s.contexts, op.ctx ≠ some ctx → ∀ v, v < 2 ^ 35 →
    s'.machine.translate (rootOf ctx) v = s.machine.translate (rootOf ctx) v

variable {G G' : Ledger Empty} {m m' : Machine} {op : CtxOp} {s s' : CtxState}
  {ehdr : Option (List Elf64Phdr)}

theorem translate_eq_of_entry {k k' r v : Nat}
    (h : Accounted k m G) (h' : Accounted k' m' G') (hr : G r = some (.table r []))
    (hr' : G' r = some (.table r [])) (hv : v < 2 ^ 35) (he : m'.entry r v = m.entry r v) :
    m'.translate r v = m.translate r v := by
  rw [h.translate_lower hr hv, h'.translate_lower hr' hv, he]

theorem Separated.touches {ctx : U64}
    (h : Separated G s) (hctx : ctx ∈ s.contexts)
    (hA : Accounted (rootOf s.machine.kernel_pml4) m' G')
    (ht : Touches (rootOf ctx) s.machine G m' G') (hop : op.ctx = some ctx) :
    Separated G' ⟨m', s.contexts⟩ ∧ LeavesOthers op s ⟨m', s.contexts⟩ := by
  constructor
  · refine ⟨?_, ?_, ?_⟩
    · show Accounted (rootOf m'.kernel_pml4) m' G'
      rw [ht.vars.kernel]
      exact hA
    · show m'.kernel_pml4.toNat = _
      rw [ht.vars.kernel]
      exact h.kernel
    · intro ctx' hctx'
      obtain ⟨h1, h2⟩ := h.roots ctx' hctx'
      exact ⟨h1, ht.ext _ _ h2⟩
  · intro ctx' hctx' hne v hv
    obtain ⟨haddr, hroot⟩ := h.roots ctx' hctx'
    have hother : rootOf ctx' ≠ rootOf ctx := by
      intro he
      apply hne
      rw [hop]
      congr 1
      apply BitVec.eq_of_toNat_eq
      rw [(h.roots ctx hctx).1, haddr, he]
    exact translate_eq_of_entry h.accounted hA hroot (ht.ext _ _ hroot) hv
      (ht.entry_other h.accounted hroot hother hv)

theorem Separated.step (h : Separated G s) (hlower : op.Lower) (hstep : ctxStep ehdr s op = some s')
    (hnull : 0 ∉ s'.contexts) : ∃ G', Separated G' s' ∧ LeavesOthers op s s' := by
  cases op with
  | new_address_space =>
    obtain ⟨⟨p, m'⟩, hrun, rfl⟩ := Option.map_eq_some_iff.mp hstep
    obtain ⟨hkept, hcase⟩ := vmm_new_address_space_accounted h.accounted h.kernel hrun
    rcases hcase with ⟨rfl, -⟩ | ⟨c, haddr, -, hbit, hA, -⟩
    · -- without a frame the context would be null
      exact absurd List.mem_cons_self hnull
    · have hfree := h.accounted.free_of_bit hbit
      have hkeep : ∀ f u, G f = some u →
          Function.update G c (some (Use.table c [])) f = some u :=
        fun f u hf => Ledger.update_keeps hfree _ hf
      refine ⟨Function.update G c (some (.table c [])), ⟨?_, ?_, ?_⟩, ?_⟩
      · show Accounted (rootOf m'.kernel_pml4) m' _
        rw [hkept.vars.kernel]
        exact hA
      · show m'.kernel_pml4.toNat = _
        rw [hkept.vars.kernel]
        exact h.kernel
      · intro ctx hctx
        rcases List.mem_cons.mp hctx with rfl | hctx
        · rw [rootOf_eq haddr]
          exact ⟨haddr, Function.update_self ..⟩
        · obtain ⟨h1, h2⟩ := h.roots ctx hctx
          exact ⟨h1, hkeep _ _ h2⟩
      · intro ctx hctx _ v hv
        obtain ⟨-, hroot⟩ := h.roots ctx hctx
        exact translate_eq_of_entry h.accounted hA hroot (hkeep _ _ hroot) hv
          (h.accounted.entry_congr hroot hv (fun f p j hf hj => hkept.slots f _ j hf hj))
  | map_pages ctx virt phys count perms =>
    simp only [ctxStep] at hstep
    split at hstep
    · next hctx =>
        obtain ⟨⟨i, m'⟩, hrun, rfl⟩ := Option.map_eq_some_iff.mp hstep
        obtain ⟨haddr, hroot⟩ := h.roots ctx hctx
        obtain ⟨G', hA, ht, -⟩ := vmm_map_pages_touches haddr _ _ _ _ _ _ G i h.accounted hroot
          hlower hrun
        exact ⟨G', h.touches hctx hA ht rfl⟩
    · cases hstep
  | unmap_pages ctx virt count =>
    simp only [ctxStep] at hstep
    split at hstep
    · next hctx =>
        obtain ⟨⟨i, m'⟩, hrun, rfl⟩ := Option.map_eq_some_iff.mp hstep
        obtain ⟨haddr, hroot⟩ := h.roots ctx hctx
        obtain ⟨hA, ht⟩ := vmm_unmap_pages_touches haddr hroot _ _ _ _ i h.accounted hlower hrun
        exact ⟨G, h.touches hctx hA ht rfl⟩
    · cases hstep

/-! ## §3. Runs. -/

theorem ctxStep_contexts (h : ctxStep ehdr s op = some s') {ctx : U64} (hctx : ctx ∈ s.contexts) :
    ctx ∈ s'.contexts := by
  cases op with
  | new_address_space =>
    obtain ⟨_, -, rfl⟩ := Option.map_eq_some_iff.mp h
    exact List.mem_cons_of_mem _ hctx
  | map_pages =>
    simp only [ctxStep] at h
    split at h
    · obtain ⟨_, -, rfl⟩ := Option.map_eq_some_iff.mp h
      exact hctx
    · cases h
  | unmap_pages =>
    simp only [ctxStep] at h
    split at h
    · obtain ⟨_, -, rfl⟩ := Option.map_eq_some_iff.mp h
      exact hctx
    · cases h

/-- The state after `vmm_init`. -/
def CtxState.init (m : Machine) : CtxState := ⟨m, [m.kernel_pml4]⟩

theorem Separated.init (h : Booted m) : ∃ G, Separated G (CtxState.init m) := by
  obtain ⟨k, G, hA, hk, -, -, -⟩ := h
  have hroot := rootOf_eq hk
  refine ⟨G, ⟨?_, ?_, ?_⟩⟩
  · show Accounted (rootOf m.kernel_pml4) m G
    rw [hroot]
    exact hA
  · show m.kernel_pml4.toNat = 4096 * rootOf m.kernel_pml4
    rw [hroot]
    exact hk
  · intro ctx hctx
    rw [List.mem_singleton.mp hctx, hroot]
    exact ⟨hk, hA.kernel⟩

theorem Separated.run (hboot : Booted m)
    {ops : List CtxOp} (hrun : run (ctxStep ehdr) (CtxState.init m) ops = some s)
    (hlower : ∀ op ∈ ops, op.Lower) : 0 ∈ s.contexts ∨ ∃ G, Separated G s := by
  have halong : Along (ctxStep ehdr) (fun _ op => op.Lower) (CtxState.init m) ops :=
    along_of_forall _ ops _ (fun op hop _ => hlower op hop)
  refine Along.invariant (ctxStep ehdr) (fun s => 0 ∈ s.contexts ∨ ∃ G, Separated G s) ?_ ops _ s
    (Or.inr (Separated.init hboot)) halong hrun
  rintro s op s' (hnull | ⟨G, h⟩) hop hstep
  · exact Or.inl (ctxStep_contexts hstep hnull)
  · by_cases hnull : 0 ∈ s'.contexts
    · exact Or.inl hnull
    · obtain ⟨G', h', -⟩ := h.step hop hstep hnull
      exact Or.inr ⟨G', h'⟩

/-- **Isolation.**  In every run after `vmm_init` whose operations stay in the
lower half and whose contexts all got a frame, each operation leaves the
lower-half translations of all other contexts unchanged, and after it the upper
half of every context is that of `kernel_pml4`. -/
theorem contexts_isolated (ehdr : Option (List Elf64Phdr)) (m : Machine) (hboot : Booted m)
    (ops : List CtxOp) (s : CtxState)
    (hrun : run (ctxStep ehdr) (CtxState.init m) ops = some s) (hlower : ∀ op ∈ ops, op.Lower)
    (op : CtxOp) (hop : op.Lower) (s' : CtxState) (hstep : ctxStep ehdr s op = some s')
    (hnull : 0 ∉ s'.contexts) :
    (∀ ctx ∈ s.contexts, op.ctx ≠ some ctx → ∀ v, v < 2 ^ 35 →
      s'.machine.translate (rootOf ctx) v = s.machine.translate (rootOf ctx) v)
    ∧ ∀ ctx ∈ s'.contexts,
        (∀ i, 256 ≤ i → i < 512 → s'.machine.slot (rootOf ctx) i
          = s'.machine.slot (rootOf s'.machine.kernel_pml4) i)
        ∧ ∀ v, 256 ≤ v / 2 ^ 27 % 512 → s'.machine.translate (rootOf ctx) v
          = s'.machine.translate (rootOf s'.machine.kernel_pml4) v := by
  rcases Separated.run hboot hrun hlower with hnull' | ⟨G, h⟩
  · exact absurd (ctxStep_contexts hstep hnull') hnull
  · obtain ⟨G', h', hothers⟩ := h.step hop hstep hnull
    refine ⟨hothers, ?_⟩
    intro ctx hctx
    obtain ⟨-, hroot⟩ := h'.roots ctx hctx
    have hshared := fun i => h'.accounted.shared (rootOf ctx) i hroot
    refine ⟨hshared, ?_⟩
    intro v hv
    exact Machine.translate_congr_root (hshared _ hv (Nat.mod_lt _ (by omega)))

/-- A second context is created and a page mapped in it: the page is there, and
the kernel's lower half has not changed. -/
theorem contexts_isolated_second_context :
    ∃ s s', run (ctxStep none) (CtxState.init bootMachine) [.new_address_space] = some s
      ∧ ctxStep none s (.map_pages 0x2009000 0x1000 0x5000 1 3) = some s'
      ∧ s'.machine.translate 0x2009 1 = some (.page 0x5003)
      ∧ (∀ v, v < 2 ^ 35 → s'.machine.translate 0x2001 v = s.machine.translate 0x2001 v)
      ∧ ∀ v, 256 ≤ v / 2 ^ 27 % 512 →
          s'.machine.translate 0x2009 v = s'.machine.translate 0x2001 v := by
  have hruns : ((run (ctxStep none) (CtxState.init bootMachine) [.new_address_space]).bind fun s =>
      (ctxStep none s (.map_pages 0x2009000 0x1000 0x5000 1 3)).map fun s' =>
        (s.contexts, s'.contexts, s'.machine.kernel_pml4, s'.machine.translate 0x2009 1))
      = some ([0x2009000, 0x2001000], [0x2009000, 0x2001000], 0x2001000, some (.page 0x5003)) := by
    decide +kernel
  obtain ⟨s, hrun, h⟩ := Option.bind_eq_some_iff.mp hruns
  obtain ⟨s', hstep, h⟩ := Option.map_eq_some_iff.mp h
  simp only [Prod.mk.injEq] at h
  obtain ⟨hctx, hctx', hkernel, htrans⟩ := h
  have hmap : CtxOp.Lower (.map_pages 0x2009000 0x1000 0x5000 1 3) := by
    show pageOf 0x1000 + (1 : U64).toNat ≤ 2 ^ 35
    decide
  obtain ⟨hothers, hupper⟩ := contexts_isolated none bootMachine bootMachine_booted
    [.new_address_space] s hrun (by simp [CtxOp.Lower]) _ hmap s' hstep (by rw [hctx']; decide)
  refine ⟨s, s', hrun, hstep, htrans, ?_, ?_⟩
  · exact hothers 0x2001000 (by rw [hctx]; decide) (by decide)
  · have hnew := (hupper 0x2009000 (by rw [hctx']; decide)).2
    rw [hkernel] at hnew
    exact hnew

end Quack.Arch
