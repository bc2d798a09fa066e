/-
  Quack.Sys.System
  **THE WHOLE OF MEMORY MANAGEMENT: any number of address spaces, and the heap.**

  `sysStep` is one call of the kernel: an address space is made, used or
  deleted, or a block of the heap is allocated or freed.  `SysInv` says that the
  heap and every space are what they should be over one ledger of frames;
  each call works on one of them and is confined to it, so the others keep
  (`HeapInv.effect`, `SpaceInv.confined`).
-/
import Quack.Sys.HeapRuns
import Quack.Arch.Teardown

namespace Quack.Sys

open Lib Mm Arch

/-! ## §1. The system. -/

structure System where
  machine : Machine
  spaces : List AddressSpace
  blocks : List HeapBlock

inductive SysOp where
  /-- `new address_space`. -/
  | create
  /-- `delete` of a space, by position. -/
  | delete (space : Nat)
  /-- A call on a space. -/
  | call (space : Nat) (op : SpaceOp)
  | heap (op : HeapOp)
  deriving Repr, DecidableEq

def sysStep (ehdr : Option (List Elf64Phdr)) (s : System) : SysOp → Option System
  | .create => (AddressSpace.new (x86Mm ehdr) s.machine).map fun (as, m) =>
    { s with machine := m, spaces := as :: s.spaces }
  | .delete space => do
    let c ← Cursor.at? s.spaces space
    let (_, m) ← c.elem.destruct (x86Mm ehdr) s.machine
    pure { s with machine := m, spaces := c.erase }
  | .call space op => do
    let c ← Cursor.at? s.spaces space
    let (as, m) ← spaceCall ehdr c.elem op s.machine
    pure { s with machine := m, spaces := (c.set as).toList }
  | .heap op => (heapStep ⟨s.machine, s.blocks⟩ op).map fun h =>
    { s with machine := h.machine, blocks := h.blocks }

/-- After `vmm_init`. -/
def System.init (m : Machine) : System := ⟨m, [], []⟩

def SysOp.Sound (Q : Nat → Prop) (s : System) : SysOp → Prop
  | .create => ∃ f, 0x2000 ≤ f ∧ f < s.machine.pmm_bitmap_len ∧ s.machine.bit f = false
  | .call space op => ∀ c, Cursor.at? s.spaces space = some c →
      op.Sound Q c.elem s.machine.pmm_bitmap_len
  | _ => True

structure SysInv (Q : Nat → Prop) (k : Nat) (G : Ledger Owner) (s : System) : Prop where
  heap : HeapInv k s.machine G s.blocks
  spaces : ∀ as ∈ s.spaces, SpaceInv Q k as s.machine G
  roots : (s.spaces.map root).Nodup

/-! ## §2. What the others see. -/

section Others

variable {Q : Nat → Prop} {W : Use Owner → Prop} {k r : Nat} {as : AddressSpace}
  {m m' : Machine} {G G' : Ledger Owner} {blocks : List HeapBlock}

theorem HeapInv.effect (h : HeapInv k m G blocks) (he : SpaceEffect r k m G m' G') :
    HeapInv k m' G' blocks := by
  refine h.keep (h.toHeapTop.effect he) (by rw [he.top]) ?_ ?_ ?_
  · intro v hv
    have := h.le
    exact he.entries v (by omega)
  · intro f v _ hf
    exact he.ext f _ hf id
  · intro f v j _ hf hj
    exact he.slots f _ j hf id (by simp) hj

theorem SpaceInv.confined (h : SpaceInv Q k as m G) (hA : Accounted k m G)
    (hc : Confined W k m G m' G') (hW : ∀ u, OfSpace (root as) u → ¬ W u) :
    SpaceInv Q k as m' G' := by
  refine h.keep (hc.ext _ _ h.is_root (hW _ rfl)) ?_ ?_
  · intro f v hf
    exact hc.ext f _ hf (hW _ rfl)
  · intro v hv
    exact hc.entry hA h.is_root h.not_kernel (fun p => hW _ rfl) hv

theorem OfSpace.unique {u : Use Owner} {r r' : Nat} (h : OfSpace r u) (h' : OfSpace r' u) :
    r = r' := by
  cases u with
  | table r0 p => exact h.symm.trans h'
  | upper p => exact h.elim
  | data d =>
    cases d with
    | page r0 v => exact h.symm.trans h'
    | heap v => exact h.elim

end Others

/-! ## §3. Making and deleting a space. -/

section Life

variable {Q : Nat → Prop} {k : Nat} {ehdr : Option (List Elf64Phdr)} {as : AddressSpace}
  {m m' : Machine} {G : Ledger Owner}

theorem new_vmm_ctx_ne_zero (hA : Accounted k m G) (hk : m.kernel_pml4.toNat = 4096 * k)
    (hframe : ∃ f, 0x2000 ≤ f ∧ f < m.pmm_bitmap_len ∧ m.bit f = false)
    (hrun : AddressSpace.new (x86Mm ehdr) m = some (as, m')) : as.vmm_ctx ≠ 0 := by
  simp only [AddressSpace.new, x86Mm, arch_mm_create_context, Prog.bind_eq_some,
    Prog.pure_eq_some] at hrun
  obtain ⟨p, _, hnew, rfl, rfl⟩ := hrun
  have hlow := (hA.managed k _ hA.kernel).low
  rcases vmm_new_address_space_cases hA.bitmap_len_le hk (by omega) hnew with
    ⟨-, -, hfull⟩ | ⟨c, rfl, -, hlow, -, hwin, -⟩
  · obtain ⟨f, h1, h2, h3⟩ := hframe
    rw [hfull f h1 h2] at h3
    cases h3
  · exact frame_ne_null hlow hwin

theorem SpaceInv.new (hA : Accounted k m G) (hk : m.kernel_pml4.toNat = 4096 * k)
    (hctx : as.vmm_ctx ≠ 0) (hrun : AddressSpace.new (x86Mm ehdr) m = some (as, m')) :
    ∃ G', SpaceEffect (root as) k m G m' G' ∧ SpaceInv Q k as m' G' ∧ G (root as) = none := by
  have htiled := Tiled.new hrun
  simp only [AddressSpace.new, x86Mm, arch_mm_create_context, Prog.bind_eq_some,
    Prog.pure_eq_some] at hrun
  obtain ⟨p, _, hnew, rfl, rfl⟩ := hrun
  obtain ⟨hkept, ⟨hnull, -⟩ | ⟨c, haddr, -, hbit, hA', -, hlow, -⟩⟩ :=
    vmm_new_address_space_accounted hA hk hnew
  · exact absurd hnull hctx
  have hroot : root ⟨[], [⟨vm_user_base, (vm_user_end - vm_user_base) / vm_page_size⟩], p⟩ = c :=
    rootOf_eq haddr
  have hfree := hA.free_of_bit hbit
  have hck : c ≠ k := by
    rintro rfl
    rw [hA.kernel] at hfree
    cases hfree
  refine ⟨Function.update G c (some (.table c [])), ?_, ?_, ?_⟩
  · refine ⟨⟨hA', hkept.vars.len, hkept.vars.kernel, ?_, ?_⟩, ?_⟩
    · intro f u hf _
      exact Ledger.update_keeps hfree _ hf
    · intro f u j hf _ _ hj
      exact hkept.slots f u j hf hj
    · exact KernelKept.of_slots hA hkept.vars.top (fun f p j hf hj => hkept.slots f _ j hf hj)
  · refine ⟨?_, ?_, ?_, htiled, ?_, ?_, ?_⟩
    · rw [hroot]
      exact haddr
    · rw [hroot]
      exact Function.update_self ..
    · rw [hroot]
      exact hck
    · intro reg hreg
      cases hreg
    · intro reg hreg
      cases hreg
    · -- the lower half of the new root is clear
      intro v hv _
      rw [hroot]
      unfold Machine.entry Machine.table pagePath
      rw [Forest.walk_cons, hlow _ (by omega), child_zero]
      rfl
  · rw [hroot]
    exact hfree

/-- The ledger without the tables of root `r`. -/
def Ledger.withoutTables (G : Ledger Owner) (r : Nat) : Ledger Owner := fun f =>
  match G f with
  | some (.table r' p) => if r' = r then none else some (.table r' p)
  | o => o

theorem withoutTables_eq_some {r f : Nat} {u : Use Owner} :
    Ledger.withoutTables G r f = some u ↔ G f = some u ∧ ∀ p, u ≠ .table r p := by
  unfold Ledger.withoutTables
  cases hG : G f with
  | none => simp
  | some w =>
    cases w with
    | table r' p' =>
      simp only
      split
      · next hr =>
          subst hr
          constructor
          · intro h
            cases h
          · rintro ⟨h, hu⟩
            injection h with h
            exact absurd h.symm (hu p')
      · next hr =>
          constructor
          · intro h
            injection h with h
            subst h
            exact ⟨rfl, fun p he => hr (by injection he)⟩
          · exact And.left
    | upper p' =>
      constructor
      · intro h
        injection h with h
        subst h
        exact ⟨rfl, by simp⟩
      · exact And.left
    | data d =>
      constructor
      · intro h
        injection h with h
        subst h
        exact ⟨rfl, by simp⟩
      · exact And.left

theorem destroy_context_effect {ctx : U64} {r : Nat} {u : Unit} (hA : Accounted k m G)
    (hr : G r = some (.table r [])) (hrk : r ≠ k) (hctx : ctx.toNat = 4096 * r)
    (hrun : arch_mm_destroy_context ctx m = some (u, m')) :
    SpaceEffect r k m G m' (Ledger.withoutTables G r) := by
  obtain ⟨hfreed, heq⟩ := arch_mm_destroy_context_eq hA hr hctx
  rw [heq] at hrun
  injection hrun with hrun
  injection hrun with _ hrun
  subst hrun
  have hbits := BitsOnly.giveAll (freedFrames m.slot r) m (BitsOnly.refl m)
    (fun f hf => (hfreed f hf).lt_len hA)
  have hslot : ∀ f u j, G f = some u → j < 512 →
      (m.giveAll (freedFrames m.slot r)).slot f j = m.slot f j :=
    fun f u j hf hj => hbits.slots f j (hA.managed f u hf).bitmap hj
  -- first the ledger forgets the tables, then their bits are cleared
  have hrest : Accounted k m (Ledger.withoutTables G r) := by
    refine hA.restrict (fun f u hf => (withoutTables_eq_some.mp hf).1) ?_ ?_ ?_
    · rw [withoutTables_eq_some]
      exact ⟨hA.kernel, fun p he => hrk (by injection he with he; exact he.symm)⟩
    · intro f r' p hf
      obtain ⟨hf, hne⟩ := withoutTables_eq_some.mp hf
      refine withoutTables_eq_some.mpr ⟨hA.root f r' p hf, fun q he => ?_⟩
      injection he with he
      exact hne p (he ▸ rfl)
    · intro f w i w' c hf hchild hc
      obtain ⟨-, hne⟩ := withoutTables_eq_some.mp hf
      refine withoutTables_eq_some.mpr ⟨hc, ?_⟩
      rintro q rfl
      obtain ⟨p, rfl, -⟩ := Use.child_table hchild
      exact hne p rfl
  have hacc : Accounted k (m.giveAll (freedFrames m.slot r)) (Ledger.withoutTables G r) := by
    refine hrest.congr hbits.vars.len ?_ ?_
    · intro f w j hf _ hj
      exact hslot f w j (withoutTables_eq_some.mp hf).1 hj
    · intro f _ hset hor
      rw [Machine.giveAll_bit, if_neg]
      · exact hset
      · intro hmem
        rcases hfreed f hmem with rfl | ⟨p, -, hf⟩
        · -- frame 0 has no use, and is no part of the bitmap
          rcases hor with hG | hb
          · obtain ⟨w, hw⟩ := Option.ne_none_iff_exists'.mp hG
            have := (hA.managed 0 w (withoutTables_eq_some.mp hw).1).low
            omega
          · have := hb.1
            omega
        · rcases hor with hG | hb
          · obtain ⟨w, hw⟩ := Option.ne_none_iff_exists'.mp hG
            obtain ⟨hw, hne⟩ := withoutTables_eq_some.mp hw
            rw [hf] at hw
            injection hw with hw
            exact hne p hw.symm
          · exact (hA.managed f _ hf).bitmap hb
  refine ⟨⟨hacc, hbits.vars.len, hbits.vars.kernel, ?_, ?_⟩, ?_⟩
  · intro f w hf hw
    refine withoutTables_eq_some.mpr ⟨hf, ?_⟩
    rintro p rfl
    exact hw rfl
  · intro f w j hf _ _ hj
    exact hslot f w j hf hj
  · exact KernelKept.of_slots hA hbits.vars.top (fun f p j hf hj => hslot f _ j hf hj)

theorem destructRegions_effect {r : Nat} (regions : List MemoryMapping) (m m' : Machine)
    (G : Ledger Owner) (u : Unit) (hA : Accounted k m G)
    (hok : (∀ reg ∈ regions, PagesOk Q G r (pageOf reg.base) reg.backing_pages))
    (hpair : regions.Pairwise (fun a b => ∀ v, Covers a v → ¬ Covers b v))
    (hrun : AddressSpace.destructRegions (x86Mm ehdr) regions m = some (u, m')) :
    ∃ G', SpaceEffect r k m G m' G' := by
  induction regions generalizing m m' G u with
  | nil =>
    simp only [AddressSpace.destructRegions, Prog.pure_eq_some] at hrun
    obtain ⟨-, rfl⟩ := hrun
    exact ⟨G, SpaceEffect.refl hA⟩
  | cons reg regions ih =>
    simp only [AddressSpace.destructRegions, Prog.bind_eq_some] at hrun
    obtain ⟨_, m1, hdel, hrest⟩ := hrun
    obtain ⟨hhead, htail⟩ := List.pairwise_cons.mp hpair
    obtain ⟨G1, hfree⟩ := destruct_frees hA (hok reg List.mem_cons_self) hdel
    obtain ⟨G2, heff⟩ := ih m1 m' G1 u hfree.effect.accounted (by
      intro x hx
      refine (hok x (List.mem_cons_of_mem _ hx)).mono fun f i hi hf => ?_
      apply hfree.ext f _ hf
      intro v h1 h2 he
      injection he with he
      injection he with _ he
      refine hhead x hx v ⟨h1, h2⟩ ?_
      unfold Covers
      omega) htail hrest
    exact ⟨G2, hfree.effect.trans heff⟩

theorem SpaceInv.pairwise_covers (h : SpaceInv Q k as m G) :
    as.mapped_regions.Pairwise fun a b => ∀ v, Covers a v → ¬ Covers b v := by
  have hspans := h.tiled.tiles.pairwise_disjoint
  unfold AddressSpace.spans AddressSpace.entries at hspans
  rw [List.map_append, List.pairwise_append, List.map_map] at hspans
  refine (List.pairwise_map.mp hspans.2.1).imp_of_mem ?_
  intro a b ha hb hab v hva hvb
  have hfits := h.tiled.fits_regions
  exact Set.disjoint_left.mp hab ((span_covers (hfits a ha) v).mpr hva)
    ((span_covers (hfits b hb) v).mpr hvb)

theorem SpaceInv.destruct {u : Unit} (h : SpaceInv Q k as m G) (hA : Accounted k m G)
    (hrun : as.destruct (x86Mm ehdr) m = some (u, m')) :
    ∃ G', SpaceEffect (root as) k m G m' G' := by
  simp only [AddressSpace.destruct, Prog.bind_eq_some] at hrun
  obtain ⟨_, m1, hctx, hregions⟩ := hrun
  have heff := destroy_context_effect hA h.is_root h.not_kernel h.ctx hctx
  obtain ⟨G', heff'⟩ := destructRegions_effect as.mapped_regions m1 m' _ u heff.accounted (by
    intro reg hreg
    refine (h.pages reg hreg).mono fun f i _ hf => ?_
    exact withoutTables_eq_some.mpr ⟨hf, by simp⟩) h.pairwise_covers hregions
  exact ⟨G', heff.trans heff'⟩

end Life

/-! ## §4. Runs. -/

section Runs

variable {Q : Nat → Prop} {k : Nat} {ehdr : Option (List Elf64Phdr)} {s s' : System}
  {G : Ledger Owner}

variable {G' : Ledger Owner} {m' m : Machine} {c : Cursor AddressSpace}

theorem SysInv.others (h : SysInv Q k G s) {r : Nat}
    (he : SpaceEffect r k s.machine G m' G') :
    HeapInv k m' G' s.blocks
    ∧ ∀ as ∈ s.spaces, root as ≠ r → SpaceInv Q k as m' G' := by
  refine ⟨h.heap.effect he, fun as has hne => ?_⟩
  refine (h.spaces as has).confined h.heap.accounted he.toConfined ?_
  intro u hu hu'
  exact hne (hu.unique hu')

theorem SysInv.heapConfined (h : SysInv Q k G s)
    {blocks : List HeapBlock}
    (hc : Confined (fun u => ∃ v, u = .data (.heap v)) k s.machine G m' G')
    (hinv : HeapInv k m' G' blocks) :
    SysInv Q k G' { s with machine := m', blocks := blocks } := by
  refine ⟨hinv, ?_, h.roots⟩
  intro as has
  refine (h.spaces as has).confined h.heap.accounted hc ?_
  rintro u hu ⟨v, rfl⟩
  exact hu

theorem OnlyHeap.effect {r : Nat} (h : OnlyHeap k m G)
    (he : SpaceEffect r k m G m' G') : OnlyHeap k m' G' :=
  h.keep he.entries fun f _ hf => he.ext f _ hf id

theorem SysInv.roots_cons (h : SysInv Q k G s)
    (hl : c.toList = s.spaces) : (root c.elem :: c.erase.map root).Nodup := by
  refine ((c.toList_perm.map root).nodup_iff).mp ?_
  rw [hl]
  exact h.roots

theorem SysInv.root_ne (h : SysInv Q k G s) (hl : c.toList = s.spaces)
    {as : AddressSpace} (has : as ∈ c.erase) : root as ≠ root c.elem := by
  intro he
  refine (List.nodup_cons.mp (h.roots_cons hl)).1 ?_
  rw [← he]
  exact List.mem_map_of_mem has

theorem SysInv.step_only (h : SysInv Q k G s) {op : SysOp} (hsound : op.Sound Q s)
    (hstep : sysStep ehdr s op = some s') :
    ∃ G', SysInv Q k G' s' ∧ s'.machine.pmm_bitmap_len = s.machine.pmm_bitmap_len
      ∧ (OnlyHeap k s.machine G → OnlyHeap k s'.machine G') := by
  have hA := h.heap.accounted
  cases op with
  | create =>
    obtain ⟨⟨as, m⟩, hrun, rfl⟩ := Option.map_eq_some_iff.mp hstep
    obtain ⟨G', heff, hinv, hfree⟩ := SpaceInv.new (Q := Q) hA h.heap.kernel
      (new_vmm_ctx_ne_zero hA h.heap.kernel hsound hrun) hrun
    have hfresh : ∀ as' ∈ s.spaces, root as' ≠ root as := by
      intro as' has' he
      rw [← he, (h.spaces as' has').is_root] at hfree
      cases hfree
    obtain ⟨hheap, hspaces⟩ := h.others heff
    refine ⟨G', ⟨hheap, ?_, ?_⟩, heff.len, fun honly => honly.effect heff⟩
    · intro as' has'
      rcases List.mem_cons.mp has' with rfl | has'
      · exact hinv
      · exact hspaces as' has' (hfresh as' has')
    · show (root as :: s.spaces.map root).Nodup
      rw [List.nodup_cons]
      refine ⟨fun hmem => ?_, h.roots⟩
      obtain ⟨as', has', he⟩ := List.mem_map.mp hmem
      exact hfresh as' has' he
  | delete space =>
    obtain ⟨c, hc, hstep⟩ := Option.bind_eq_some_iff.mp hstep
    obtain ⟨⟨u, m⟩, hrun, hstep⟩ := Option.bind_eq_some_iff.mp hstep
    injection hstep with hstep
    subst hstep
    have hl := Cursor.toList_of_at? hc
    obtain ⟨G', heff⟩ := (h.spaces c.elem (Cursor.elem_mem hl)).destruct hA hrun
    obtain ⟨hheap, hspaces⟩ := h.others heff
    refine ⟨G', ⟨hheap, fun as has => ?_, (List.nodup_cons.mp (h.roots_cons hl)).2⟩, heff.len,
      fun honly => honly.effect heff⟩
    exact hspaces as (Cursor.mem_of_erase hl has) (h.root_ne hl has)
  | call space op =>
    obtain ⟨c, hc, hstep⟩ := Option.bind_eq_some_iff.mp hstep
    obtain ⟨⟨as', m⟩, hrun, hstep⟩ := Option.bind_eq_some_iff.mp hstep
    injection hstep with hstep
    subst hstep
    have hl := Cursor.toList_of_at? hc
    obtain ⟨hctx, G', heff, hinv⟩ := (h.spaces c.elem (Cursor.elem_mem hl)).step
      h.heap.ground (hsound c hc) hrun
    obtain ⟨hheap, hspaces⟩ := h.others heff
    have hroot : root as' = root c.elem := congrArg rootOf hctx
    refine ⟨G', ⟨hheap, ?_, ?_⟩, heff.len, fun honly => honly.effect heff⟩
    · intro as has
      rcases List.mem_cons.mp ((c.set_perm as').mem_iff.mp has) with rfl | has
      · exact hinv
      · exact hspaces as (Cursor.mem_of_erase hl has) (h.root_ne hl has)
    · refine ((c.set_perm as').map root).nodup_iff.mpr ?_
      rw [List.map_cons, hroot]
      exact h.roots_cons hl
  | heap op =>
    obtain ⟨t, hrun, rfl⟩ := Option.map_eq_some_iff.mp hstep
    obtain ⟨G', hc, hinv, honly⟩ := HeapInv.step_only h.heap hrun
    exact ⟨G', h.heapConfined hc hinv, hc.len, honly⟩

theorem SysInv.step (h : SysInv Q k G s) {op : SysOp} (hsound : op.Sound Q s)
    (hstep : sysStep ehdr s op = some s') :
    ∃ G', SysInv Q k G' s' ∧ s'.machine.pmm_bitmap_len = s.machine.pmm_bitmap_len := by
  obtain ⟨G', hinv, hlen, -⟩ := h.step_only hsound hstep
  exact ⟨G', hinv, hlen⟩

theorem SysInv.init (hboot : Booted m) :
    ∃ k G, SysInv Q k G (System.init m) := by
  obtain ⟨k, G, hheap, -, -⟩ := HeapInv.booted hboot
  exact ⟨k, G, hheap, fun as has => absurd has List.not_mem_nil, List.nodup_nil⟩

theorem SysInv.run (hboot : Booted m) {ops : List SysOp}
    (hsound : Along (sysStep ehdr) (fun s op => op.Sound Q s) (System.init m) ops)
    (hrun : run (sysStep ehdr) (System.init m) ops = some s) : ∃ k G, SysInv Q k G s := by
  obtain ⟨k, G, h⟩ := SysInv.init (Q := Q) hboot
  obtain ⟨G', h'⟩ := Along.invariant (sysStep ehdr) (fun s => ∃ G, SysInv Q k G s)
    (fun s op s' ⟨G, h⟩ hop hs => (h.step hop hs).imp fun _ => And.left) ops _ s ⟨G, h⟩ hsound hrun
  exact ⟨k, G', h'⟩

theorem exists_single_space {α : Type*} {s0 : System} {ops : List SysOp}
    {f : System → AddressSpace → α} {x : α} {P : System → AddressSpace → Prop}
    (heval : (run (sysStep ehdr) s0 ops).map (fun s => s.spaces.map (f s)) = some [x])
    (h : ∀ s as, run (sysStep ehdr) s0 ops = some s → s.spaces = [as] → f s as = x → P s as) :
    ∃ s as, run (sysStep ehdr) s0 ops = some s ∧ s.spaces = [as] ∧ P s as := by
  obtain ⟨s, hrun, hs⟩ := Option.map_eq_some_iff.mp heval
  obtain ⟨as, hspaces, has⟩ := List.map_eq_singleton_iff.mp hs
  exact ⟨s, as, hrun, hspaces, h s as hrun hspaces has⟩

end Runs

end Quack.Sys
