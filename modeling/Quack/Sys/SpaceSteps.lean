/-
  Quack.Sys.SpaceSteps
  **EVERY OPERATION OF AN ADDRESS SPACE KEEPS IT COHERENT.**

  `spaceStep` is one call on an address space over the x86_64 machine.  Three
  kinds of call need a condition (`SpaceOp.Sound`): `allocate_at` and `map_at`
  do not check that the range they are asked for wraps around, `map` and
  `map_at` take the caller's word for the physical pages, and `load` writes to
  whatever is behind the region.
-/
import Quack.Sys.Space
import Quack.Mm.Attributes

namespace Quack.Sys

open Lib Mm Arch

/-! ## §1. Calls. -/

inductive SpaceOp where
  | allocate (size : U64) (perms cache : BitVec 32)
  | map (address size : U64) (perms cache : BitVec 32)
  | allocate_at (base size : U64) (perms cache : BitVec 32)
  | map_at (base address size : U64) (perms cache : BitVec 32)
  | destroy (region : Nat)
  | touch (address : U64)
  | touch_all (address : U64)
  | fault_hit (address : U64)
  | load (address : U64) (data : List (BitVec 8))
  | store (address size : U64)
  | map_region (region : Nat)
  | unmap_region (region : Nat)
  | deallocate (region : Nat)
  deriving Repr, DecidableEq

/-- A call that takes a region of the space, by position. -/
def onRegion (as : AddressSpace) (region : Nat)
    (f : MemoryMapping → Prog Machine MemoryMapping) : Prog Machine AddressSpace := do
  let c ← Prog.ofOption (Cursor.at? as.mapped_regions region)
  let m ← f c.elem
  pure (as.withRegion c m)

/-- One call. -/
def spaceCall (ehdr : Option (List Elf64Phdr)) (as : AddressSpace) :
    SpaceOp → Prog Machine AddressSpace
  | .allocate size perms cache => do
    let (_, as) ← as.allocate (x86Mm ehdr) size perms cache
    pure as
  | .map address size perms cache => do
    let (_, as) ← as.map (x86Mm ehdr) address size perms cache
    pure as
  | .allocate_at base size perms cache => do
    let (_, as) ← as.allocate_at (x86Mm ehdr) base size perms cache
    pure as
  | .map_at base address size perms cache => do
    let (_, as) ← as.map_at (x86Mm ehdr) base address size perms cache
    pure as
  | .destroy region => do
    let c ← Prog.ofOption (Cursor.at? as.mapped_regions region)
    as.destroy (x86Mm ehdr) c
  | .touch address => as.touch (x86Mm ehdr) address
  | .touch_all address => as.touch_all (x86Mm ehdr) address
  | .fault_hit address => do
    let (_, as) ← as.fault_hit (x86Mm ehdr) address
    pure as
  | .load address data => as.load (x86Mm ehdr) address data
  | .store address size => do
    let (as, _) ← as.store (x86Mm ehdr) address size
    pure as
  | .map_region region => onRegion as region (as.map_region (x86Mm ehdr))
  | .unmap_region region => onRegion as region (as.unmap_region (x86Mm ehdr))
  | .deallocate region => onRegion as region (fun m => m.deallocate (x86Mm ehdr))

def PhysOk (Q : Nat → Prop) (address size : U64) : Prop :=
  address.toNat % 4096 = 0 ∧ address.toNat + 4096 * size.toNat ≤ 2 ^ 63
    ∧ ∀ i, i < size.toNat → Q (address.toNat / 4096 + i)

/-- A frame the allocator does not hand out. -/
def Unmanaged (len f : Nat) : Prop := f < 0x2000 ∨ len ≤ f

/-- The conditions on a call. -/
def SpaceOp.Sound (Q : Nat → Prop) (as : AddressSpace) (len : Nat) : SpaceOp → Prop
  | .map address size _ _ => PhysOk Q address size
  | .allocate_at base size _ _ => WellPlaced base size
  | .map_at base address size _ _ => WellPlaced base size ∧ PhysOk Q address size
  | .load address _ => ∀ c, as.region_for_address address = some c →
      ∀ page ∈ c.elem.backing_pages, page.exists_ = true → page.allocated = false →
        Unmanaged len (frameOf page.ptr)
  | _ => True

/-- The permissions of a placing call. -/
def SpaceOp.perms : SpaceOp → Option (BitVec 32)
  | .allocate _ perms _ => some perms
  | .map _ _ perms _ => some perms
  | .allocate_at _ _ perms _ => some perms
  | .map_at _ _ _ perms _ => some perms
  | _ => none

/-- The call takes no region out of the tables. -/
def SpaceOp.KeepsMapped : SpaceOp → Prop
  | .unmap_region _ => False
  | _ => True

/-! ## §2. The machine under the spaces. -/

/-- The kernel's own tables, as far as the spaces rely on them. -/
structure Ground (k : Nat) (m : Machine) (G : Ledger Owner) : Prop where
  accounted : Accounted k m G
  kernel : m.kernel_pml4.toNat = 4096 * k
  window : ∀ v, pageOf copy_base ≤ v → v < 2 ^ 35 → m.entry k v = 0

section Steps

variable {Q : Nat → Prop} {k r : Nat} {ehdr : Option (List Elf64Phdr)} {as as' : AddressSpace}
  {m m' m1 : Machine} {G G1 : Ledger Owner} {c : Cursor MemoryMapping}
  {reg reg' : MemoryMapping}

theorem Ground.effect (h : Ground k m G) (he : SpaceEffect r k m G m1 G1) : Ground k m1 G1 where
  accounted := he.accounted
  kernel := by
    rw [he.kernel]
    exact h.kernel
  window v hlo hv := by
    rw [he.entries v hv]
    exact h.window v hlo hv

theorem Served.after (he : SpaceEffect (root as) k m G m1 G1)
    (hs : Served Q k as m1 G1 as' m') : Served Q k as m G as' m' := by
  obtain ⟨hctx, G', he', hinv⟩ := hs
  exact ⟨hctx, G', he.trans he', hinv⟩

/-! ## §3. Mapping. -/

theorem SpaceInv.map_region (h : SpaceInv Q k as m G) (hA : Accounted k m G)
    (hl : c.toList = as.mapped_regions) (hshape : reg.shape = c.elem.shape)
    (hok : PagesOk Q G (root as) (pageOf reg.base) reg.backing_pages)
    (habsent : ∀ i page, reg.backing_pages[i]? = some page →
      page.exists_ = false → m.entry (root as) (pageOf reg.base + i) = 0)
    (hrun : as.map_region (x86Mm ehdr) reg m = some (reg', m')) :
    Served Q k as m G (as.withRegion c reg') m' := by
  obtain ⟨rfl, hmap⟩ := AddressSpace.map_region_cases hrun
  have hfits : Fits reg.shape := by
    rw [hshape]
    exact h.tiled.fits_regions _ (Cursor.elem_mem hl)
  obtain ⟨G', hre⟩ := mapPages_spec h.ctx hA h.is_root (pages_le_of_fits hfits) hmap
  refine ⟨rfl, G', SpaceEffect.of_touches hA hre.accounted h.not_kernel hre.touches, ?_⟩
  refine h.replace hl (fun f u hf _ => hre.touches.ext f u hf) ?_ hshape ?_ ?_
  · intro v hv hout
    rw [← covers_of_shape hshape] at hout
    apply hre.outside v hv
    unfold Covers at hout
    omega
  · exact hok.mono (fun f i _ hf => hre.touches.ext f _ hf)
  · intro i page hi
    unfold Shows
    rw [hre.inside i page hi]
    by_cases he : page.exists_ = true
    · rw [if_pos he, if_pos ⟨rfl, he⟩]
      rfl
    · rw [if_neg he, if_neg (fun hc => he hc.2)]
      exact habsent i page hi (by simpa using he)

theorem withRegion_self (hl : c.toList = as.mapped_regions) : as.withRegion c c.elem = as := by
  unfold AddressSpace.withRegion
  rw [show (c.set c.elem).toList = as.mapped_regions from hl]

section

variable (h : SpaceInv Q k as m G)

include h

theorem SpaceInv.absent (hl : c.toList = as.mapped_regions) {i : Nat}
    {page : BackingPage} (hi : c.elem.backing_pages[i]? = some page)
    (he : page.exists_ = false) : m.entry (root as) (pageOf c.elem.base + i) = 0 := by
  exact (h.shown c.elem (Cursor.elem_mem hl) i page hi).absent he

theorem SpaceInv.remap {b : Bool} (hA : Accounted k m G)
    (hl : c.toList = as.mapped_regions) (hg : Grown b c.elem reg)
    (hok : PagesOk Q G (root as) (pageOf reg.base) reg.backing_pages)
    (hrun : as.remap (x86Mm ehdr) c b reg m = some (as', m')) : Served Q k as m G as' m' := by
  rcases AddressSpace.remap_cases hrun with ⟨hb, rfl, rfl⟩ | ⟨-, reg', hmap, rfl⟩
  · rw [hg.same hb, withRegion_self hl]
    exact h.served hA
  · apply h.map_region hA hl hg.shape hok _ hmap
    intro i page hi he
    have hbase : reg.base = c.elem.base := congrArg MemoryHole.base hg.shape
    rw [hbase]
    exact h.absent hl (hg.absent i page hi he) he

theorem SpaceInv.fills {b : Bool}
    (hf : Fills Q (root as) k b m G reg m1 G1 reg') : SpaceInv Q k as m1 G1 :=
  h.keep (hf.ext _ _ h.is_root) (fun f _ hd => hf.ext f _ hd) (hf.entries h.is_root)

theorem SpaceInv.touched {b : Bool}
    (hl : c.toList = as.mapped_regions)
    (hf : Fills Q (root as) k b m G c.elem m1 G1 reg)
    (hrun : as.remap (x86Mm ehdr) c b reg m1 = some (as', m')) : Served Q k as m G as' m' :=
  Served.after hf.effect ((h.fills hf).remap hf.effect.accounted hl hf.grown hf.ok hrun)

theorem SpaceInv.pages_of (hl : c.toList = as.mapped_regions) :
    PagesOk Q G (root as) (pageOf c.elem.base) c.elem.backing_pages := by
  exact h.pages _ (Cursor.elem_mem hl)

end

/-! ## §4. Placing. -/

variable {base res size address : U64} {init : MemoryMapping → Option MemoryMapping}
  {cache perms : BitVec 32} {data : List (BitVec 8)}

theorem SpaceInv.finish {as1 : AddressSpace} (h0 : SpaceInv Q k as m G) (hA : Accounted k m G)
    (ht : Tiled as1) (hb : as.Bound as1 c base size)
    (hinit : ∀ x y, init x = some y → y.shape = x.shape)
    (hpages : ∀ y, init (MemoryMapping.new base size) = some y →
      PagesOk Q G (root as) (pageOf base) y.backing_pages)
    (hrun : as1.finish (x86Mm ehdr) c init m = some ((res, as'), m')) :
    Served Q k as m G as' m' := by
  have h := h0.bound ht hb
  have hroot : root as1 = root as := congrArg rootOf hb.ctx
  have helem := hb.elem
  have hl := hb.regions.symm
  obtain ⟨reg, reg', hreg, hmap, -, rfl⟩ := AddressSpace.finish_cases hrun
  have hshape := hinit _ _ hreg
  have hbase : reg.base = base := by
    have := congrArg MemoryHole.base hshape
    rw [helem] at this
    exact this
  suffices hserved : Served Q k as1 m G (as1.withRegion c reg') m' by
    obtain ⟨hctx, G', heff, hinv⟩ := hserved
    rw [hroot] at heff
    exact ⟨hctx.trans hb.ctx, G', heff, hinv⟩
  apply h.map_region hA hl hshape _ _ hmap
  · rw [hbase, hroot]
    rw [helem] at hreg
    exact hpages reg hreg
  · -- the region was not mapped before, so none of its entries is set
    intro i page hi _
    have hbase' : reg.base = c.elem.base := congrArg MemoryHole.base hshape
    have hcov := (covers_of_shape hshape _).mp (covers_of_getElem? hi)
    rw [hbase'] at hcov ⊢
    have hlt : i < c.elem.backing_pages.length := by
      unfold Covers at hcov
      omega
    exact (h.shown c.elem (Cursor.elem_mem hl) i _ (List.getElem?_eq_getElem hlt)).unmapped
      (by rw [helem]; rfl)

theorem allocate_pagesOk {v : Nat}
    (hreg : (MemoryMapping.new base size).allocate perms cache = some reg) :
    PagesOk Q G r v reg.backing_pages := by
  unfold MemoryMapping.allocate at hreg
  split at hreg
  · injection hreg with hreg
    subst hreg
    intro i page hi
    simp only [MemoryMapping.withPages, List.getElem?_map, Option.map_eq_some_iff] at hi
    obtain ⟨old, hold, rfl⟩ := hi
    rw [show old = BackingPage.zero from List.eq_of_mem_replicate (List.mem_of_getElem? hold)]
    exact ⟨fun he => (Bool.false_ne_true he).elim, fun he => (Bool.false_ne_true he).elim,
      fun _ => rfl⟩
  · cases hreg

theorem mapToPages_getElem? (pages : List BackingPage) (address : U64) (i : Nat)
    (page : BackingPage) (hend : address.toNat + 4096 * pages.length ≤ 2 ^ 63)
    (h : (MemoryMapping.mapToPages address pages)[i]? = some page) :
    page.exists_ = true ∧ page.allocated = false
      ∧ page.ptr.toNat = address.toNat + 4096 * i ∧ i < pages.length := by
  induction pages generalizing address i page with
  | nil =>
    simp [MemoryMapping.mapToPages] at h
  | cons old pages ih =>
    rw [List.length_cons, Nat.mul_add] at hend
    cases i with
    | zero =>
      injection h with h
      subst h
      refine ⟨rfl, rfl, ?_, by simp⟩
      rw [Nat.mul_zero, Nat.add_zero]
    | succ i =>
      have hnext : (address + vm_page_size).toNat = address.toNat + 4096 := by
        rw [BitVec.toNat_add, toNat_page_size, Nat.mod_eq_of_lt (by omega)]
      rw [MemoryMapping.mapToPages, List.getElem?_cons_succ] at h
      obtain ⟨h1, h2, h3, h4⟩ := ih (address + vm_page_size) i page (by omega) h
      rw [List.length_cons, Nat.mul_add]
      exact ⟨h1, h2, by omega, by omega⟩

theorem map_to_pagesOk {v : Nat}
    (hphys : PhysOk Q address size)
    (hreg : (MemoryMapping.new base size).map_to address perms cache = some reg) :
    PagesOk Q G r v reg.backing_pages := by
  obtain ⟨hal, hend, hQ⟩ := hphys
  have hlen : (MemoryMapping.new base size).backing_pages.length = size.toNat :=
    (MemoryMapping.new base size).backing_length
  unfold MemoryMapping.map_to at hreg
  split at hreg
  · injection hreg with hreg
    subst hreg
    intro i page hi
    obtain ⟨he, ha, hptr, hlt⟩ := mapToPages_getElem? _ address i page (by rw [hlen]; exact hend) hi
    rw [hlen] at hlt
    refine ⟨fun _ hal' => ?_, fun _ _ => ⟨by omega, by omega, ?_⟩, fun hex => ?_⟩
    · rw [ha] at hal'
      cases hal'
    · rw [show page.ptr.toNat / 4096 = address.toNat / 4096 + i by omega]
      exact hQ i hlt
    · rw [he] at hex
      cases hex
  · cases hreg

theorem SpaceInv.placeAnywhere (h : SpaceInv Q k as m G) (hA : Accounted k m G)
    (hinit : ∀ x y, init x = some y → y.shape = x.shape)
    (hpages : ∀ base y, init (MemoryMapping.new base size) = some y →
      PagesOk Q G (root as) (pageOf base) y.backing_pages)
    (hrun : as.placeAnywhere (x86Mm ehdr) size init m = some ((res, as'), m')) :
    Served Q k as m G as' m' := by
  rcases AddressSpace.placeAnywhere_cases hrun with
    ⟨-, -, rfl, rfl⟩ | ⟨hole, as1, mem, hfree, hbind, hfin⟩
  · exact h.served hA
  · obtain ⟨base, ht, hb⟩ := h.tiled.bind_hole hfree hbind
    exact h.finish hA ht hb hinit (hpages base) hfin

theorem SpaceInv.placeAt
    (h : SpaceInv Q k as m G) (hA : Accounted k m G) (hplaced : WellPlaced base size)
    (hinit : ∀ x y, init x = some y → y.shape = x.shape)
    (hpages : ∀ y, init (MemoryMapping.new base size) = some y →
      PagesOk Q G (root as) (pageOf base) y.backing_pages)
    (hrun : as.placeAt (x86Mm ehdr) base size init m = some ((res, as'), m')) :
    Served Q k as m G as' m' := by
  rcases AddressSpace.placeAt_cases hrun with ⟨hbind, -, rfl⟩ | ⟨as1, mem, hbind, hfin⟩
  · -- no hole: the holes were merged, nothing else
    obtain ⟨-, -, ⟨-, rfl, -⟩ | ⟨_, _, hsome, -⟩⟩ := AddressSpace.bind_exact_cases hbind
    · exact ⟨rfl, G, SpaceEffect.refl hA, ⟨h.ctx, h.is_root, h.not_kernel, h.tiled.merge, h.pages,
        h.shown, h.bare⟩⟩
    · cases hsome
  · obtain ⟨ht, hb⟩ := h.tiled.bind_exact hplaced hbind
    exact h.finish hA ht hb hinit hpages hfin

/-! ## §5. Unmapping and freeing. -/

section

variable (h : SpaceInv Q k as m G) (hA : Accounted k m G) (hl : c.toList = as.mapped_regions)

include h hA hl

theorem SpaceInv.clear {u : Unit}
    (hrun : AddressSpace.unmapPages (x86Mm ehdr) as.vmm_ctx c.elem.base 0 c.elem.backing_pages m
      = some (u, m')) :
    ∃ G', Touches (root as) m G m' G' ∧ SpaceEffect (root as) k m G m' G'
      ∧ (∀ v, v < 2 ^ 35 → ¬ Covers c.elem v → m'.entry (root as) v = m.entry (root as) v)
      ∧ ∀ v, Covers c.elem v → m'.entry (root as) v = 0 := by
  obtain ⟨G', hre⟩ := unmapPages_spec h.ctx hA h.is_root (h.pages_le hl) hrun
  refine ⟨G', hre.touches, SpaceEffect.of_touches hA hre.accounted h.not_kernel hre.touches, ?_, ?_⟩
  · intro v hv hout
    apply hre.outside v hv
    unfold Covers at hout
    omega
  · intro v hv
    obtain ⟨i, rfl⟩ := Nat.exists_eq_add_of_le hv.1
    have hi : i < c.elem.backing_pages.length := by
      have := hv.2
      omega
    have hpage := List.getElem?_eq_getElem hi
    rw [hre.inside i _ hpage]
    by_cases he : c.elem.backing_pages[i].exists_ = true
    · rw [if_pos he]
    · rw [if_neg he]
      exact h.absent hl hpage (by simpa using he)

theorem SpaceInv.destroy
    (hrun : as.destroy (x86Mm ehdr) c m = some (as', m')) : Served Q k as m G as' m' := by
  obtain ⟨-, rfl, m1, hunmap, hdel⟩ := AddressSpace.destroy_cases hrun
  obtain ⟨G1, ht, heff, hout, hclear⟩ := h.clear hA hl hunmap
  obtain ⟨G2, hfree⟩ := destruct_frees heff.accounted
    ((h.pages_of hl).mono fun f i _ hf => ht.ext f _ hf) hdel
  have hen := hfree.entries (ht.ext _ _ h.is_root)
  have hle := h.pages_le hl
  refine ⟨unbind_region_ctx as c, G2, heff.trans hfree.effect, h.unbind hl ?_ ?_ ?_⟩
  · intro f u hf hu
    exact hfree.ext f u (ht.ext f u hf) (fun v h1 h2 => hu v ⟨h1, h2⟩)
  · intro v hv hc
    rw [hen v hv, hout v hv hc]
  · intro v hc
    rw [hen v (by unfold Covers at hc; omega), hclear v hc]

theorem SpaceInv.unmap_region
    (hrun : as.unmap_region (x86Mm ehdr) c.elem m = some (reg', m')) :
    Served Q k as m G (as.withRegion c reg') m' := by
  obtain ⟨-, rfl, hunmap⟩ := AddressSpace.unmap_region_cases hrun
  obtain ⟨G1, ht, heff, hout, hclear⟩ := h.clear hA hl hunmap
  refine ⟨rfl, G1, heff, h.replace hl (fun f u hf _ => ht.ext f u hf) hout rfl ?_ ?_⟩
  · exact (h.pages_of hl).mono fun f i _ hf => ht.ext f _ hf
  · intro i page hi
    unfold Shows
    rw [if_neg (by simp)]
    exact hclear _ (covers_of_getElem? hi)

theorem SpaceInv.deallocate
    (hrun : c.elem.deallocate (x86Mm ehdr) m = some (reg', m')) :
    Served Q k as m G (as.withRegion c reg') m' := by
  obtain ⟨hmapped, hshape, hmapped', hzero, G', hfree⟩ := deallocate_frees hA (h.pages_of hl) hrun
  refine ⟨rfl, G', hfree.effect, h.replace hl ?_ ?_ hshape ?_ ?_⟩
  · intro f u hf hu
    exact hfree.ext f u hf (fun v h1 h2 => hu v ⟨h1, h2⟩)
  · intro v hv _
    exact hfree.entries h.is_root v hv
  · intro i page hi
    rw [hzero i page hi]
    exact PageOk.zero Q G' _ _
  · -- no page of an unmapped region has an entry
    intro i page hi
    have hbase : reg'.base = c.elem.base := congrArg MemoryHole.base hshape
    have hcov := (covers_of_shape hshape _).mp (covers_of_getElem? hi)
    have hle := h.pages_le hl
    rw [hbase] at hcov ⊢
    unfold Covers at hcov
    have hlt : i < c.elem.backing_pages.length := by omega
    unfold Shows
    rw [if_neg (by simp [hmapped']), hfree.entries h.is_root _ (by omega)]
    exact (h.shown c.elem (Cursor.elem_mem hl) i _ (List.getElem?_eq_getElem hlt)).unmapped hmapped

end

/-! ## §6. Copying. -/

theorem PageOk.plain {v : Nat} {page : BackingPage} (h : PageOk Q G r v page)
    (hA : Accounted k m G)
    (hforeign : page.exists_ = true → page.allocated = false →
      Unmanaged m.pmm_bitmap_len (frameOf page.ptr)) :
    Plain m G (frameOf page.ptr) ∧ ∀ u, G (frameOf page.ptr) = some u → OfSpace r u := by
  have hunmanaged : Unmanaged m.pmm_bitmap_len (frameOf page.ptr) →
      Plain m G (frameOf page.ptr) ∧ ∀ u, G (frameOf page.ptr) = some u → OfSpace r u := by
    intro hun
    refine ⟨hun.elim Or.inl fun hlen => Or.inr (Or.inl hlen), fun u hu => ?_⟩
    have hman := hA.managed _ u hu
    have hlow := hman.low
    have hlen := hman.len
    unfold Unmanaged at hun
    omega
  by_cases he : page.exists_ = true
  · by_cases ha : page.allocated = true
    · obtain ⟨f, hptr, hf⟩ := h.backed he ha
      have hframe : frameOf page.ptr = f := by
        have := h.frameOf_ptr_eq hA he
        omega
      rw [hframe]
      refine ⟨Or.inr (Or.inr ⟨_, hf⟩), fun u hu => ?_⟩
      rw [hf] at hu
      injection hu with hu
      subst hu
      rfl
    · exact hunmanaged (hforeign he (by simpa using ha))
  · -- a page without a frame is copied to and from frame 0
    apply hunmanaged
    rw [h.empty (by simpa using he)]
    exact Or.inl (by decide)

theorem SpaceInv.copied {P : Nat → Prop} (h : SpaceInv Q k as m G) (hA : Accounted k m G)
    (hc : Copied P k m G m1 G1) (hP : ∀ f, P f → Plain m G f) : SpaceInv Q k as m1 G1 := by
  apply h.keep (hc.ext _ _ h.is_root) (fun f _ hd => hc.ext f _ hd)
  intro v hv
  apply hA.entry_congr h.is_root hv
  intro f p j hf hj
  apply hc.slots f _ j hf _ _ hj
  · intro p' he
    injection he with he
    exact h.not_kernel he
  · intro hp
    obtain ⟨d, hd⟩ := (hP f hp).is_data hA hf
    cases hd

theorem offset_le (hfits : Fits reg.shape) (hlo : reg.base ≤ address)
    (hhi : address ≤ reg.base + reg.size * vm_page_size) :
    (address - reg.base).toNat ≤ 4096 * reg.size.toNat := by
  have hend : (reg.base + reg.size * vm_page_size).toNat = reg.base.toNat + 4096 * reg.size.toNat :=
    hfits.toNat_end
  rw [BitVec.le_def] at hlo hhi
  rw [BitVec.toNat_sub_of_le (BitVec.le_def.mpr hlo)]
  omega

theorem SpaceInv.load (h : SpaceInv Q k as m G)
    (hg : Ground k m G)
    (hsound : (SpaceOp.load address data).Sound Q as m.pmm_bitmap_len)
    (hrun : as.load (x86Mm ehdr) address data m = some (as', m')) : Served Q k as m G as' m' := by
  rcases AddressSpace.load_cases hrun with
    ⟨rfl, rfl⟩ | ⟨c, b, reg, m1, m2, hfind, hensure, hload, hremap⟩
  · exact h.served hg.accounted
  · obtain ⟨hl, hlo, hhi⟩ := AddressSpace.region_for_address_some hfind
    obtain ⟨G1, hf⟩ := ensure_load_store_fills hg.accounted (h.pages_of hl) hensure
    have h1 := h.fills hf
    have hg1 := hg.effect hf.effect
    have hfits : Fits c.elem.shape := by
      exact h.tiled.fits_regions _ (Cursor.elem_mem hl)
    have hoff := offset_le hfits hlo hhi
    rw [show c.elem.size = reg.size from (congrArg MemoryHole.size hf.grown.shape).symm] at hoff
    have hpages : ∀ f, framesOf reg.backing_pages f →
        Plain m1 G1 f ∧ ∀ u, G1 f = some u → OfSpace (root as) u := by
      rintro f ⟨page, hmem, rfl⟩
      obtain ⟨i, hi⟩ := List.getElem?_of_mem hmem
      apply (hf.ok i page hi).plain hg1.accounted
      intro he ha
      rw [hf.effect.len]
      exact hsound c hfind page (List.mem_of_getElem? (hf.grown.foreign i page hi ha)) he ha
    obtain ⟨G2, hc⟩ := arch_mm_mapping_load_spec hg1.accounted hg1.kernel hg1.window hoff
      (fun f hp => (hpages f hp).1) hload
    have heff := SpaceEffect.of_copied hc (fun f u hp hu => (hpages f hp).2 u hu)
    have h2 := h1.copied hg1.accounted hc (fun f hp => (hpages f hp).1)
    refine Served.after (hf.effect.trans heff) ?_
    exact h2.remap hc.accounted hl hf.grown (hf.ok.mono fun f i _ hd => hc.ext f _ hd) hremap

theorem SpaceInv.store (h : SpaceInv Q k as m G)
    (hg : Ground k m G)
    (hrun : as.store (x86Mm ehdr) address size m = some ((as', data), m')) :
    Served Q k as m G as' m' := by
  rcases AddressSpace.store_cases hrun with
    ⟨rfl, rfl⟩ | ⟨c, b, reg, m1, m2, hfind, hensure, hstore, hremap⟩
  · exact h.served hg.accounted
  · obtain ⟨hl, -, -⟩ := AddressSpace.region_for_address_some hfind
    obtain ⟨G1, hf⟩ := ensure_load_store_fills hg.accounted (h.pages_of hl) hensure
    have h1 := h.fills hf
    have hg1 := hg.effect hf.effect
    obtain ⟨G2, hc⟩ := arch_mm_mapping_store_spec hg1.accounted hg1.kernel hg1.window hstore
    have heff := SpaceEffect.of_copied (r := root as) hc (fun f u hp _ => hp.elim)
    have h2 := h1.copied hg1.accounted hc (fun f hp => hp.elim)
    refine Served.after (hf.effect.trans heff) ?_
    exact h2.remap hc.accounted hl hf.grown (hf.ok.mono fun f i _ hd => hc.ext f _ hd) hremap

/-! ## §7. One call. -/

theorem onRegion_cases {region : Nat} {f : MemoryMapping → Prog Machine MemoryMapping}
    (h : onRegion as region f m = some (as', m')) :
    ∃ c reg', c.toList = as.mapped_regions ∧ f c.elem m = some (reg', m')
      ∧ as' = as.withRegion c reg' := by
  simp only [onRegion, Prog.bind_eq_some, Prog.ofOption_eq_some, Prog.pure_eq_some] at h
  obtain ⟨c, _, ⟨hc, rfl⟩, reg', _, hf, rfl, rfl⟩ := h
  exact ⟨c, reg', Cursor.toList_of_at? hc, hf, rfl⟩

theorem dropped_cases {β : Type} {x : Prog Machine (β × AddressSpace)}
    (h : (do let (_, as) ← x; pure as) m = some (as', m')) : ∃ b, x m = some ((b, as'), m') := by
  simp only [Prog.bind_eq_some, Prog.pure_eq_some] at h
  obtain ⟨⟨b, _⟩, _, hx, rfl, rfl⟩ := h
  exact ⟨b, hx⟩

theorem SpaceInv.step {op : SpaceOp} (h : SpaceInv Q k as m G) (hg : Ground k m G)
    (hsound : op.Sound Q as m.pmm_bitmap_len)
    (hrun : spaceCall ehdr as op m = some (as', m')) : Served Q k as m G as' m' := by
  have hA := hg.accounted
  cases op with
  | allocate size perms cache =>
    obtain ⟨_, hcall⟩ := dropped_cases hrun
    exact h.placeAnywhere hA (fun _ _ => MemoryMapping.allocate_shape)
      (fun _ _ => allocate_pagesOk) hcall
  | map address size perms cache =>
    obtain ⟨_, hcall⟩ := dropped_cases hrun
    exact h.placeAnywhere hA (fun _ _ => MemoryMapping.map_to_shape)
      (fun _ _ => map_to_pagesOk hsound) hcall
  | allocate_at base size perms cache =>
    obtain ⟨_, hcall⟩ := dropped_cases hrun
    exact h.placeAt hA hsound (fun _ _ => MemoryMapping.allocate_shape)
      (fun _ => allocate_pagesOk) hcall
  | map_at base address size perms cache =>
    obtain ⟨_, hcall⟩ := dropped_cases hrun
    exact h.placeAt hA hsound.1 (fun _ _ => MemoryMapping.map_to_shape)
      (fun _ => map_to_pagesOk hsound.2) hcall
  | destroy region =>
    simp only [spaceCall, Prog.bind_eq_some, Prog.ofOption_eq_some] at hrun
    obtain ⟨c, _, ⟨hc, rfl⟩, hcall⟩ := hrun
    exact h.destroy hA (Cursor.toList_of_at? hc) hcall
  | touch address =>
    rcases AddressSpace.touch_cases hrun with ⟨rfl, rfl⟩ | ⟨c, b, reg, m1, hfind, htouch, hremap⟩
    · exact h.served hA
    · obtain ⟨hl, -, -⟩ := AddressSpace.region_for_address_some hfind
      obtain ⟨G1, hf⟩ := touch_fills hA (h.pages_of hl) htouch
      exact h.touched hl hf hremap
  | touch_all address =>
    rcases AddressSpace.touch_all_cases hrun with
      ⟨rfl, rfl⟩ | ⟨c, b, reg, m1, hfind, htouch, hremap⟩
    · exact h.served hA
    · obtain ⟨hl, -, -⟩ := AddressSpace.region_for_address_some hfind
      obtain ⟨G1, hf⟩ := touch_all_fills hA (h.pages_of hl) htouch
      exact h.touched hl hf hremap
  | fault_hit address =>
    obtain ⟨_, hcall⟩ := dropped_cases hrun
    rcases AddressSpace.fault_hit_cases hcall with
      ⟨rfl, rfl⟩ | ⟨c, b, reg, m1, hfind, hfault, hremap⟩
    · exact h.served hA
    · obtain ⟨hl, -, -⟩ := AddressSpace.region_for_address_some hfind
      obtain ⟨G1, hf⟩ := fault_hit_fills hA (h.pages_of hl) hfault
      exact h.touched hl hf hremap
  | load address data => exact h.load hg hsound hrun
  | store address size =>
    simp only [spaceCall, Prog.bind_eq_some, Prog.pure_eq_some] at hrun
    obtain ⟨⟨_, _⟩, _, hcall, rfl, rfl⟩ := hrun
    exact h.store hg hcall
  | map_region region =>
    obtain ⟨c, reg', hl, hcall, rfl⟩ := onRegion_cases hrun
    exact h.map_region hA hl rfl (h.pages_of hl) (fun i page hi he => h.absent hl hi he) hcall
  | unmap_region region =>
    obtain ⟨c, reg', hl, hcall, rfl⟩ := onRegion_cases hrun
    exact h.unmap_region hA hl hcall
  | deallocate region =>
    obtain ⟨c, reg', hl, hcall, rfl⟩ := onRegion_cases hrun
    exact h.deallocate hA hl hcall

theorem spaceCall_regions {op : SpaceOp} (hop : op.KeepsMapped) (hrun : spaceCall ehdr as op m = some (as', m')) :
    as.Keeps as' ∨ ∃ perms, op.perms = some perms ∧ as.Placed perms as' := by
  have hplaced : ∀ perms, op.perms = some perms → as.Keeps as' ∨ as.Placed perms as' →
      as.Keeps as' ∨ ∃ perms, op.perms = some perms ∧ as.Placed perms as' :=
    fun perms hp h => h.imp id fun h => ⟨perms, hp, h⟩
  cases op with
  | allocate size perms cache =>
    obtain ⟨_, hcall⟩ := dropped_cases hrun
    exact hplaced perms rfl
      (AddressSpace.placeAnywhere_placed (fun _ _ => MemoryMapping.allocate_perms) hcall)
  | map address size perms cache =>
    obtain ⟨_, hcall⟩ := dropped_cases hrun
    exact hplaced perms rfl
      (AddressSpace.placeAnywhere_placed (fun _ _ => MemoryMapping.map_to_perms) hcall)
  | allocate_at base size perms cache =>
    obtain ⟨_, hcall⟩ := dropped_cases hrun
    exact hplaced perms rfl
      (AddressSpace.placeAt_placed (fun _ _ => MemoryMapping.allocate_perms) hcall)
  | map_at base address size perms cache =>
    obtain ⟨_, hcall⟩ := dropped_cases hrun
    exact hplaced perms rfl
      (AddressSpace.placeAt_placed (fun _ _ => MemoryMapping.map_to_perms) hcall)
  | destroy region =>
    simp only [spaceCall, Prog.bind_eq_some, Prog.ofOption_eq_some] at hrun
    obtain ⟨c, _, ⟨hc, rfl⟩, hcall⟩ := hrun
    exact Or.inl (AddressSpace.destroy_keeps (Cursor.toList_of_at? hc) hcall)
  | touch address => exact Or.inl (AddressSpace.touch_refills hrun).keeps
  | touch_all address => exact Or.inl (AddressSpace.touch_all_refills hrun).keeps
  | fault_hit address =>
    obtain ⟨_, hcall⟩ := dropped_cases hrun
    exact Or.inl (AddressSpace.fault_hit_refills hcall).keeps
  | load address data => exact Or.inl (AddressSpace.load_refills hrun).keeps
  | store address size =>
    simp only [spaceCall, Prog.bind_eq_some, Prog.pure_eq_some] at hrun
    obtain ⟨⟨_, _⟩, _, hcall, rfl, rfl⟩ := hrun
    exact Or.inl (AddressSpace.store_refills hcall).keeps
  | map_region region =>
    obtain ⟨c, reg', hl, hcall, rfl⟩ := onRegion_cases hrun
    exact Or.inl (AddressSpace.Keeps.map_region hl (MemoryMapping.Same.refl _) hcall)
  | unmap_region region => exact hop.elim
  | deallocate region =>
    obtain ⟨c, reg', hl, hcall, rfl⟩ := onRegion_cases hrun
    exact Or.inl (AddressSpace.deallocate_keeps hl hcall)

theorem spaceCall_attrs {op : SpaceOp} (hrun : spaceCall ehdr as op m = some (as', m')) :
    (∀ reg' ∈ as'.mapped_regions, ∃ reg ∈ as.mapped_regions, reg'.attrs = reg.attrs)
    ∨ ∃ perms, op.perms = some perms ∧ as.Placed perms as' := by
  by_cases hop : op.KeepsMapped
  · refine (spaceCall_regions hop hrun).imp (fun hkeep reg' hreg' => ?_) id
    obtain ⟨reg, hreg, hattrs, -⟩ := hkeep reg' hreg'
    exact ⟨reg, hreg, hattrs⟩
  · cases op with
    | unmap_region region =>
      obtain ⟨c, m1, hl, hcall, rfl⟩ := onRegion_cases hrun
      obtain ⟨-, rfl, -⟩ := AddressSpace.unmap_region_cases hcall
      left
      intro reg' hreg'
      rcases List.mem_cons.mp ((c.set_perm _).mem_iff.mp hreg') with rfl | hold
      · exact ⟨c.elem, Cursor.elem_mem hl, rfl⟩
      · exact ⟨reg', Cursor.mem_of_erase hl hold, rfl⟩
    | _ => exact absurd trivial hop

end Steps

end Quack.Sys
