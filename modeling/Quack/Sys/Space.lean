/-
  Quack.Sys.Space
  **AN ADDRESS SPACE AND ITS PAGE TABLES AGREE.**

  `SpaceInv` ties the lists of an `address_space` to the machine: its context is
  a root of its own, its regions and holes tile the user range, every backing
  page has the frame it says, and the entries of the context are those of the
  existing pages of the mapped regions — nothing more.

  A step on the space works on one region, so four lemmas carry everything.
-/
import Quack.Sys.Regions

namespace Quack.Sys

open Lib Mm Arch

/-! ## §1. Regions as ranges of pages. -/

/-- Page `v` belongs to the region. -/
def Covers (reg : MemoryMapping) (v : Nat) : Prop :=
  pageOf reg.base ≤ v ∧ v < pageOf reg.base + reg.backing_pages.length

variable {reg : MemoryMapping} {page : BackingPage}

theorem covers_of_shape {reg' : MemoryMapping} (h : reg'.shape = reg.shape) (v : Nat) :
    Covers reg' v ↔ Covers reg v := by
  unfold MemoryMapping.shape at h
  injection h with hbase hsize
  unfold Covers
  rw [reg'.backing_length, reg.backing_length, hbase, hsize]

theorem covers_of_getElem? {i : Nat}
    (h : reg.backing_pages[i]? = some page) : Covers reg (pageOf reg.base + i) := by
  have := (List.getElem?_eq_some_iff.mp h).1
  unfold Covers
  omega

theorem pages_le_of_fits (h : Fits reg.shape) :
    pageOf reg.base + reg.backing_pages.length ≤ 2 ^ 35 := by
  have hend : reg.base.toNat + 4096 * reg.size.toNat ≤ 2 ^ 47 := h.le_end
  rw [reg.backing_length]
  unfold pageOf
  omega

theorem span_covers (h : Fits reg.shape) (v : Nat) :
    reg.shape.span.Covers (4096 * v) ↔ Covers reg v := by
  have hal : reg.base.toNat % 4096 = 0 := h.aligned
  unfold Covers Span.Covers Span.hi MemoryHole.span MemoryMapping.shape pageOf
  rw [reg.backing_length]
  simp only
  omega

theorem apart_of_tiled {as : AddressSpace} (h : Tiled as) {c : Cursor MemoryMapping}
    (hl : c.toList = as.mapped_regions) {x : MemoryMapping} (hx : x ∈ c.erase) {v : Nat}
    (hc : Covers c.elem v) : ¬ Covers x v := by
  intro hxc
  have hone := h.tiles.cover_le_one (4096 * v)
  rw [cover_spans, ← hl, cover_perm ((c.toList_perm.map MemoryMapping.shape).map MemoryHole.span),
    List.map_cons, List.map_cons, cover_cons,
    if_pos ((span_covers (h.fits_regions _ (Cursor.elem_mem hl)) v).mpr hc)] at hone
  have hpos : 0 < cover ((c.erase.map MemoryMapping.shape).map MemoryHole.span) (4096 * v) := by
    rw [cover_pos_iff]
    refine ⟨x.shape.span, List.mem_map_of_mem (List.mem_map_of_mem hx), ?_⟩
    exact (span_covers (h.fits_regions _ (Cursor.mem_of_erase hl hx)) v).mpr hxc
  omega

/-! ## §2. The invariant. -/

/-- The entry of an existing page of a mapped region. -/
def leafEnt (reg : MemoryMapping) (page : BackingPage) : U64 :=
  page.ptr ||| (vmm_arch_to_vmm_flags reg.perms reg.cache_mode).signExtend 64 ||| VMM_FLAG_PRESENT

theorem child_leafEnt (reg : MemoryMapping) (page : BackingPage) :
    child (leafEnt reg page) = some (frameOf page.ptr) :=
  child_leaf _ _ (vmm_arch_to_vmm_flags_lt _ _)

/-- What the entry of a page shows. -/
def Shows (reg : MemoryMapping) (page : BackingPage) (ent : U64) : Prop :=
  ent = if reg.mapped = true ∧ page.exists_ = true then leafEnt reg page else 0

theorem Shows.absent {ent : U64}
    (h : Shows reg page ent) (he : page.exists_ = false) : ent = 0 := by
  unfold Shows at h
  rwa [if_neg (by simp [he])] at h

theorem Shows.unmapped {ent : U64}
    (h : Shows reg page ent) (hm : reg.mapped = false) : ent = 0 := by
  unfold Shows at h
  rwa [if_neg (by simp [hm])] at h

/-- The root of a space's tables. -/
def root (as : AddressSpace) : Nat := rootOf as.vmm_ctx

structure SpaceInv (Q : Nat → Prop) (k : Nat) (as : AddressSpace) (m : Machine)
    (G : Ledger Owner) : Prop where
  ctx : as.vmm_ctx.toNat = 4096 * root as
  is_root : G (root as) = some (.table (root as) [])
  not_kernel : root as ≠ k
  tiled : Tiled as
  pages : ∀ reg ∈ as.mapped_regions, PagesOk Q G (root as) (pageOf reg.base) reg.backing_pages
  shown : ∀ reg ∈ as.mapped_regions, ∀ (i : Nat) (page : BackingPage),
    reg.backing_pages[i]? = some page →
    Shows reg page (m.entry (root as) (pageOf reg.base + i))
  bare : ∀ v, v < 2 ^ 35 → (∀ reg ∈ as.mapped_regions, ¬ Covers reg v) → m.entry (root as) v = 0

/-- A step on the space, from `m` to `m'`. -/
def Served (Q : Nat → Prop) (k : Nat) (as : AddressSpace) (m : Machine) (G : Ledger Owner)
    (as' : AddressSpace) (m' : Machine) : Prop :=
  as'.vmm_ctx = as.vmm_ctx
    ∧ ∃ G', SpaceEffect (root as) k m G m' G' ∧ SpaceInv Q k as' m' G'

section Core

variable {Q : Nat → Prop} {k : Nat} {as as' : AddressSpace} {m m' : Machine}
  {G G' : Ledger Owner} {c : Cursor MemoryMapping} {reg' : MemoryMapping}

@[simp] theorem unbind_region_ctx (as : AddressSpace) (c : Cursor MemoryMapping) :
    (as.unbind_region c).vmm_ctx = as.vmm_ctx :=
  AddressSpace.putHole_ctx as _

section

variable (h : SpaceInv Q k as m G)

include h

theorem SpaceInv.served (hA : Accounted k m G) :
    Served Q k as m G as m := ⟨rfl, G, SpaceEffect.refl hA, h⟩

theorem SpaceInv.weaken {Q' : Nat → Prop} (hQ : ∀ f, Q f → Q' f) :
    SpaceInv Q' k as m G where
  ctx := h.ctx
  is_root := h.is_root
  not_kernel := h.not_kernel
  tiled := h.tiled
  pages reg hreg i page hi := by
    obtain ⟨hbacked, hforeign, hempty⟩ := h.pages reg hreg i page hi
    refine ⟨hbacked, fun he ha => ?_, hempty⟩
    obtain ⟨haligned, hlt, hq⟩ := hforeign he ha
    exact ⟨haligned, hlt, hQ _ hq⟩
  shown := h.shown
  bare := h.bare

theorem SpaceInv.pages_le (hl : c.toList = as.mapped_regions) :
    pageOf c.elem.base + c.elem.backing_pages.length ≤ 2 ^ 35 := by
  apply pages_le_of_fits
  exact h.tiled.fits_regions _ (Cursor.elem_mem hl)

theorem SpaceInv.keep
    (hroot : G' (root as) = some (.table (root as) []))
    (hext : ∀ f v, G f = some (.data (.page (root as) v)) →
      G' f = some (.data (.page (root as) v)))
    (hen : ∀ v, v < 2 ^ 35 → m'.entry (root as) v = m.entry (root as) v) :
    SpaceInv Q k as m' G' where
  ctx := h.ctx
  is_root := hroot
  not_kernel := h.not_kernel
  tiled := h.tiled
  pages reg hreg := (h.pages reg hreg).mono (fun f i _ hf => hext f _ hf)
  shown reg hreg i page hi := by
    have hle := pages_le_of_fits (h.tiled.fits_regions reg hreg)
    have hlt := (List.getElem?_eq_some_iff.mp hi).1
    rw [hen _ (by omega)]
    exact h.shown reg hreg i page hi
  bare v hv hout := by
    rw [hen v hv]
    exact h.bare v hv hout

section Others

-- what may change belongs to the pages of `c`
variable (hl : c.toList = as.mapped_regions)
    (hext : ∀ f u, G f = some u → (∀ v, Covers c.elem v → u ≠ .data (.page (root as) v)) →
      G' f = some u)
    (hen : ∀ v, v < 2 ^ 35 → ¬ Covers c.elem v → m'.entry (root as) v = m.entry (root as) v)

include hl hen

theorem SpaceInv.others_bare {v : Nat} (hv : v < 2 ^ 35) (hc : ¬ Covers c.elem v)
    (hout : ∀ reg ∈ c.erase, ¬ Covers reg v) : m'.entry (root as) v = 0 := by
  rw [hen v hv hc]
  apply h.bare v hv
  intro reg hreg
  rw [← hl] at hreg
  rcases List.mem_cons.mp (c.toList_perm.mem_iff.mp hreg) with rfl | hold
  · exact hc
  · exact hout reg hold

include hext

theorem SpaceInv.others
    {x : MemoryMapping} (hx : x ∈ c.erase) :
    PagesOk Q G' (root as) (pageOf x.base) x.backing_pages
    ∧ ∀ i page, x.backing_pages[i]? = some page →
        Shows x page (m'.entry (root as) (pageOf x.base + i)) := by
  have hmem : x ∈ as.mapped_regions := Cursor.mem_of_erase hl hx
  have hle := pages_le_of_fits (h.tiled.fits_regions x hmem)
  constructor
  · apply (h.pages x hmem).mono
    intro f i hi hf
    apply hext f _ hf
    intro v hv heq
    injection heq with heq
    injection heq with _ heq
    apply apart_of_tiled h.tiled hl hx hv
    unfold Covers
    omega
  · intro i page hi
    have hlt := (List.getElem?_eq_some_iff.mp hi).1
    rw [hen _ (by omega) (fun hc => apart_of_tiled h.tiled hl hx hc (covers_of_getElem? hi))]
    exact h.shown x hmem i page hi

theorem SpaceInv.replace (hshape : reg'.shape = c.elem.shape)
    (hok : PagesOk Q G' (root as) (pageOf reg'.base) reg'.backing_pages)
    (hshown : ∀ i page, reg'.backing_pages[i]? = some page →
      Shows reg' page (m'.entry (root as) (pageOf reg'.base + i))) :
    SpaceInv Q k (as.withRegion c reg') m' G' := by
  have hsplit : ∀ reg ∈ (as.withRegion c reg').mapped_regions, reg = reg' ∨ reg ∈ c.erase := by
    intro reg hreg
    exact List.mem_cons.mp ((c.set_perm reg').mem_iff.mp hreg)
  refine ⟨h.ctx, hext _ _ h.is_root (by simp), h.not_kernel,
    h.tiled.congr (entries_withRegion hl hshape), ?_, ?_, ?_⟩
  · intro reg hreg
    rcases hsplit reg hreg with rfl | hold
    · exact hok
    · exact (h.others hl hext hen hold).1
  · intro reg hreg
    rcases hsplit reg hreg with rfl | hold
    · exact hshown
    · exact (h.others hl hext hen hold).2
  · intro v hv hout
    have hnew : ¬ Covers c.elem v := by
      rw [← covers_of_shape hshape]
      exact hout reg' ((c.set_perm reg').mem_iff.mpr List.mem_cons_self)
    exact h.others_bare hl hen hv hnew fun reg hold =>
      hout reg ((c.set_perm reg').mem_iff.mpr (List.mem_cons_of_mem _ hold))

theorem SpaceInv.unbind (hclear : ∀ v, Covers c.elem v → m'.entry (root as) v = 0) :
    SpaceInv Q k (as.unbind_region c) m' G' := by
  have hroot : root (as.unbind_region c) = root as := congrArg rootOf (unbind_region_ctx as c)
  refine ⟨?_, ?_, ?_, h.tiled.unbind hl, ?_, ?_, ?_⟩
  · rw [hroot, unbind_region_ctx]
    exact h.ctx
  · rw [hroot]
    exact hext _ _ h.is_root (by simp)
  · rw [hroot]
    exact h.not_kernel
  · intro reg hreg
    rw [hroot]
    exact (h.others hl hext hen hreg).1
  · intro reg hreg
    rw [hroot]
    exact (h.others hl hext hen hreg).2
  · intro v hv hout
    rw [hroot]
    by_cases hc : Covers c.elem v
    · exact hclear v hc
    · exact h.others_bare hl hen hv hc hout

end Others

theorem SpaceInv.bound {base size : U64} (ht : Tiled as')
    (hb : as.Bound as' c base size) : SpaceInv Q k as' m G := by
  have hroot : root as' = root as := congrArg rootOf hb.ctx
  have hsplit : ∀ reg ∈ as'.mapped_regions, reg = c.elem ∨ reg ∈ as.mapped_regions := by
    intro reg hreg
    rw [hb.regions] at hreg
    rw [← hb.others]
    exact List.mem_cons.mp (c.toList_perm.mem_iff.mp hreg)
  have hzero : ∀ (i : Nat) (page : BackingPage), c.elem.backing_pages[i]? = some page →
      page = BackingPage.zero := by
    intro i page hi
    rw [hb.elem] at hi
    exact List.eq_of_mem_replicate (List.mem_of_getElem? hi)
  refine ⟨?_, ?_, ?_, ht, ?_, ?_, ?_⟩
  · rw [hroot, hb.ctx]
    exact h.ctx
  · rw [hroot]
    exact h.is_root
  · rw [hroot]
    exact h.not_kernel
  · intro reg hreg
    rw [hroot]
    rcases hsplit reg hreg with rfl | hold
    · intro i page hi
      rw [hzero i page hi]
      exact PageOk.zero Q G _ _
    · exact h.pages reg hold
  · intro reg hreg i page hi
    rw [hroot]
    rcases hsplit reg hreg with rfl | hold
    · -- the pages were in a hole: no region had them, so their entries are clear
      have hcov := covers_of_getElem? hi
      have hle := pages_le_of_fits (ht.fits_regions _ hreg)
      have hbare : m.entry (root as) (pageOf c.elem.base + i) = 0 := by
        apply h.bare _ (by unfold Covers at hcov; omega)
        intro x hx
        rw [← hb.others] at hx
        exact apart_of_tiled ht hb.regions.symm hx hcov
      rw [hzero i page hi, hbare]
      unfold Shows
      rw [if_neg (by simp [BackingPage.zero])]
    · exact h.shown reg hold i page hi
  · intro v hv hout
    rw [hroot]
    apply h.bare v hv
    intro reg hreg
    apply hout
    rw [hb.regions]
    apply c.toList_perm.mem_iff.mpr
    rw [hb.others]
    exact List.mem_cons_of_mem _ hreg

end

end Core

end Quack.Sys
