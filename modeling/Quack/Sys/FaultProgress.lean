/-
  Quack.Sys.FaultProgress
  **WHAT A PAGE FAULT INSIDE A REGION LEADS TO.**

  `address_space::fault_hit` looks the region up, gives the page a frame if it is
  only promised, and maps the whole region again.  Three things can go wrong:
  another region that ends at the address is found first, there is no frame for
  the page (the answer is then that the access may be retried), or there is none
  for the tables.
-/
import Quack.Mm.RegionLookup
import Quack.Sys.LoadReturns

namespace Quack.Sys

open Lib Mm Arch

/-! ## §1. Touching a promised page. -/

theorem livePages_set {pages : List BackingPage} {i v : Nat} (hi : i < pages.length)
    {page : BackingPage} (he : page.exists_ = true) :
    livePages v (pages.set i page) = insert (v + i) (livePages v pages) := by
  ext w
  rw [Finset.mem_insert, mem_livePages, mem_livePages]
  constructor
  · rintro ⟨j, p, hj, hp, rfl⟩
    by_cases hji : j = i
    · exact Or.inl (by rw [hji])
    · rw [List.getElem?_set_ne (Ne.symm hji)] at hj
      exact Or.inr ⟨j, p, hj, hp, rfl⟩
  · rintro (rfl | ⟨j, p, hj, hp, rfl⟩)
    · exact ⟨i, page, List.getElem?_set_self hi, he, rfl⟩
    · by_cases hji : j = i
      · subst hji
        exact ⟨j, page, List.getElem?_set_self hi, he, rfl⟩
      · refine ⟨j, p, ?_, hp, rfl⟩
        rw [List.getElem?_set_ne (Ne.symm hji)]
        exact hj

section Touch

variable {k : Nat} {ehdr : Option (List Elf64Phdr)} {m m' : Machine} {G : Ledger Owner}
  {reg reg' : MemoryMapping} {idx : U64} {b : Bool}

theorem touch_cases (hA : Accounted k m G)
    (h : reg.touch (x86Mm ehdr) idx m = some ((b, reg'), m')) :
    ∃ page, reg.backing_pages[idx.toNat]? = some page
      ∧ ((page.exists_ = true ∨ page.exists_ = false ∧ pmm_alloc 1 m = some (0, m))
          ∧ b = false ∧ reg' = reg ∧ m' = m
        ∨ page.exists_ = false ∧ b = true ∧ freeFrames m' + 1 = freeFrames m
          ∧ (∃ ptr, reg' = reg.setPage idx.toNat ⟨ptr, true, true⟩)
          ∧ ∀ r, G r = some (.table r []) → ∀ q, Forest.Inner LowerSlot q →
            Forest.walk child m'.slot r q = Forest.walk child m.slot r q) := by
  obtain ⟨page, hpage, hsame | ⟨he, hb, f, hlow, hlen, hwin, hbit, rfl, hset⟩⟩ := touch_spec hA h
  · exact ⟨page, hpage, Or.inl hsame⟩
  · refine ⟨page, hpage, Or.inr ⟨he, hb, ?_, ⟨_, hset⟩, fun r hr q hq => ?_⟩⟩
    · exact hA.freeFrames_take (mem_freeSet.mpr ⟨hlow, hlen, hwin, hbit⟩)
    · exact hA.walk_congr hr (fun g p i hg hi => hA.take_slot_eq hlen hbit hg hi.2.1) hq

end Touch

theorem tablesMissing_congr {m m' : Machine} {r : Nat} {pages : Finset Nat}
    (hlt : ∀ w ∈ pages, w < 2 ^ 35)
    (hwalk : ∀ q, Forest.Inner LowerSlot q →
      Forest.walk child m'.slot r q = Forest.walk child m.slot r q) :
    tablesMissing m' r pages = tablesMissing m r pages := by
  unfold tablesMissing
  congr 1
  ext q
  rw [mem_missingPaths, mem_missingPaths]
  refine and_congr_right fun hq => ?_
  obtain ⟨w, hw, hq⟩ := Finset.mem_biUnion.mp hq
  rw [hwalk q (inner_pathsTo (hlt w hw) hq)]

/-! ## §2. A fault. -/

/-- What a fault at an address of region `c` must lead to: an answer; when it is
that the access may be retried, the page has a frame and its entry is present;
without a frame to give, the answer is no and nothing changes. -/
structure FaultProgress (ehdr : Option (List Elf64Phdr)) (as : AddressSpace) (m : Machine)
    (address : U64) (c : Cursor MemoryMapping) : Prop where
  returns : ∃ b as' m', as.fault_hit (x86Mm ehdr) address m = some ((b, as'), m')
  progress : ∀ as' m', as.fault_hit (x86Mm ehdr) address m = some ((true, as'), m') →
    ∃ reg page, as'.mapped_regions[c.before.length]? = some reg
      ∧ reg.backing_pages[pageOf address - pageOf c.elem.base]? = some page
      ∧ page.exists_ = true
      ∧ child (m'.entry (root as) (pageOf address)) = some (frameOf page.ptr)
  exhausted : ∀ m', pmm_alloc 1 m = some (0, m') →
    ∃ m'', as.fault_hit (x86Mm ehdr) address m = some ((false, as), m'')

/-- The page of the address is promised and has no frame. -/
def Overcommitted (c : Cursor MemoryMapping) (address : U64) : Prop :=
  ∃ ptr, c.elem.backing_pages[pageOf address - pageOf c.elem.base]? = some ⟨ptr, false, true⟩

/-- No region listed before `c` ends at the address; and if the page is promised,
there are frames for it and for the tables missing on the way to the pages of the
region. -/
structure FaultReady (as : AddressSpace) (m : Machine) (address : U64)
    (c : Cursor MemoryMapping) : Prop where
  first : ∀ x ∈ c.before, x.shape.span.hi ≠ address.toNat
  frames : Overcommitted c address →
    1 + tablesMissing m (root as) (insert (pageOf address)
      (livePages (pageOf c.elem.base) c.elem.backing_pages)) ≤ freeFrames m

section Fault

variable {Q : Nat → Prop} {k : Nat} {ehdr : Option (List Elf64Phdr)} {as : AddressSpace}
  {m m' : Machine} {G : Ledger Owner} {address : U64} {c : Cursor MemoryMapping}

theorem fault_hit_panics (h : Tiled as) (hl : c.toList = as.mapped_regions)
    (hc : c.elem.shape.span.Covers address.toNat)
    (hends : ¬ ∀ x ∈ c.before, x.shape.span.hi ≠ address.toNat) :
    as.fault_hit (x86Mm ehdr) address m = none := by
  obtain ⟨d, hfind⟩ : ∃ d, as.region_for_address address = some d :=
    h.lookup_some (Cursor.elem_mem hl) hc.1 (Nat.le_of_lt hc.2)
  obtain ⟨hdl, hcov | hhi, -⟩ := h.lookup_cases hfind
  · -- it would be `c`
    exfalso
    rcases Cursor.eq_or_mem (hdl.trans hl.symm) with rfl | ⟨hdc, -⟩ | ⟨-, hda⟩
    · exact hends ((h.lookup_inside hl hc).mp hfind)
    · exact h.region_unique hl hc (List.mem_append_left _ hdc) hcov
    · exact h.region_unique hl hc (List.mem_append_right _ hda) hcov
  · have hend := (h.fits_regions _ (Cursor.elem_mem hdl)).toNat_end
    have hout : ¬ (d.elem.base ≤ address
        ∧ address < d.elem.base + d.elem.size * vm_page_size) := by
      rintro ⟨-, hlt⟩
      have hlt' : address.toNat < (d.elem.base + d.elem.size * vm_page_size).toNat := hlt
      have hhi' : d.elem.base.toNat + 4096 * d.elem.size.toNat = address.toNat := hhi
      have hend' : (d.elem.base + d.elem.size * vm_page_size).toNat
        = d.elem.base.toNat + 4096 * d.elem.size.toNat := hend
      omega
    unfold AddressSpace.fault_hit
    rw [hfind]
    have hstuck : d.elem.fault_hit (x86Mm ehdr) address m = none := by
      unfold MemoryMapping.fault_hit Prog.check
      rw [if_neg hout]
      rfl
    exact Prog.bind_none hstuck

section Covered

variable (hfits : Fits c.elem.shape) (hc : c.elem.shape.span.Covers address.toNat)

include hfits hc

theorem fault_index :
    ((address - c.elem.base) / vm_page_size).toNat = pageOf address - pageOf c.elem.base
    ∧ pageOf c.elem.base ≤ pageOf address
    ∧ pageOf address - pageOf c.elem.base < c.elem.backing_pages.length := by
  have hal : c.elem.base.toNat % 4096 = 0 := hfits.aligned
  have hlo : c.elem.base.toNat ≤ address.toNat := hc.1
  have hhi : address.toNat < c.elem.base.toNat + 4096 * c.elem.size.toNat := hc.2
  rw [toNat_index hc.1, show c.elem.shape.span.lo = c.elem.base.toNat from rfl,
    c.elem.backing_length]
  unfold pageOf
  omega

theorem fault_in_range :
    c.elem.base ≤ address ∧ address < c.elem.base + c.elem.size * vm_page_size := by
  have hend : (c.elem.base + c.elem.size * vm_page_size).toNat
    = c.elem.base.toNat + 4096 * c.elem.size.toNat := hfits.toNat_end
  have hhi : address.toNat < c.elem.base.toNat + 4096 * c.elem.size.toNat := hc.2
  refine ⟨hc.1, ?_⟩
  rw [BitVec.lt_def, hend]
  exact hhi

theorem fault_hit_idle (hl : c.toList = as.mapped_regions)
    (hfind : as.region_for_address address = some c) (hidle : ¬ Overcommitted c address) :
    as.fault_hit (x86Mm ehdr) address m = some ((false, as), m) := by
  obtain ⟨hidx, -, hlt⟩ := fault_index hfits hc
  have hpage := List.getElem?_eq_getElem hlt
  generalize c.elem.backing_pages[pageOf address - pageOf c.elem.base] = page at hpage
  have hquiet : (page.allocated && !page.exists_) = false := by
    rw [Bool.eq_false_iff]
    intro h
    rw [Bool.and_eq_true, Bool.not_eq_true'] at h
    exact hidle ⟨page.ptr, by rw [hpage, ← h.1, ← h.2]⟩
  -- three answers, and none of them asks for the region to be mapped again
  have hres : ∃ res, (res = .invalid_access ∨ res = .not_mapped ∨ res = .invalid)
      ∧ c.elem.fault_hit (x86Mm ehdr) address m = some ((res, c.elem), m) := by
    unfold MemoryMapping.fault_hit
    rw [Prog.bind_apply (Prog.check_apply (fault_in_range hfits hc) m),
      Prog.bind_apply (Prog.ofOption_eq_some.mpr ⟨by rw [hidx]; exact hpage, rfl⟩), hquiet,
      if_neg Bool.false_ne_true]
    by_cases he : page.exists_ = true
    · rw [if_pos he]
      exact ⟨_, Or.inl rfl, rfl⟩
    · rw [if_neg he]
      split
      · exact ⟨_, Or.inr (Or.inl rfl), rfl⟩
      · exact ⟨_, Or.inr (Or.inr rfl), rfl⟩
  obtain ⟨res, hcase, hrun⟩ := hres
  have hself : as.withRegion c c.elem = as := withRegion_self hl
  unfold AddressSpace.fault_hit
  rw [hfind]
  show (c.elem.fault_hit (x86Mm ehdr) address >>= _) m = _
  rw [Prog.bind_apply hrun]
  rcases hcase with rfl | rfl | rfl
  · simp only [hself]
    rfl
  · simp only [hself]
    rfl
  · simp only [hself]
    rfl

theorem fault_hit_promised (hfind : as.region_for_address address = some c)
    (hover : Overcommitted c address) :
    as.fault_hit (x86Mm ehdr) address m
      = (do
          let (touched, reg) ← c.elem.touch (x86Mm ehdr) ((address - c.elem.base) / vm_page_size)
          let as ← as.remap (x86Mm ehdr) c touched reg
          pure (true, as) : Prog Machine (Bool × AddressSpace)) m := by
  obtain ⟨hidx, -, -⟩ := fault_index hfits hc
  obtain ⟨ptr, hpage⟩ := hover
  have hfault : c.elem.fault_hit (x86Mm ehdr) address m
      = (do
          let (touched, reg) ← c.elem.touch (x86Mm ehdr) ((address - c.elem.base) / vm_page_size)
          pure (if touched then .remap_valid else .ignore, reg)
            : Prog Machine (VmFaultResult × MemoryMapping)) m := by
    unfold MemoryMapping.fault_hit
    rw [Prog.bind_apply (Prog.check_apply (fault_in_range hfits hc) m),
      Prog.bind_apply (Prog.ofOption_eq_some.mpr ⟨by rw [hidx]; exact hpage, rfl⟩)]
    rfl
  unfold AddressSpace.fault_hit
  rw [hfind]
  cases htouch : c.elem.touch (x86Mm ehdr) ((address - c.elem.base) / vm_page_size) m with
  | none =>
    rw [Prog.bind_none htouch] at hfault ⊢
    exact Prog.bind_none hfault
  | some res =>
    obtain ⟨⟨touched, reg⟩, m1⟩ := res
    rw [Prog.bind_apply htouch] at hfault ⊢
    refine (Prog.bind_apply hfault).trans ?_
    unfold AddressSpace.remap
    -- `remap_valid` and `ignore` both answer true; they differ in the mapping only
    cases touched with
    | true =>
      cases hmap : as.map_region (x86Mm ehdr) reg m1 with
      | none =>
        refine (Prog.bind_none hmap).trans (Prog.bind_none (Prog.bind_none hmap)).symm
      | some p =>
        refine (Prog.bind_apply hmap).trans (Eq.symm ?_)
        exact Prog.bind_apply (Prog.bind_apply hmap)
    | false => rfl

/-- The region once the page has the frame at `ptr`. -/
structure Refilled (c : Cursor MemoryMapping) (address ptr : U64) (reg : MemoryMapping) : Prop where
  base : reg.base = c.elem.base
  pages : reg.backing_pages
    = c.elem.backing_pages.set (pageOf address - pageOf c.elem.base) ⟨ptr, true, true⟩

theorem Refilled.setPage (ptr : U64) :
    Refilled c address ptr (c.elem.setPage ((address - c.elem.base) / vm_page_size).toNat
      ⟨ptr, true, true⟩) := by
  refine ⟨rfl, ?_⟩
  rw [(fault_index hfits hc).1]
  rfl

variable {ptr : U64} {reg : MemoryMapping} {m1 : Machine} {G1 : Ledger Owner}
  (hb : Refilled c address ptr reg) (hA1 : Accounted k m1 G1)
  (hctx : as.vmm_ctx.toNat = 4096 * root as)
  (hr1 : G1 (root as) = some (.table (root as) []))

include hb hA1 hctx hr1

theorem Refilled.map_returns_iff
    (hwalk : ∀ q, Forest.Inner LowerSlot q →
      Forest.walk child m1.slot (root as) q = Forest.walk child m.slot (root as) q) :
    (∃ m', AddressSpace.mapPages (x86Mm ehdr) as.vmm_ctx reg.base reg.perms reg.cache_mode 0
        reg.backing_pages m1 = some ((), m'))
      ↔ tablesMissing m (root as) (insert (pageOf address)
          (livePages (pageOf c.elem.base) c.elem.backing_pages)) ≤ freeFrames m1 := by
  obtain ⟨-, hle, hlt⟩ := fault_index hfits hc
  have hend := pages_le_of_fits hfits
  have hrow : pageOf reg.base + 0 + reg.backing_pages.length ≤ 2 ^ 35 := by
    rw [hb.base, hb.pages, List.length_set]
    exact hend
  have hiff := mapPages_returns_iff ehdr reg.perms reg.cache_mode 0 hctx reg.backing_pages 0 m1 G1
    hA1 hr1 hrow
  simp only [Nat.zero_le, and_true, Nat.add_zero] at hiff
  rw [hiff, hb.base, hb.pages, livePages_set hlt rfl, Nat.add_sub_cancel' hle,
    tablesMissing_congr _ hwalk]
  intro w hw
  rcases Finset.mem_insert.mp hw with rfl | hw
  · omega
  · have := livePages_lt hw
    omega

theorem Refilled.progress
    (hmap : AddressSpace.mapPages (x86Mm ehdr) as.vmm_ctx reg.base reg.perms reg.cache_mode 0
      reg.backing_pages m1 = some ((), m')) :
    reg.backing_pages[pageOf address - pageOf c.elem.base]? = some ⟨ptr, true, true⟩
    ∧ child (m'.entry (root as) (pageOf address)) = some (frameOf ptr) := by
  obtain ⟨-, hle, hlt⟩ := fault_index hfits hc
  have hend := pages_le_of_fits hfits
  obtain ⟨G2, hre⟩ := mapPages_spec hctx hA1 hr1 (by
    rw [hb.base, hb.pages, List.length_set]
    exact hend) hmap
  have hself : reg.backing_pages[pageOf address - pageOf c.elem.base]?
      = some ⟨ptr, true, true⟩ := by
    rw [hb.pages]
    exact List.getElem?_set_self hlt
  have hentry := hre.inside _ _ hself
  rw [hb.base, Nat.add_sub_cancel' hle, if_pos rfl] at hentry
  refine ⟨hself, ?_⟩
  rw [hentry]
  exact child_leaf _ _ (vmm_arch_to_vmm_flags_lt _ _)

end Covered

section

variable (h : SpaceInv Q k as m G) (hA : Accounted k m G) (hl : c.toList = as.mapped_regions)
  (hfind : as.region_for_address address = some c) (hc : c.elem.shape.span.Covers address.toNat)
  (hover : Overcommitted c address)

include h hA hl hfind hc hover

theorem fault_hit_promised_spec {b : Bool} {as' : AddressSpace}
    (hrun : as.fault_hit (x86Mm ehdr) address m = some ((b, as'), m')) :
    b = true ∧ (pmm_alloc 1 m = some (0, m)
      ∨ 1 + tablesMissing m (root as) (insert (pageOf address)
          (livePages (pageOf c.elem.base) c.elem.backing_pages)) ≤ freeFrames m
        ∧ ∃ reg page, as'.mapped_regions[c.before.length]? = some reg
          ∧ reg.backing_pages[pageOf address - pageOf c.elem.base]? = some page
          ∧ page.exists_ = true
          ∧ child (m'.entry (root as) (pageOf address)) = some (frameOf page.ptr)) := by
  have hfits := h.tiled.fits_regions _ (Cursor.elem_mem hl)
  rw [fault_hit_promised hfits hc hfind hover] at hrun
  obtain ⟨ptr, hpage⟩ := hover
  obtain ⟨⟨touched, reg⟩, m1, htouch, hrun⟩ := Prog.bind_eq_some.mp hrun
  obtain ⟨as1, _, hremap, hrun⟩ := Prog.bind_eq_some.mp hrun
  simp only [Prog.pure_eq_some, Prod.mk.injEq] at hrun
  obtain ⟨⟨rfl, rfl⟩, rfl⟩ := hrun
  refine ⟨rfl, ?_⟩
  obtain ⟨page, hat, ⟨he | halloc, -⟩ | ⟨-, rfl, hcount, ⟨ptr', hset⟩, hwalk⟩⟩ :=
    touch_cases hA htouch
  · rw [(fault_index hfits hc).1, hpage] at hat
    cases hat
    cases he
  · exact Or.inl halloc.2
  · obtain ⟨G1, hf⟩ := touch_fills hA (h.pages_of hl) htouch
    rcases AddressSpace.remap_cases hremap with ⟨hfalse, -⟩ | ⟨-, reg', hmap, rfl⟩
    · cases hfalse
    obtain ⟨rfl, hloop⟩ := AddressSpace.map_region_cases hmap
    -- the page has its frame: mapping the region again takes the missing tables
    have hb : Refilled c address ptr' reg := by
      rw [hset]
      exact Refilled.setPage hfits hc ptr'
    have hA1 := hf.effect.accounted
    have hr1 := hf.ext _ _ h.is_root
    have hle := (hb.map_returns_iff hfits hc hA1 h.ctx hr1 (hwalk _ h.is_root)).mp ⟨_, hloop⟩
    obtain ⟨hself, hchild⟩ := hb.progress hfits hc hA1 h.ctx hr1 hloop
    refine Or.inr ⟨by omega, { reg with mapped := true }, ⟨ptr', true, true⟩, ?_, hself, rfl, hchild⟩
    show (c.before ++ _ :: c.after)[c.before.length]? = _
    rw [List.getElem?_append_right (Nat.le_refl _), Nat.sub_self]
    rfl

theorem fault_hit_promised_returns
    (hfree : 1 + tablesMissing m (root as) (insert (pageOf address)
      (livePages (pageOf c.elem.base) c.elem.backing_pages)) ≤ freeFrames m) :
    ∃ as' m', as.fault_hit (x86Mm ehdr) address m = some ((true, as'), m') := by
  have hfits := h.tiled.fits_regions _ (Cursor.elem_mem hl)
  rw [fault_hit_promised hfits hc hfind hover]
  obtain ⟨ptr, hpage⟩ := hover
  rw [← (fault_index hfits hc).1] at hpage
  obtain ⟨ptr', m1, htouch, -, hcount⟩ := touch_returns ehdr hA hpage rfl rfl (by omega)
  obtain ⟨G1, hf⟩ := touch_fills hA (h.pages_of hl) htouch
  obtain ⟨-, -, ⟨-, hfalse, -⟩ | ⟨-, -, -, -, hwalk⟩⟩ := touch_cases hA htouch
  · cases hfalse
  have hb := Refilled.setPage hfits hc ptr'
  generalize c.elem.setPage ((address - c.elem.base) / vm_page_size).toNat ⟨ptr', true, true⟩ = reg
    at htouch hb
  obtain ⟨m2, hloop⟩ : ∃ m2, AddressSpace.mapPages (x86Mm ehdr) as.vmm_ctx reg.base reg.perms
      reg.cache_mode 0 reg.backing_pages m1 = some ((), m2) := by
    rw [hb.map_returns_iff hfits hc hf.effect.accounted h.ctx (hf.ext _ _ h.is_root)
      (hwalk _ h.is_root)]
    omega
  have hmap : as.map_region (x86Mm ehdr) reg m1 = some ({ reg with mapped := true }, m2) :=
    Prog.bind_apply hloop
  have hremap : as.remap (x86Mm ehdr) c true reg m1
      = some (as.withRegion c { reg with mapped := true }, m2) := Prog.bind_apply hmap
  refine ⟨as.withRegion c { reg with mapped := true }, m2, ?_⟩
  rw [Prog.bind_apply htouch]
  exact Prog.bind_apply hremap

end

theorem SpaceInv.fault_progress_iff (h : SpaceInv Q k as m G) (hA : Accounted k m G)
    (hl : c.toList = as.mapped_regions) (hc : c.elem.shape.span.Covers address.toNat) :
    FaultProgress ehdr as m address c ↔ FaultReady as m address c := by
  have hfits := h.tiled.fits_regions _ (Cursor.elem_mem hl)
  constructor
  · intro hp
    obtain ⟨b, as', m', hrun⟩ := hp.returns
    have hfirst : ∀ x ∈ c.before, x.shape.span.hi ≠ address.toNat := by
      by_contra hends
      rw [fault_hit_panics h.tiled hl hc hends] at hrun
      cases hrun
    have hfind := (h.tiled.lookup_inside hl hc).mpr hfirst
    refine ⟨hfirst, fun hover => ?_⟩
    obtain ⟨rfl, halloc | ⟨hle, -⟩⟩ := fault_hit_promised_spec h hA hl hfind hc hover hrun
    · -- the answer is yes, with no frame to give
      obtain ⟨m'', hno⟩ := hp.exhausted m halloc
      rw [hno] at hrun
      injection hrun with hrun
      injection hrun with hrun
      injection hrun with hrun
      cases hrun
    · exact hle
  · intro hready
    have hfind := (h.tiled.lookup_inside hl hc).mpr hready.first
    by_cases hover : Overcommitted c address
    · have hfree := hready.frames hover
      obtain ⟨as', m', hrun⟩ := fault_hit_promised_returns h hA hl hfind hc hover hfree
      have hframe : ∀ m1, pmm_alloc 1 m ≠ some (0, m1) :=
        fun m1 => pmm_alloc_ne_null hA (by omega)
      refine ⟨⟨true, as', m', hrun⟩, fun as1 m1 hrun1 => ?_, fun m1 halloc => absurd halloc (hframe m1)⟩
      obtain ⟨-, halloc | ⟨-, hprogress⟩⟩ :=
        fault_hit_promised_spec h hA hl hfind hc hover hrun1
      · exact absurd halloc (hframe m)
      · exact hprogress
    · have hrun : as.fault_hit (x86Mm ehdr) address m = some ((false, as), m) :=
        fault_hit_idle hfits hc hl hfind hover
      refine ⟨⟨false, as, m, hrun⟩, fun as1 m1 hrun1 => ?_, fun _ _ => ⟨m, hrun⟩⟩
      rw [hrun] at hrun1
      injection hrun1 with hrun1
      injection hrun1 with hrun1
      injection hrun1 with hrun1
      cases hrun1

end Fault

/-! ## §3. Every reachable state. -/

/-- **Page-fault progress.**  In every state the system reaches by sound calls,
at every address inside a region of a space. -/
theorem page_fault_progress_iff (ehdr : Option (List Elf64Phdr)) (m : Machine) (hboot : Booted m)
    (ops : List SysOp)
    (hops : Along (sysStep ehdr) (fun s op => op.Sound (fun _ => True) s) (System.init m) ops)
    (s : System) (hrun : run (sysStep ehdr) (System.init m) ops = some s)
    (as : AddressSpace) (has : as ∈ s.spaces) (c : Cursor MemoryMapping)
    (hl : c.toList = as.mapped_regions) (address : U64)
    (hc : c.elem.shape.span.Covers address.toNat) :
    FaultProgress ehdr as s.machine address c ↔ FaultReady as s.machine address c := by
  obtain ⟨k, G, h⟩ := SysInv.run hboot hops hrun
  exact (h.spaces as has).fault_progress_iff h.heap.accounted hl hc

/-- A promised page, with frames left. -/
theorem page_fault_progress_promised :
    ∃ s as c, run (sysStep none) (System.init bootMachine)
        [.create, .call 0 (.allocate_at 0x5000 1 0xB 0)] = some s ∧ s.spaces = [as]
      ∧ c.toList = as.mapped_regions ∧ Overcommitted c 0x5008
      ∧ FaultProgress none as s.machine 0x5008 c := by
  have hruns : (run (sysStep none) (System.init bootMachine)
      [.create, .call 0 (.allocate_at 0x5000 1 0xB 0)]).map (fun s =>
        s.spaces.map fun as => as.mapped_regions.map fun reg => (reg.shape, reg.backing_pages))
      = some [[(⟨0x5000, 1⟩, [⟨0, false, true⟩])]] := by
    decide +kernel
  have hframes : (run (sysStep none) (System.init bootMachine)
      [.create, .call 0 (.allocate_at 0x5000 1 0xB 0)]).map (fun s =>
        (s.machine.pmm_bitmap_len, (List.range' 0x200A 22).all fun f => !s.machine.bit f))
      = some (0x2020, true) := by
    decide +kernel
  obtain ⟨s, hrun, hspaces⟩ := Option.map_eq_some_iff.mp hruns
  rw [hrun, Option.map_some, Option.some.injEq, Prod.mk.injEq] at hframes
  obtain ⟨hlen, hbits⟩ := hframes
  obtain ⟨as, hspaces, hregs⟩ := List.map_eq_singleton_iff.mp hspaces
  obtain ⟨reg, hregs, hreg⟩ := List.map_eq_singleton_iff.mp hregs
  simp only [Prod.mk.injEq] at hreg
  obtain ⟨hshape, hpages⟩ := hreg
  have hbase : reg.base = 0x5000 := congrArg MemoryHole.base hshape
  have hover : Overcommitted ⟨[], reg, []⟩ 0x5008 := by
    refine ⟨0, ?_⟩
    show reg.backing_pages[pageOf 0x5008 - pageOf reg.base]? = _
    rw [hbase, hpages]
    rfl
  have hcov : reg.shape.span.Covers (0x5008 : U64).toNat := by
    rw [hshape]
    exact ⟨by decide, by decide⟩
  refine ⟨s, as, ⟨[], reg, []⟩, hrun, hspaces, hregs.symm, hover, ?_⟩
  refine (page_fault_progress_iff none bootMachine bootMachine_booted _ ?_ s hrun as
    (by simp [hspaces]) ⟨[], reg, []⟩ hregs.symm 0x5008 hcov).mpr ⟨by simp, fun _ => ?_⟩
  · refine ⟨⟨0x2009, by decide, by decide, by decide +kernel⟩, fun s _ => ⟨fun _ _ => ?_,
      fun _ _ => trivial⟩⟩
    exact ⟨by decide, by decide⟩
  · -- at most three tables are missing, and there are 22 frames
    have hmissing : tablesMissing s.machine (root as) (insert (pageOf 0x5008)
        (livePages (pageOf reg.base) reg.backing_pages)) ≤ 3 := by
      rw [hpages]
      show (missingPaths _ _ (({pageOf 0x5008} : Finset Nat).biUnion pathsTo)).card ≤ 3
      rw [Finset.singleton_biUnion]
      exact (Finset.card_filter_le _ _).trans Finset.card_le_three
    have hfree : 22 ≤ freeFrames s.machine := by
      refine le_freeFrames 0x200A (by decide) (by omega) (by decide) fun f hlo hhi => ?_
      simpa using List.all_eq_true.mp hbits f (List.mem_range'_1.mpr ⟨hlo, hhi⟩)
    show 1 + tablesMissing s.machine (root as) (insert (pageOf 0x5008)
        (livePages (pageOf reg.base) reg.backing_pages)) ≤ freeFrames s.machine
    omega

/-- **The last frame is gone**: the answer to a fault at a promised page is that
the access may be retried, and the page is still not there. -/
theorem page_fault_without_frames :
    ∃ s as c, run (sysStep none) (System.init bootMachine)
        [.create, .call 0 (.allocate_at 0x5000 64 0xB 0), .call 0 (.touch 0x5000),
          .call 0 (.touch_all 0x5000)] = some s ∧ s.spaces = [as]
      ∧ c.toList = as.mapped_regions ∧ c.elem.base = 0x5000 ∧ c.elem.size = 64
      ∧ ¬ FaultProgress none as s.machine 0x44008 c := by
  have hruns : ((run (sysStep none) (System.init bootMachine)
      [.create, .call 0 (.allocate_at 0x5000 64 0xB 0), .call 0 (.touch 0x5000),
        .call 0 (.touch_all 0x5000)]).map fun s =>
        ((pmm_alloc 1 s.machine).map Prod.fst, s.spaces.map fun as =>
          ((as.fault_hit (x86Mm none) 0x44008 s.machine).map fun r => r.1.1,
            as.mapped_regions.map fun reg => (reg.base, reg.size))))
      = some (some 0, [(some true, [(0x5000, 64)])]) := by
    decide +kernel
  obtain ⟨s, hrun, hs⟩ := Option.map_eq_some_iff.mp hruns
  simp only [Prod.mk.injEq] at hs
  obtain ⟨halloc, hspaces⟩ := hs
  obtain ⟨⟨p, m'⟩, halloc, rfl⟩ := Option.map_eq_some_iff.mp halloc
  obtain ⟨as, hspaces, has⟩ := List.map_eq_singleton_iff.mp hspaces
  simp only [Prod.mk.injEq] at has
  obtain ⟨hfault, hregs⟩ := has
  obtain ⟨reg, hregs, hreg⟩ := List.map_eq_singleton_iff.mp hregs
  simp only [Prod.mk.injEq] at hreg
  refine ⟨s, as, ⟨[], reg, []⟩, hrun, hspaces, hregs.symm, hreg.1, hreg.2, fun hp => ?_⟩
  obtain ⟨m'', hno⟩ := hp.exhausted m' halloc
  rw [hno] at hfault
  cases hfault

end Quack.Sys
