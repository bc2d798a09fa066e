/-
  Quack.Mm.RegionLookup
  **WHICH REGION AN ADDRESS BELONGS TO.**

  `region_for_address` walks the list of regions and takes the first one with
  `_base <= address <= _base + _size * vm_page_size`: the address behind the last
  page counts as inside.  At the end of a region the answer is that region, even
  where another one begins; and the page index computed from it is one too far.

  A space is used through all of its calls (`VmCall`); those that place a region
  must ask for whole pages that do not wrap around, or be refused.

    • `region_lookup_iff`     — when the region found is the right one.
-/
import Quack.Mm.Tiling
import Quack.Mm.Attributes

namespace Quack.Mm

open Lib

variable {σ : Type} {arch : ArchMm σ}

/-! ## §1. All calls of a space. -/

/-- `destroy(uintptr_t)`; without a region the null pointer is followed. -/
def AddressSpace.destroy_at (arch : ArchMm σ) (as : AddressSpace) (address : U64) :
    Prog σ AddressSpace := do
  let region ← Prog.ofOption (as.region_for_address address)
  as.destroy arch region

/-- The calls of an address space; a region is given by its position. -/
inductive VmCall where
  | place (op : VmOp)
  | destroy_at (address : U64)
  | touch (address : U64)
  | touch_all (address : U64)
  | load (address : U64) (data : List (BitVec 8))
  | store (address size : U64)
  | fault_hit (address : U64)
  | map_region (region : Nat)
  | unmap_region (region : Nat)
  | deallocate (region : Nat)
  deriving Repr, DecidableEq

/-- A method of a region, applied in place. -/
def AddressSpace.atRegion (as : AddressSpace) (region : Nat)
    (f : MemoryMapping → Prog σ MemoryMapping) : Prog σ AddressSpace := do
  let c ← Prog.ofOption (Cursor.at? as.mapped_regions region)
  let m ← f c.elem
  pure (as.withRegion c m)

def vmCall (arch : ArchMm σ) (s : AddressSpace × σ) : VmCall → Option (AddressSpace × σ)
  | .place op => vmStep arch s op
  | .destroy_at address => s.1.destroy_at arch address s.2
  | .touch address => s.1.touch arch address s.2
  | .touch_all address => s.1.touch_all arch address s.2
  | .load address data => s.1.load arch address data s.2
  | .store address size => (s.1.store arch address size s.2).map fun r => (r.1.1, r.2)
  | .fault_hit address => (s.1.fault_hit arch address s.2).map fun r => (r.1.2, r.2)
  | .map_region region => s.1.atRegion region (s.1.map_region arch) s.2
  | .unmap_region region => s.1.atRegion region (s.1.unmap_region arch) s.2
  | .deallocate region => s.1.atRegion region (fun m => m.deallocate arch) s.2

/-- `bind_exact` finds no hole for the range. -/
def Refused (as : AddressSpace) (base size : U64) : Prop :=
  ∀ hole ∈ as.merge_holes.memory_holes, AddressSpace.holeContains base size hole = false

def VmCall.Proper (as : AddressSpace) : VmCall → Prop
  | .place (.allocate_at base size _ _) => WellPlaced base size ∨ Refused as base size
  | .place (.map_at base _ size _ _) => WellPlaced base size ∨ Refused as base size
  | _ => True

variable {as as' : AddressSpace} {c : Cursor MemoryMapping} {m : MemoryMapping}

theorem Tiled.placeAt_proper {base size r : U64}
    {init : MemoryMapping → Option MemoryMapping} {s s' : σ} (h : Tiled as)
    (hproper : WellPlaced base size ∨ Refused as base size)
    (hinit : ∀ m m', init m = some m' → m'.shape = m.shape)
    (hp : as.placeAt arch base size init s = some ((r, as'), s')) : Tiled as' := by
  rcases hproper with hplaced | hrefused
  · exact h.placeAt hplaced hinit hp
  -- a refused call only merges holes
  rcases AddressSpace.placeAt_cases hp with ⟨hb, -, -⟩ | ⟨as1, mem, hb, -⟩
  · obtain ⟨-, -, ⟨-, rfl, -⟩ | ⟨_, _, he, -⟩⟩ := AddressSpace.bind_exact_cases hb
    · exact h.merge
    · cases he
  · obtain ⟨-, -, ⟨he, -⟩ | ⟨target, _, -, htarget, hc, -⟩⟩ := AddressSpace.bind_exact_cases hb
    · cases he
    · have hmem := Cursor.elem_mem (Cursor.toList_of_mem htarget)
      rw [hrefused _ hmem] at hc
      cases hc

theorem Tiled.withRegion
    (h : Tiled as) (hl : c.toList = as.mapped_regions) (hs : m.shape = c.elem.shape) :
    Tiled (as.withRegion c m) :=
  h.congr (entries_withRegion hl hs)

theorem Tiled.remap {b : Bool}
    {s s' : σ} (h : Tiled as) (hl : c.toList = as.mapped_regions)
    (hsame : c.elem.Same m) (hr : as.remap arch c b m s = some (as', s')) : Tiled as' := by
  have hs : m.shape = c.elem.shape := congrArg Prod.fst hsame.1
  rcases AddressSpace.remap_cases hr with ⟨-, rfl, -⟩ | ⟨-, m', hmap, rfl⟩
  · exact h.withRegion hl hs
  · obtain ⟨rfl, -⟩ := AddressSpace.map_region_cases hmap
    exact h.withRegion hl hs

theorem Tiled.refills (h : Tiled as) (hr : AddressSpace.Refills arch as as') : Tiled as' := by
  rcases hr with rfl | ⟨c, b, m, t, t', hl, hsame, hremap⟩
  · exact h
  · exact h.remap hl hsame hremap

theorem Tiled.atRegion {region : Nat}
    {f : MemoryMapping → Prog σ MemoryMapping} {s s' : σ} (h : Tiled as)
    (hf : ∀ m m' t t', f m t = some (m', t') → m'.shape = m.shape)
    (hr : as.atRegion region f s = some (as', s')) : Tiled as' := by
  simp only [AddressSpace.atRegion, Prog.bind_eq_some, Prog.ofOption_eq_some,
    Prog.pure_eq_some] at hr
  obtain ⟨c, _, ⟨hc, -⟩, m, _, hm, rfl, -⟩ := hr
  exact h.withRegion (Cursor.toList_of_at? hc) (hf _ _ _ _ hm)

theorem Tiled.place {s s' : AddressSpace × σ} {op : VmOp} (h : Tiled s.1)
    (hp : (VmCall.place op).Proper s.1) (hs : vmCall arch s (.place op) = some s') :
    Tiled s'.1 := by
  cases op with
  | allocate_at base size perms cache =>
    obtain ⟨⟨⟨r, as'⟩, t⟩, hcall, rfl⟩ := Option.map_eq_some_iff.mp hs
    exact h.placeAt_proper hp (fun _ _ => MemoryMapping.allocate_shape) hcall
  | map_at base address size perms cache =>
    obtain ⟨⟨⟨r, as'⟩, t⟩, hcall, rfl⟩ := Option.map_eq_some_iff.mp hs
    exact h.placeAt_proper hp (fun _ _ => MemoryMapping.map_to_shape) hcall
  -- the other three are given no address
  | allocate size perms cache =>
    have hplaced : (VmOp.allocate size perms cache).Placed := trivial
    exact h.step hplaced hs
  | map address size perms cache =>
    have hplaced : (VmOp.map address size perms cache).Placed := trivial
    exact h.step hplaced hs
  | destroy region =>
    have hplaced : (VmOp.destroy region).Placed := trivial
    exact h.step hplaced hs

theorem Tiled.call {s s' : AddressSpace × σ} {call : VmCall} (h : Tiled s.1)
    (hp : call.Proper s.1) (hs : vmCall arch s call = some s') : Tiled s'.1 := by
  cases call with
  | place op => exact h.place hp hs
  | destroy_at address =>
    obtain ⟨c, _, hfind, hd⟩ := Prog.bind_eq_some.mp hs
    obtain ⟨hfind, -⟩ := Prog.ofOption_eq_some.mp hfind
    exact h.destroy (AddressSpace.region_for_address_some hfind).1 hd
  -- a region found by address is given other pages, in the same place
  | touch address => exact h.refills (AddressSpace.touch_refills hs)
  | touch_all address => exact h.refills (AddressSpace.touch_all_refills hs)
  | load address data => exact h.refills (AddressSpace.load_refills hs)
  | store address size =>
    obtain ⟨⟨⟨as', data⟩, t⟩, hcall, rfl⟩ := Option.map_eq_some_iff.mp hs
    exact h.refills (AddressSpace.store_refills hcall)
  | fault_hit address =>
    obtain ⟨⟨⟨b, as'⟩, t⟩, hcall, rfl⟩ := Option.map_eq_some_iff.mp hs
    exact h.refills (AddressSpace.fault_hit_refills hcall)
  | map_region region =>
    refine h.atRegion (fun m m' _ _ hm => ?_) hs
    rw [(AddressSpace.map_region_cases hm).1]
    rfl
  | unmap_region region =>
    refine h.atRegion (fun m m' _ _ hm => ?_) hs
    rw [(AddressSpace.unmap_region_cases hm).2.1]
    rfl
  | deallocate region =>
    refine h.atRegion (fun m m' _ _ hm => ?_) hs
    simp only [MemoryMapping.deallocate, Prog.bind_eq_some, Prog.pure_eq_some] at hm
    obtain ⟨_, _, -, _, _, -, rfl, -⟩ := hm
    rfl

theorem Tiled.calls {s0 s1 : σ} {as0 : AddressSpace}
    (hnew : AddressSpace.new arch s0 = some (as0, s1)) {calls : List VmCall}
    (hproper : Along (vmCall arch) (fun s call => call.Proper s.1) (as0, s1) calls)
    {s : AddressSpace × σ} (hrun : run (vmCall arch) (as0, s1) calls = some s) : Tiled s.1 :=
  Along.invariant (vmCall arch) (fun s => Tiled s.1) (fun _ _ _ h hp hs => h.call hp hs)
    calls (as0, s1) s (Tiled.new hnew) hproper hrun

/-! ## §2. The region found. -/

section Lookup

variable {as : AddressSpace} {address : U64} {c : Cursor MemoryMapping}

theorem Tiled.lookup_cases (h : Tiled as) (hfind : as.region_for_address address = some c) :
    c.toList = as.mapped_regions
    ∧ (c.elem.shape.span.Covers address.toNat ∨ c.elem.shape.span.hi = address.toNat)
    ∧ ∀ m ∈ c.before, ¬ m.shape.span.Covers address.toNat
        ∧ (m.shape.span.lo ≤ address.toNat → m.shape.span.hi ≠ address.toNat) := by
  have hl := (AddressSpace.region_for_address_some hfind).1
  obtain ⟨hc, hbefore⟩ := Cursor.find?_cursors (p := fun x : MemoryMapping =>
    decide (address ≥ x.base) && decide (address ≤ x.base + x.size * vm_page_size)) hfind
  have hmem : ∀ m ∈ c.before, m ∈ as.mapped_regions := by
    intro m hm
    rw [← hl]
    exact List.mem_append_left _ hm
  have hce := (h.test_iff (Cursor.elem_mem hl) address).mp hc
  refine ⟨hl, ?_, fun m hm => ?_⟩
  · by_cases hhi : c.elem.shape.span.hi = address.toNat
    · exact Or.inr hhi
    · exact Or.inl ⟨hce.1, by omega⟩
  · have hfalse := hbefore m hm
    rw [Bool.eq_false_iff, ne_eq, h.test_iff (hmem m hm)] at hfalse
    refine ⟨fun hcov => hfalse ⟨hcov.1, Nat.le_of_lt hcov.2⟩, fun hlo hhi => hfalse ⟨hlo, ?_⟩⟩
    omega

theorem Tiled.lookup_some (h : Tiled as) {m : MemoryMapping} (hm : m ∈ as.mapped_regions)
    (hlo : m.shape.span.lo ≤ address.toNat) (hhi : address.toNat ≤ m.shape.span.hi) :
    ∃ d, as.region_for_address address = some d := by
  refine Option.ne_none_iff_exists'.mp fun hnone => ?_
  obtain ⟨e, he, hee⟩ := Cursor.exists_cursor_of_mem hm
  have htest := List.find?_eq_none.mp hnone e he
  rw [hee, h.test_iff hm] at htest
  exact htest ⟨hlo, hhi⟩

theorem Tiled.lookup_inside (h : Tiled as) (hl : c.toList = as.mapped_regions)
    (hc : c.elem.shape.span.Covers address.toNat) :
    as.region_for_address address = some c
      ↔ ∀ m ∈ c.before, m.shape.span.hi ≠ address.toNat := by
  have hlo : ∀ m : MemoryMapping, m.shape.span.lo ≤ m.shape.span.hi := fun m => Nat.le_add_right _ _
  constructor
  · intro hfind m hm hhi
    have := hlo m
    exact ((h.lookup_cases hfind).2.2 m hm).2 (by omega) hhi
  · intro hends
    unfold AddressSpace.region_for_address
    rw [← hl]
    refine Cursor.find?_cursors_eq (p := fun x : MemoryMapping =>
      decide (address ≥ x.base) && decide (address ≤ x.base + x.size * vm_page_size)) ?_ ?_
    · exact (h.test_iff (Cursor.elem_mem hl) address).mpr
        ⟨hc.1, Nat.le_of_lt hc.2⟩
    · intro m hm
      have hin : m ∈ as.mapped_regions := by
        rw [← hl]
        exact List.mem_append_left _ hm
      rw [Bool.eq_false_iff, ne_eq, h.test_iff hin]
      rintro ⟨hmlo, hmhi⟩
      -- the region would have the address inside as well, or end there
      refine h.region_unique hl hc (List.mem_append_left _ hm) ⟨hmlo, ?_⟩
      have := hends m hm
      omega

theorem toNat_index (hlo : c.elem.shape.span.lo ≤ address.toNat) :
    ((address - c.elem.base) / vm_page_size).toNat
      = (address.toNat - c.elem.shape.span.lo) / 4096 := by
  have hle : c.elem.base ≤ address := hlo
  rw [BitVec.toNat_udiv, BitVec.toNat_sub_of_le hle]
  rfl

end Lookup

/-! ## §3. The pages of a copy. -/

/-- The pages `ensure_load_store` touches are in the vector. -/
def CopyIndexed (m : MemoryMapping) (offset size : U64) : Prop :=
  (offset + size + vm_page_size - 1) / vm_page_size ≤ m.size →
    ∀ i, i < ((size + vm_page_size - 1) / vm_page_size).toNat →
      (offset / vm_page_size + BitVec.ofNat 64 i).toNat < m.backing_pages.length

theorem toNat_round_up (x : U64) :
    ((x + vm_page_size - 1) / vm_page_size).toNat = (x.toNat + 4095) % 2 ^ 64 / 4096 := by
  have hx : (x + vm_page_size - 1).toNat = (x.toNat + 4095) % 2 ^ 64 := by
    rw [show x + vm_page_size - 1 = x + 4095 by
      rw [show vm_page_size = 4096 from rfl]; bv_omega, BitVec.toNat_add]
    rfl
  rw [BitVec.toNat_udiv, hx]
  rfl

theorem copyIndexed_iff {offset : U64} (hfits : Fits m.shape)
    (hin : offset.toNat < 4096 * m.size.toNat) (size : U64) :
    CopyIndexed m offset size
      ↔ (size.toNat + 4095 < 2 ^ 64 → offset.toNat + size.toNat + 4095 < 2 ^ 64) := by
  have hend : m.base.toNat + 4096 * m.size.toNat ≤ 2 ^ 47 := hfits.le_end
  have hsize := size.isLt
  have hsum : (offset + size).toNat = (offset.toNat + size.toNat) % 2 ^ 64 := BitVec.toNat_add _ _
  have hstart : (offset / vm_page_size).toNat = offset.toNat / 4096 := by
    rw [BitVec.toNat_udiv]
    rfl
  have hidx : ∀ i, i < 2 ^ 52 → (offset / vm_page_size + BitVec.ofNat 64 i).toNat
      = offset.toNat / 4096 + i := by
    intro i hi
    rw [BitVec.toNat_add, BitVec.toNat_ofNat, hstart]
    omega
  unfold CopyIndexed
  rw [BitVec.le_def, toNat_round_up, toNat_round_up, hsum, m.backing_length]
  constructor
  · -- the page behind the region would be touched
    intro h hno
    by_contra hwrap
    have hpast := h (by omega) (m.size.toNat - offset.toNat / 4096) (by omega)
    rw [hidx _ (by omega)] at hpast
    omega
  · intro h hcheck i hi
    rw [hidx i (by omega)]
    by_cases hno : size.toNat + 4095 < 2 ^ 64
    · have hwrap := h hno
      omega
    · omega

/-! ## §4. The right region. -/

/-- At `address` the calls act on the region that has it inside and on no other,
and stay inside its vector of pages; `size` is that of a copy. -/
structure ActsInside (as : AddressSpace) (address size : U64) : Prop where
  found : ∀ c : Cursor MemoryMapping, c.toList = as.mapped_regions →
    c.elem.shape.span.Covers address.toNat → as.region_for_address address = some c
  missing : (∀ m ∈ as.mapped_regions, ¬ m.shape.span.Covers address.toNat) →
    as.region_for_address address = none
  page : ∀ c, as.region_for_address address = some c →
    ((address - c.elem.base) / vm_page_size).toNat < c.elem.backing_pages.length
  copy : ∀ c, as.region_for_address address = some c →
    CopyIndexed c.elem (address - c.elem.base) size

/-- No region that ends at the address is met first, and the size of the copy
does not wrap around unnoticed. -/
structure Unambiguous (as : AddressSpace) (address size : U64) : Prop where
  ends : ∀ c : Cursor MemoryMapping, c.toList = as.mapped_regions →
    c.elem.shape.span.hi = address.toNat →
    ∃ m ∈ c.before, m.shape.span.Covers address.toNat
  copy : ∀ m ∈ as.mapped_regions, m.shape.span.Covers address.toNat →
    size.toNat + 4095 < 2 ^ 64 →
    address.toNat - m.base.toNat + size.toNat + 4095 < 2 ^ 64

section Right

variable {as : AddressSpace} {address size : U64} {c : Cursor MemoryMapping}

theorem Unambiguous.found_covers (hu : Unambiguous as address size) (h : Tiled as)
    (hfind : as.region_for_address address = some c) :
    c.elem.shape.span.Covers address.toNat := by
  obtain ⟨hl, hcov | hhi, hbefore⟩ := h.lookup_cases hfind
  · exact hcov
  · obtain ⟨m, hm, hcov⟩ := hu.ends c hl hhi
    exact absurd hcov (hbefore m hm).1

theorem toNat_offset (hc : c.elem.shape.span.Covers address.toNat) :
    (address - c.elem.base).toNat = address.toNat - c.elem.base.toNat
    ∧ (address - c.elem.base).toNat < 4096 * c.elem.size.toNat := by
  have hle : c.elem.base ≤ address := hc.1
  have hlo : c.elem.base.toNat ≤ address.toNat := hc.1
  have hhi : address.toNat < c.elem.base.toNat + 4096 * c.elem.size.toNat := hc.2
  rw [BitVec.toNat_sub_of_le hle]
  omega

theorem Unambiguous.actsInside (hu : Unambiguous as address size) (h : Tiled as) :
    ActsInside as address size where
  found c hl hc := by
    refine (h.lookup_inside hl hc).mpr fun m hm hhi => ?_
    obtain ⟨pre, post, hsplit⟩ := List.append_of_mem hm
    -- a region before `m` would have the address inside as well
    obtain ⟨x, hx, hcov⟩ := hu.ends ⟨pre, m, post ++ c.elem :: c.after⟩
      (by rw [← hl]; simp [Cursor.toList, hsplit]) hhi
    refine h.region_unique hl hc (List.mem_append_left _ ?_) hcov
    rw [hsplit]
    exact List.mem_append_left _ hx
  missing hnone := by
    by_contra hsome
    obtain ⟨c, hfind⟩ := Option.ne_none_iff_exists'.mp hsome
    exact hnone _ (Cursor.elem_mem (h.lookup_cases hfind).1) (hu.found_covers h hfind)
  page c hfind := by
    have hcov := hu.found_covers h hfind
    have hoff := (toNat_offset hcov).2
    rw [BitVec.toNat_udiv, c.elem.backing_length]
    exact Nat.div_lt_of_lt_mul hoff
  copy c hfind := by
    have hcov := hu.found_covers h hfind
    have hmem := Cursor.elem_mem (h.lookup_cases hfind).1
    obtain ⟨hoff, hlt⟩ := toNat_offset hcov
    rw [copyIndexed_iff (h.fits_regions _ hmem) hlt, hoff]
    exact hu.copy c.elem hmem hcov

theorem ActsInside.unambiguous (ha : ActsInside as address size) (h : Tiled as) :
    Unambiguous as address size where
  ends c hl hhi := by
    have hlo : c.elem.shape.span.lo ≤ c.elem.shape.span.hi := Nat.le_add_right _ _
    -- something is found, and it is not `c`
    obtain ⟨d, hfind⟩ : ∃ d, as.region_for_address address = some d :=
      h.lookup_some (Cursor.elem_mem hl) (by omega) (by omega)
    obtain ⟨hdl, hd, hbefore⟩ := h.lookup_cases hfind
    have hcov : d.elem.shape.span.Covers address.toNat := by
      rcases hd with hcov | hend
      · exact hcov
      · -- the index of the page behind the last one
        have hpage := ha.page d hfind
        have hdlo : d.elem.shape.span.lo ≤ address.toNat := by
          rw [← hend]
          exact Nat.le_add_right _ _
        have hdend : d.elem.base.toNat + 4096 * d.elem.size.toNat = address.toNat := hend
        rw [toNat_index hdlo, d.elem.backing_length, ← hdend] at hpage
        have hspan : d.elem.shape.span.lo = d.elem.base.toNat := rfl
        omega
    rcases Cursor.eq_or_mem (hdl.trans hl.symm) with rfl | ⟨hdc, -⟩ | ⟨hcd, -⟩
    · have := hcov.2
      omega
    · exact ⟨d.elem, hdc, hcov⟩
    · exact absurd hhi ((hbefore _ hcd).2 (by omega))
  copy m hm hcov := by
    obtain ⟨c, hc, rfl⟩ := Cursor.exists_cursor_of_mem hm
    have hl := Cursor.toList_of_mem hc
    obtain ⟨hoff, hlt⟩ := toNat_offset hcov
    have hcopy := ha.copy c (ha.found c hl hcov)
    rw [copyIndexed_iff (h.fits_regions _ hm) hlt, hoff] at hcopy
    exact hcopy

end Right

/-- **The right region.**  In every state a fresh space reaches by proper calls,
whatever the architecture does: at an address the calls act on the region with
the address inside, and stay inside its pages, iff no region that ends there is
met first and the size of the copy does not wrap around unnoticed. -/
theorem region_lookup_iff (arch : ArchMm σ) (s0 s1 : σ) (as0 : AddressSpace)
    (hnew : AddressSpace.new arch s0 = some (as0, s1)) (calls : List VmCall)
    (hproper : Along (vmCall arch) (fun s call => call.Proper s.1) (as0, s1) calls)
    (s : AddressSpace × σ) (hrun : run (vmCall arch) (as0, s1) calls = some s)
    (address size : U64) :
    ActsInside s.1 address size ↔ Unambiguous s.1 address size := by
  have h := Tiled.calls hnew hproper hrun
  exact ⟨fun ha => ha.unambiguous h, fun hu => hu.actsInside h⟩

theorem proper_bump (calls : List VmCall) (h : ∀ call ∈ calls, ∀ as, call.Proper as) :
    Along (vmCall bumpArch) (fun s call => call.Proper s.1) (bumpSpace, 0) calls :=
  along_of_forall (vmCall bumpArch) calls (bumpSpace, 0) fun call hc s => h call hc s.1

/-- Two regions, at the second page of the first. -/
theorem region_lookup_two_regions :
    ∃ s, run (vmCall bumpArch) (bumpSpace, 0)
        [.place (.allocate_at 0x5000 2 3 0), .place (.allocate_at 0x9000 1 3 0)] = some s
      ∧ ActsInside s.1 0x6000 16 := by
  have heval : (run (vmCall bumpArch) (bumpSpace, 0)
      [.place (.allocate_at 0x5000 2 3 0), .place (.allocate_at 0x9000 1 3 0)]).map
      (fun s => s.1.mapped_regions.map MemoryMapping.shape) = some [⟨0x5000, 2⟩, ⟨0x9000, 1⟩] := by
    decide +kernel
  obtain ⟨s, hrun, hshape⟩ := Option.map_eq_some_iff.mp heval
  have hproper := proper_bump
    [.place (.allocate_at 0x5000 2 3 0), .place (.allocate_at 0x9000 1 3 0)] fun call hc as => by
      rcases List.mem_pair.mp hc with rfl | rfl <;> exact Or.inl ⟨by decide, by decide⟩
  have hall : ∀ m ∈ s.1.mapped_regions, m.shape = ⟨0x5000, 2⟩ ∨ m.shape = ⟨0x9000, 1⟩ := by
    intro m hm
    have hmem := List.mem_map_of_mem (f := MemoryMapping.shape) hm
    rw [hshape] at hmem
    exact List.mem_pair.mp hmem
  refine ⟨s, hrun, (region_lookup_iff bumpArch 0 0 bumpSpace rfl _ hproper s hrun _ _).mpr ?_⟩
  refine ⟨fun c hl hhi => ?_, fun m hm hcov _ => ?_⟩
  · rcases hall _ (Cursor.elem_mem hl) with hc | hc <;> rw [hc] at hhi <;>
      exact absurd hhi (by decide)
  · show 0x6000 - m.shape.base.toNat + 16 + 4095 < 2 ^ 64
    rcases hall m hm with hc | hc <;> rw [hc] <;> decide

/-- Two regions that touch: at the base of the upper one the lower one is found,
and the index of its page is out of range. -/
theorem region_lookup_touching :
    ¬ ∀ (calls : List VmCall) (s : AddressSpace × U64),
        Along (vmCall bumpArch) (fun s call => call.Proper s.1) (bumpSpace, 0) calls →
        run (vmCall bumpArch) (bumpSpace, 0) calls = some s →
        ∀ address size, ActsInside s.1 address size := by
  intro h
  have heval : (run (vmCall bumpArch) (bumpSpace, 0)
      [.place (.allocate_at 0x5000 1 3 0), .place (.allocate_at 0x6000 1 3 0)]).map
      (fun s => (s.1.region_for_address 0x6000).map fun c =>
        decide (((0x6000#64 - c.elem.base) / vm_page_size).toNat < c.elem.backing_pages.length))
      = some (some false) := by decide +kernel
  obtain ⟨s, hrun, hfound⟩ := Option.map_eq_some_iff.mp heval
  obtain ⟨c, hfind, hindex⟩ := Option.map_eq_some_iff.mp hfound
  have hproper := proper_bump [.place (.allocate_at 0x5000 1 3 0),
    .place (.allocate_at 0x6000 1 3 0)] fun call hc as => by
      simp only [List.mem_cons, List.not_mem_nil, or_false] at hc
      rcases hc with rfl | rfl
      · exact Or.inl ⟨by decide, by decide⟩
      · exact Or.inl ⟨by decide, by decide⟩
  exact of_decide_eq_false hindex ((h _ s hproper hrun 0x6000 0).page c hfind)

end Quack.Mm
