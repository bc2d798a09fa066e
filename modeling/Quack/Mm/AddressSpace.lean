/-
  Quack.Mm.AddressSpace
  **`address_space`: the holes, the regions and the context.**

  The two intrusive lists are Lean lists, and a pointer into one is a `Cursor`.
  Functions that only rearrange the lists are pure; the others are programs
  over the machine state of the architecture.  Everything is 64-bit arithmetic
  modulo 2^64, as in the source.
-/
import Quack.Mm.Mapping
import Quack.Lib.Cursor

namespace Quack.Mm

open Lib

/-! ## §1. Data. -/

/-- `struct memory_hole`. -/
structure MemoryHole where
  base : U64
  size : U64
  deriving Repr, DecidableEq

/-- `struct address_space`. -/
structure AddressSpace where
  mapped_regions : List MemoryMapping
  memory_holes : List MemoryHole
  vmm_ctx : U64

/-! ## §2. The lists. -/

def distance_between (a_base a_size b_base : U64) : U64 :=
  (a_base + a_size * vm_page_size) - b_base

def findSuccStep {α : Type} (base size : α → U64) (in_base : U64)
    (acc : Option (Cursor α) × Int) (c : Cursor α) : Option (Cursor α) × Int :=
  if base c.elem < in_base then acc
  else
    let d := (distance_between (base c.elem) (size c.elem) in_base).toInt
    if d < acc.2 then (some c, d) else acc

def findSucc {α : Type} (base size : α → U64) (in_base : U64) (l : List α) :
    Option (Cursor α) :=
  ((Cursor.cursors l).foldl (findSuccStep base size in_base) (none, 2 ^ 63 - 1)).1

/-- One round of `find_free_hole`; the second component is `best_base`. -/
def findFreeStep (size : U64) (acc : Option (Cursor MemoryHole) × U64) (c : Cursor MemoryHole) :
    Option (Cursor MemoryHole) × U64 :=
  if c.elem.size ≥ size ∧ c.elem.base ≥ acc.2 then (some c, c.elem.base) else acc

def absorbPrev : List MemoryHole → MemoryHole → List MemoryHole × MemoryHole
  | [], hole => ([], hole)
  | prev :: before, hole =>
    if distance_between prev.base prev.size hole.base = 0 then
      (before, ⟨prev.base, hole.size + prev.size⟩)
    else (prev :: before, hole)

def mergeLoop (before : List MemoryHole) : List MemoryHole → List MemoryHole
  | [] => before.reverse
  | [hole] =>
    let (before, hole) := absorbPrev before hole
    (hole :: before).reverse
  | hole :: next :: rest =>
    let (before, hole) := absorbPrev before hole
    if distance_between hole.base hole.size next.base = 0 then
      mergeLoop ({ hole with size := hole.size + next.size } :: before) rest
    else mergeLoop (hole :: before) (next :: rest)

namespace AddressSpace

def find_succ_hole (as : AddressSpace) (hole : MemoryHole) : Option (Cursor MemoryHole) :=
  findSucc MemoryHole.base MemoryHole.size hole.base as.memory_holes

def find_succ_mapping (as : AddressSpace) (mapping : MemoryMapping) :
    Option (Cursor MemoryMapping) :=
  findSucc MemoryMapping.base MemoryMapping.size mapping.base as.mapped_regions

def find_free_hole (as : AddressSpace) (size : U64) : Option (Cursor MemoryHole) :=
  ((Cursor.cursors as.memory_holes).foldl (findFreeStep size) (none, 0)).1

def merge_holes (as : AddressSpace) : AddressSpace :=
  { as with memory_holes := mergeLoop [] as.memory_holes }

/-- `put(memory_mapping *)`; the result is where the region now is. -/
def putMapping (as : AddressSpace) (mapping : MemoryMapping) : Cursor MemoryMapping :=
  match as.find_succ_mapping mapping with
  | some succ => succ.insert mapping
  | none => Cursor.push_back as.mapped_regions mapping

/-- `put(memory_hole *)`: without a successor the hole goes to the front. -/
def putHole (as : AddressSpace) (hole : MemoryHole) : AddressSpace :=
  match as.find_succ_hole hole with
  | some succ => { as with memory_holes := (succ.insert hole).toList }
  | none => { as with memory_holes := hole :: as.memory_holes }

/-- The end of both binders: a new region, put in its place. -/
def bindMapping (as : AddressSpace) (base size : U64) : AddressSpace × Cursor MemoryMapping :=
  let mem := as.putMapping (MemoryMapping.new base size)
  ({ as with mapped_regions := mem.toList }, mem)

/-- `bind_hole`: the last `size` pages of the hole, or all of it. -/
def bind_hole (as : AddressSpace) (hole : Cursor MemoryHole) (size : U64) :
    Option (AddressSpace × Cursor MemoryMapping) :=
  if hole.elem.size ≥ size then
    let base := hole.elem.base
    if hole.elem.size = size then
      some (bindMapping { as with memory_holes := hole.erase } base size)
    else
      let rest := hole.elem.size - size
      let holes := (hole.set { hole.elem with size := rest }).toList
      some (bindMapping { as with memory_holes := holes } (base + rest * vm_page_size) size)
  else none

/-- The containment test of `bind_exact`. -/
def holeContains (base size : U64) (hole : MemoryHole) : Bool :=
  decide (hole.base ≤ base)
    && decide (hole.base + hole.size * vm_page_size ≥ base + size * vm_page_size)

/-- The four cases of `bind_exact`: what is left of the target hole. -/
def carve (target_hole : Cursor MemoryHole) (base size : U64) : List MemoryHole :=
  let hole := target_hole.elem
  if base = hole.base ∧ size = hole.size then
    -- exact match
    target_hole.erase
  else if base = hole.base then
    -- leading
    (target_hole.set ⟨hole.base + size * vm_page_size, hole.size - size⟩).toList
  else if base + size * vm_page_size = hole.base + hole.size * vm_page_size then
    -- trailing
    (target_hole.set { hole with size := hole.size - size }).toList
  else
    -- in the middle
    let new_hole := ⟨hole.base, (base - hole.base) / vm_page_size⟩
    let upper := ⟨base + size * vm_page_size,
      hole.size - size - (base - hole.base) / vm_page_size⟩
    ((target_hole.set upper).insert new_hole).toList

def bind_exact (as : AddressSpace) (base size : U64) :
    Option (AddressSpace × Option (Cursor MemoryMapping)) :=
  if size ≠ 0 ∧ base ≠ 0 then
    let as := as.merge_holes
    match (Cursor.cursors as.memory_holes).find? (fun c => holeContains base size c.elem) with
    | none => some (as, none)
    | some target_hole =>
      let (as, mem) := bindMapping { as with memory_holes := carve target_hole base size }
        base size
      some (as, some mem)
  else none

/-- `unbind_region`. -/
def unbind_region (as : AddressSpace) (region : Cursor MemoryMapping) : AddressSpace :=
  let as := as.putHole ⟨region.elem.base, region.elem.size⟩
  { as with mapped_regions := region.erase }.merge_holes

/-- `region_for_address`; the end of a region counts as inside. -/
def region_for_address (as : AddressSpace) (address : U64) : Option (Cursor MemoryMapping) :=
  (Cursor.cursors as.mapped_regions).find? (fun c =>
    decide (address ≥ c.elem.base)
      && decide (address ≤ c.elem.base + c.elem.size * vm_page_size))

/-! ## §3. Programs. -/

variable {σ : Type} (arch : ArchMm σ)

/-- The constructor. -/
def new : Prog σ AddressSpace := do
  let ctx ← arch.arch_mm_create_context
  pure ⟨[], [⟨vm_user_base, (vm_user_end - vm_user_base) / vm_page_size⟩], ctx⟩

/-- The loop of the destructor over the regions. -/
def destructRegions : List MemoryMapping → Prog σ Unit
  | [] => pure ()
  | region :: regions => do
    region.destruct arch
    destructRegions regions

/-- The destructor. -/
def destruct (as : AddressSpace) : Prog σ Unit := do
  arch.arch_mm_destroy_context as.vmm_ctx
  destructRegions arch as.mapped_regions

/-- The loop of `map_region`, from page `i` on. -/
def mapPages (ctx base : U64) (perms cache : BitVec 32) : Nat → List BackingPage → Prog σ Unit
  | _, [] => pure ()
  | i, page :: pages => do
    if page.exists_ then
      let _ ← arch.arch_mm_map ctx (base + BitVec.ofNat 64 i * vm_page_size) page.ptr 1
        perms cache
    mapPages ctx base perms cache (i + 1) pages

/-- `map_region`. -/
def map_region (as : AddressSpace) (region : MemoryMapping) : Prog σ MemoryMapping := do
  mapPages arch as.vmm_ctx region.base region.perms region.cache_mode 0 region.backing_pages
  pure { region with mapped := true }

/-- The loop of `unmap_region`, from page `i` on. -/
def unmapPages (ctx base : U64) : Nat → List BackingPage → Prog σ Unit
  | _, [] => pure ()
  | i, page :: pages => do
    if page.exists_ then
      let _ ← arch.arch_mm_unmap ctx (base + BitVec.ofNat 64 i * vm_page_size) 1
    unmapPages ctx base (i + 1) pages

/-- `unmap_region`. -/
def unmap_region (as : AddressSpace) (region : MemoryMapping) : Prog σ MemoryMapping := do
  Prog.check (region.mapped = true)
  unmapPages arch as.vmm_ctx region.base 0 region.backing_pages
  pure { region with mapped := false }

/-- Write a region back. -/
def withRegion (as : AddressSpace) (region : Cursor MemoryMapping) (m : MemoryMapping) :
    AddressSpace :=
  { as with mapped_regions := (region.set m).toList }

def finish (as : AddressSpace) (mem : Cursor MemoryMapping)
    (init : MemoryMapping → Option MemoryMapping) : Prog σ (U64 × AddressSpace) := do
  let m ← Prog.ofOption (init mem.elem)
  let m ← as.map_region arch m
  pure (m.base, as.withRegion mem m)

/-- `find_free_hole`, `bind_hole` and the rest, for an initialiser. -/
def placeAnywhere (as : AddressSpace) (size : U64) (init : MemoryMapping → Option MemoryMapping) :
    Prog σ (U64 × AddressSpace) :=
  match as.find_free_hole size with
  | none => pure (0, as)
  | some hole => do
    let (as, mem) ← Prog.ofOption (as.bind_hole hole size)
    as.finish arch mem init

/-- `bind_exact` and the rest, for an initialiser. -/
def placeAt (as : AddressSpace) (base size : U64) (init : MemoryMapping → Option MemoryMapping) :
    Prog σ (U64 × AddressSpace) := do
  let (as, mem) ← Prog.ofOption (as.bind_exact base size)
  match mem with
  | none => pure (0, as)
  | some mem => as.finish arch mem init

def allocate (as : AddressSpace) (size : U64) (perms cache : BitVec 32) :
    Prog σ (U64 × AddressSpace) :=
  as.placeAnywhere arch size (fun m => m.allocate perms cache)

def map (as : AddressSpace) (address size : U64) (perms cache : BitVec 32) :
    Prog σ (U64 × AddressSpace) :=
  as.placeAnywhere arch size (fun m => m.map_to address perms cache)

def allocate_at (as : AddressSpace) (base size : U64) (perms cache : BitVec 32) :
    Prog σ (U64 × AddressSpace) :=
  as.placeAt arch base size (fun m => m.allocate perms cache)

def map_at (as : AddressSpace) (base address size : U64) (perms cache : BitVec 32) :
    Prog σ (U64 × AddressSpace) :=
  as.placeAt arch base size (fun m => m.map_to address perms cache)

/-- `destroy(memory_mapping *)`. -/
def destroy (as : AddressSpace) (region : Cursor MemoryMapping) : Prog σ AddressSpace := do
  let m ← as.unmap_region arch region.elem
  let as := as.unbind_region (region.set m)
  m.destruct arch
  pure as

def remap (as : AddressSpace) (region : Cursor MemoryMapping) (touched : Bool)
    (m : MemoryMapping) : Prog σ AddressSpace := do
  let m ← if touched then as.map_region arch m else pure m
  pure (as.withRegion region m)

def touch (as : AddressSpace) (address : U64) : Prog σ AddressSpace :=
  match as.region_for_address address with
  | none => pure as
  | some region => do
    let (touched, m) ← region.elem.touch arch ((address - region.elem.base) / vm_page_size)
    as.remap arch region touched m

def touch_all (as : AddressSpace) (address : U64) : Prog σ AddressSpace :=
  match as.region_for_address address with
  | none => pure as
  | some region => do
    let (touched, m) ← region.elem.touch_all arch
    as.remap arch region touched m

def load (as : AddressSpace) (address : U64) (data : List (BitVec 8)) : Prog σ AddressSpace :=
  match as.region_for_address address with
  | none => pure as
  | some region => do
    let (touched, m) ← region.elem.load arch (address - region.elem.base) data
    as.remap arch region touched m

def store (as : AddressSpace) (address size : U64) :
    Prog σ (AddressSpace × List (BitVec 8)) :=
  match as.region_for_address address with
  | none => pure (as, [])
  | some region => do
    let (touched, m, data) ← region.elem.store arch (address - region.elem.base) size
    let as ← as.remap arch region touched m
    pure (as, data)

/-- `fault_hit`; the answer is whether the access may be retried. -/
def fault_hit (as : AddressSpace) (address : U64) : Prog σ (Bool × AddressSpace) :=
  match as.region_for_address address with
  | none => pure (false, as)
  | some region => do
    let (result, m) ← region.elem.fault_hit arch address
    match result with
    | .invalid | .invalid_access | .not_mapped => pure (false, as.withRegion region m)
    | .remap_valid => do
      let m ← as.map_region arch m
      pure (true, as.withRegion region m)
    | .ignore => pure (true, as.withRegion region m)

end AddressSpace

/-! ## §4. Runs over the lists. -/

/-- The calls that change which pages are free. -/
inductive VmOp where
  | allocate (size : U64) (perms cache : BitVec 32)
  | map (address size : U64) (perms cache : BitVec 32)
  | allocate_at (base size : U64) (perms cache : BitVec 32)
  | map_at (base address size : U64) (perms cache : BitVec 32)
  | destroy (region : Nat)
  deriving Repr, DecidableEq

/-- One call; `destroy` takes a region of the space, by position. -/
def vmStep {σ : Type} (arch : ArchMm σ) (s : AddressSpace × σ) : VmOp → Option (AddressSpace × σ)
  | .allocate size perms cache =>
    (s.1.allocate arch size perms cache s.2).map (fun r => (r.1.2, r.2))
  | .map address size perms cache =>
    (s.1.map arch address size perms cache s.2).map (fun r => (r.1.2, r.2))
  | .allocate_at base size perms cache =>
    (s.1.allocate_at arch base size perms cache s.2).map (fun r => (r.1.2, r.2))
  | .map_at base address size perms cache =>
    (s.1.map_at arch base address size perms cache s.2).map (fun r => (r.1.2, r.2))
  | .destroy region =>
    (Cursor.at? s.1.mapped_regions region).bind (fun c => s.1.destroy arch c s.2)

end Quack.Mm
