/-
  Quack.Mm.Mapping
  **`memory_mapping`: a region and the pages behind it.**

  `mm/vm.cpp` reaches the hardware through `arch/mm.h` only.  That interface is
  the record `ArchMm`, a parameter of everything in this directory: what is
  proved about the lists of an address space holds for every architecture, and
  the x86_64 functions are put in where the page tables matter.

  A program stops (`fault`) where the kernel stops: a failed assertion, a
  panic, an index outside `_backing_pages`.
-/
import Mathlib
import Quack.Lib.Prog

namespace Quack

/-- `uintptr_t`, `size_t`, `uint64_t`. -/
abbrev U64 := BitVec 64

def vm_page_size : U64 := 0x1000
def vm_user_base : U64 := 0x1000
def vm_user_end : U64 := 0x800000000000

namespace Mm

open Lib

/-! ## §1. Data. -/

/-- `struct backing_page`. -/
structure BackingPage where
  ptr : U64
  exists_ : Bool
  allocated : Bool
  deriving Repr, DecidableEq

/-- What `frg::vector::resize` fills a vector of pages with. -/
def BackingPage.zero : BackingPage := ⟨0, false, false⟩

/-- `enum class vm_fault_result`. -/
inductive VmFaultResult where
  | invalid
  | remap_valid
  | ignore
  | invalid_access
  | not_mapped
  deriving Repr, DecidableEq

/-- `struct memory_mapping`.  The constructor sizes `_backing_pages` and no
method resizes it. -/
structure MemoryMapping where
  base : U64
  size : U64
  backing_pages : List BackingPage
  perms : BitVec 32
  cache_mode : BitVec 32
  mapped : Bool
  backing_length : backing_pages.length = size.toNat

/-- The functions of `arch/mm.h` that address spaces call, over the machine
state `σ`.  The data of a load is the bytes copied in, the result of a store
the bytes copied out. -/
structure ArchMm (σ : Type) where
  arch_mm_create_context : Prog σ U64
  arch_mm_destroy_context : (ctx : U64) → Prog σ Unit
  arch_mm_map : (ctx dst src size : U64) → (flags cache : BitVec 32) → Prog σ Int
  arch_mm_unmap : (ctx dst size : U64) → Prog σ Int
  arch_mm_alloc_phys : (blocks : U64) → Prog σ U64
  arch_mm_free_phys : (mem blocks : U64) → Prog σ Int
  arch_mm_mapping_load : MemoryMapping → (offset : U64) → (data : List (BitVec 8)) → Prog σ Unit
  arch_mm_mapping_store : MemoryMapping → (offset size : U64) → Prog σ (List (BitVec 8))

variable {σ : Type} (arch : ArchMm σ)

/-! ## §2. Methods. -/

namespace MemoryMapping

/-- The constructor. -/
def new (base size : U64) : MemoryMapping where
  base := base
  size := size
  backing_pages := List.replicate size.toNat BackingPage.zero
  perms := 0
  cache_mode := 0
  mapped := false
  backing_length := List.length_replicate

/-- Replace the pages by as many others. -/
def withPages (m : MemoryMapping) (pages : List BackingPage)
    (h : pages.length = m.backing_pages.length) : MemoryMapping :=
  { m with backing_pages := pages, backing_length := h.trans m.backing_length }

/-- Overwrite `_backing_pages[idx]`. -/
def setPage (m : MemoryMapping) (idx : Nat) (page : BackingPage) : MemoryMapping :=
  m.withPages (m.backing_pages.set idx page) List.length_set

/-- Free the frames of the pages selected by `which`, first to last. -/
def freePages (which : BackingPage → Bool) : List BackingPage → Prog σ Unit
  | [] => pure ()
  | page :: pages => do
    if which page then
      let _ ← arch.arch_mm_free_phys page.ptr 1
    freePages which pages

/-- `~memory_mapping`. -/
def destruct (m : MemoryMapping) : Prog σ Unit :=
  freePages arch (fun page => page.exists_ && page.allocated && page.ptr != 0) m.backing_pages

/-- The assertion both initialisers make of every page. -/
def untouched (m : MemoryMapping) : Bool :=
  m.backing_pages.all (fun page => !page.exists_ && !page.allocated)

/-- `memory_mapping::allocate`: promise every page, back none. -/
def allocate (m : MemoryMapping) (perms cache : BitVec 32) : Option MemoryMapping :=
  if m.untouched then
    some { m.withPages (m.backing_pages.map fun page => { page with allocated := true })
            (List.length_map _) with perms := perms, cache_mode := cache }
  else none

/-- The loop of `map_to`: consecutive physical pages from `address`. -/
def mapToPages : U64 → List BackingPage → List BackingPage
  | _, [] => []
  | address, _ :: pages => ⟨address, true, false⟩ :: mapToPages (address + vm_page_size) pages

theorem mapToPages_length : ∀ (address : U64) (pages : List BackingPage),
    (mapToPages address pages).length = pages.length
  | _, [] => rfl
  | address, _ :: pages => congrArg (· + 1) (mapToPages_length (address + vm_page_size) pages)

/-- `memory_mapping::map_to`. -/
def map_to (m : MemoryMapping) (address : U64) (perms cache : BitVec 32) :
    Option MemoryMapping :=
  if m.untouched then
    some { m.withPages (mapToPages address m.backing_pages) (mapToPages_length _ _) with
            perms := perms, cache_mode := cache }
  else none

/-- `memory_mapping::deallocate`. -/
def deallocate (m : MemoryMapping) : Prog σ MemoryMapping := do
  Prog.check (m.mapped = false)
  freePages arch (fun page => page.exists_ && page.allocated) m.backing_pages
  pure (m.withPages (m.backing_pages.map fun _ => BackingPage.zero) (List.length_map _))

def touch (m : MemoryMapping) (idx : U64) : Prog σ (Bool × MemoryMapping) := do
  let page ← Prog.ofOption m.backing_pages[idx.toNat]?
  if page.exists_ then
    pure (false, m)
  else
    Prog.check (page.allocated = true)
    let ptr ← arch.arch_mm_alloc_phys 1
    if ptr = 0 then
      pure (false, m)
    else
      pure (true, m.setPage idx.toNat { page with exists_ := true, ptr := ptr })

/-- `for (i = start; i < start + n; i++) touched |= touch(i)`. -/
def touchRange : (n : Nat) → (start : U64) → (touched : Bool) → MemoryMapping →
    Prog σ (Bool × MemoryMapping)
  | 0, _, touched, m => pure (touched, m)
  | n + 1, start, touched, m => do
    let (touched_i, m) ← m.touch arch start
    touchRange n (start + 1) (touched || touched_i) m

/-- `memory_mapping::touch_all`. -/
def touch_all (m : MemoryMapping) : Prog σ (Bool × MemoryMapping) :=
  touchRange arch m.size.toNat 0 false m

/-- `memory_mapping::ensure_load_store`; `offset` is a `ptrdiff_t`. -/
def ensure_load_store (m : MemoryMapping) (offset size : U64) : Prog σ (Bool × MemoryMapping) := do
  Prog.check (0 ≤ offset.toInt)
  let pages := (size + vm_page_size - 1) / vm_page_size
  let start := offset / vm_page_size
  if (offset + size + vm_page_size - 1) / vm_page_size > m.size then
    pure (false, m)
  else
    touchRange arch pages.toNat start false m

/-- `memory_mapping::load`. -/
def load (m : MemoryMapping) (offset : U64) (data : List (BitVec 8)) :
    Prog σ (Bool × MemoryMapping) := do
  let (touched, m) ← m.ensure_load_store arch offset (BitVec.ofNat 64 data.length)
  arch.arch_mm_mapping_load m offset data
  pure (touched, m)

/-- `memory_mapping::store`. -/
def store (m : MemoryMapping) (offset size : U64) :
    Prog σ (Bool × MemoryMapping × List (BitVec 8)) := do
  let (touched, m) ← m.ensure_load_store arch offset size
  let data ← arch.arch_mm_mapping_store m offset size
  pure (touched, m, data)

/-- `memory_mapping::fault_hit`. -/
def fault_hit (m : MemoryMapping) (address : U64) : Prog σ (VmFaultResult × MemoryMapping) := do
  Prog.check (m.base ≤ address ∧ address < m.base + m.size * vm_page_size)
  let idx := (address - m.base) / vm_page_size
  let page ← Prog.ofOption m.backing_pages[idx.toNat]?
  if page.allocated && !page.exists_ then
    -- hit an overcommitted page
    let (touched, m) ← m.touch arch idx
    pure (if touched then .remap_valid else .ignore, m)
  else if page.exists_ then
    pure (.invalid_access, m)
  else if !page.allocated && !page.exists_ then
    pure (.not_mapped, m)
  else
    pure (.invalid, m)

end MemoryMapping

end Mm

end Quack
