/-
  Quack.Arch.TableAccess
  **THE PAGE-TABLE OPERATIONS, WITH EVERY ACCESS LOGGED (`vmm.cpp`).**

  The six operations on a range of pages, written as the source has them over
  primitives that log what they touch: the table and the slot of every word read
  or written, the frames taken for tables, and the entries that are followed as
  the link of a table.  An access through `NULL` is logged before it faults.
-/
import Quack.Arch.Boot
import Quack.Lib.Traced

namespace Quack.Arch

open Lib

/-! ## §1. Events. -/

/-- What a page-table operation does to memory. -/
inductive TableEvent where
  /-- `tab->ents[off]` is read. -/
  | read (tab : Table) (off : Nat)
  /-- `tab->ents[off]` is written. -/
  | write (tab : Table) (off : Nat)
  /-- A new table is cleared. -/
  | clear (phys : U64)
  /-- A frame is asked for; `none` if the allocator itself faults. -/
  | alloc (frame : Option U64)
  /-- The address in `ent` is used as that of a table. -/
  | follow (ent : U64)
  deriving Repr, DecidableEq

/-- A program that logs its accesses to tables. -/
abbrev TableProg (α : Type) := Traced TableEvent Machine α

namespace Logged

/-- `tab->ents[off]`. -/
def readEnt (tab : Table) (off : Nat) : TableProg U64 := do
  Traced.log (.read tab off)
  Traced.lift (Arch.readEnt tab off)

/-- `tab->ents[off] = ent`. -/
def writeEnt (tab : Table) (off : Nat) (ent : U64) : TableProg Unit := do
  Traced.log (.write tab off)
  Traced.lift (Arch.writeEnt tab off ent)

/-- `pmm_alloc(1)`. -/
def pmm_alloc : TableProg U64 := fun m =>
  ([.alloc ((Arch.pmm_alloc 1 m).map Prod.fst)], Arch.pmm_alloc 1 m)

/-- `memset(ent_addr, 0, 4096)`. -/
def memset_page (ent_addr : U64) : TableProg Unit := do
  Traced.log (.clear ent_addr)
  Traced.lift (Arch.memset_page ent_addr.toNat)

/-- `(pt_t *)((ent & VMM_ADDR_MASK) + VIRT_PHYS_BASE)`. -/
def follow (ent : U64) : TableProg Table := do
  Traced.log (.follow ent)
  pure (entTable ent)

/-! ## §2. The operations. -/

def vmm_get_or_alloc_ent (tab : Table) (off : Nat) (flags : U64) : TableProg Table := do
  let ent_addr ← readEnt tab off
  if ent_addr &&& VMM_FLAG_PRESENT = 0 then
    let ent_addr ← pmm_alloc
    -- the entry is written before the allocation is tested
    writeEnt tab off ent_addr
    if ent_addr = 0 then
      pure none
    else
      let ent ← readEnt tab off
      writeEnt tab off (ent ||| (flags ||| VMM_FLAG_PRESENT))
      memset_page ent_addr
      follow ent_addr
  else
    -- whatever the page-size bit says
    follow ent_addr

def vmm_get_or_null_ent (tab : Table) (off : Nat) : TableProg Table := do
  let ent_addr ← readEnt tab off
  if ent_addr &&& VMM_FLAG_PRESENT = 0 then
    pure none
  else
    follow ent_addr

/-- One round of `vmm_map_pages`. -/
def vmm_map_page (pml4 perms virt phys : U64) : TableProg Bool := do
  let offs := vmm_virt_to_offs virt
  let pdp_virt ← vmm_get_or_alloc_ent (ctxTable pml4) offs.pml4_off higher_perms
  let pd_virt ← vmm_get_or_alloc_ent pdp_virt offs.pdp_off higher_perms
  let pt_virt ← vmm_get_or_alloc_ent pd_virt offs.pd_off higher_perms
  writeEnt pt_virt offs.pt_off (phys ||| perms ||| VMM_FLAG_PRESENT)
  pure true

/-- The walk to the last table, given up at the first one missing. -/
def vmm_find_pt (pml4 virt : U64) : TableProg Table := do
  let offs := vmm_virt_to_offs virt
  match ← vmm_get_or_null_ent (ctxTable pml4) offs.pml4_off with
  | none => pure none
  | some pdp_virt => do
    match ← vmm_get_or_null_ent (some pdp_virt) offs.pdp_off with
    | none => pure none
    | some pd_virt => vmm_get_or_null_ent (some pd_virt) offs.pd_off

/-- One round of `vmm_unmap_pages`; `false` is `return 0`. -/
def vmm_unmap_page (pml4 virt : U64) : TableProg Bool := do
  match ← vmm_find_pt pml4 virt with
  | none => pure false
  | some pt_virt => do
    writeEnt (some pt_virt) (vmm_virt_to_offs virt).pt_off 0
    pure true

/-- One round of `vmm_update_perms`. -/
def vmm_update_perm (pml4 perms virt : U64) : TableProg Bool := do
  match ← vmm_find_pt pml4 virt with
  | none => pure false
  | some pt_virt => do
    let ent ← readEnt (some pt_virt) (vmm_virt_to_offs virt).pt_off
    writeEnt (some pt_virt) (vmm_virt_to_offs virt).pt_off
      (ent &&& VMM_ADDR_MASK ||| perms ||| VMM_FLAG_PRESENT)
    pure true

/-- One round of `vmm_map_huge_pages`. -/
def vmm_map_huge_page (pml4 perms virt phys : U64) : TableProg Bool := do
  let offs := vmm_virt_to_offs virt
  let pdp_virt ← vmm_get_or_alloc_ent (ctxTable pml4) offs.pml4_off higher_perms
  let pd_virt ← vmm_get_or_alloc_ent pdp_virt offs.pdp_off higher_perms
  writeEnt pd_virt offs.pd_off (phys ||| perms ||| VMM_FLAG_PRESENT ||| VMM_FLAG_LARGE)
  pure true

/-- One round of `vmm_unmap_huge_pages`.  Only the first table is tested. -/
def vmm_unmap_huge_page (pml4 virt : U64) : TableProg Bool := do
  let offs := vmm_virt_to_offs virt
  match ← vmm_get_or_null_ent (ctxTable pml4) offs.pml4_off with
  | none => pure false
  | some pdp_virt => do
    let pd_virt ← vmm_get_or_null_ent (some pdp_virt) offs.pdp_off
    -- `pd_virt` may be null
    writeEnt pd_virt offs.pd_off 0
    pure true

/-- One round of `vmm_update_huge_perms`.  Only the first table is tested. -/
def vmm_update_huge_perm (pml4 perms virt : U64) : TableProg Bool := do
  let offs := vmm_virt_to_offs virt
  match ← vmm_get_or_null_ent (ctxTable pml4) offs.pml4_off with
  | none => pure false
  | some pdp_virt => do
    let pd_virt ← vmm_get_or_null_ent (some pdp_virt) offs.pdp_off
    let ent ← readEnt pd_virt offs.pd_off
    writeEnt pd_virt offs.pd_off
      (ent &&& VMM_ADDR_MASK ||| perms ||| VMM_FLAG_PRESENT ||| VMM_FLAG_LARGE)
    pure true

/-- Both addresses move on. -/
def step2 (size : U64) (p : U64 × U64) : U64 × U64 := (p.1 + size, p.2 + size)

def vmm_map_pages (pml4 virt phys count perms : U64) : TableProg Int := do
  let _ ← Traced.rounds (fun p => vmm_map_page pml4 perms p.1 p.2) (step2 0x1000) count.toNat
    (virt, phys)
  pure 1

def vmm_unmap_pages (pml4 virt count : U64) : TableProg Int := do
  let done ← Traced.rounds (vmm_unmap_page pml4) (· + 0x1000) count.toNat virt
  pure (if done then 1 else 0)

def vmm_update_perms (pml4 virt count perms : U64) : TableProg Int := do
  let _ ← Traced.rounds (vmm_update_perm pml4 perms) (· + 0x1000) count.toNat virt
  pure 0

def vmm_map_huge_pages (pml4 virt phys count perms : U64) : TableProg Int := do
  let _ ← Traced.rounds (fun p => vmm_map_huge_page pml4 perms p.1 p.2) (step2 0x200000)
    count.toNat (virt, phys)
  pure 1

def vmm_unmap_huge_pages (pml4 virt count : U64) : TableProg Int := do
  let done ← Traced.rounds (vmm_unmap_huge_page pml4) (· + 0x200000) count.toNat virt
  pure (if done then 1 else 0)

def vmm_update_huge_perms (pml4 virt count perms : U64) : TableProg Int := do
  let _ ← Traced.rounds (vmm_update_huge_perm pml4 perms) (· + 0x200000) count.toNat virt
  pure 0

/-! ## §3. Without the log. -/

@[simp] theorem readEnt_plain (tab : Table) (off : Nat) :
    (readEnt tab off).plain = Arch.readEnt tab off := by
  simp [readEnt]

@[simp] theorem writeEnt_plain (tab : Table) (off : Nat) (ent : U64) :
    (writeEnt tab off ent).plain = Arch.writeEnt tab off ent := by
  simp [writeEnt]

@[simp] theorem pmm_alloc_plain : pmm_alloc.plain = Arch.pmm_alloc 1 := rfl

@[simp] theorem memset_page_plain (ent_addr : U64) :
    (memset_page ent_addr).plain = Arch.memset_page ent_addr.toNat := by
  simp [memset_page]

@[simp] theorem follow_plain (ent : U64) : (follow ent).plain = pure (entTable ent) := by
  simp [follow]

@[simp] theorem vmm_get_or_alloc_ent_plain (tab : Table) (off : Nat) (flags : U64) :
    (vmm_get_or_alloc_ent tab off flags).plain = Arch.vmm_get_or_alloc_ent tab off flags := by
  simp [vmm_get_or_alloc_ent, Arch.vmm_get_or_alloc_ent]

@[simp] theorem vmm_get_or_null_ent_plain (tab : Table) (off : Nat) :
    (vmm_get_or_null_ent tab off).plain = Arch.vmm_get_or_null_ent tab off := by
  simp [vmm_get_or_null_ent, Arch.vmm_get_or_null_ent]

@[simp] theorem vmm_find_pt_plain (pml4 virt : U64) :
    (vmm_find_pt pml4 virt).plain = Arch.vmm_find_pt pml4 virt := by
  unfold vmm_find_pt Arch.vmm_find_pt
  rw [Traced.plain_bind, vmm_get_or_null_ent_plain]
  refine bind_congr fun pdp => ?_
  cases pdp with
  | none => rfl
  | some pdp_virt =>
    simp only [Traced.plain_bind, vmm_get_or_null_ent_plain]
    refine bind_congr fun pd => ?_
    cases pd with
    | none => rfl
    | some pd_virt => exact vmm_get_or_null_ent_plain _ _

@[simp] theorem vmm_map_page_plain (pml4 perms virt phys : U64) :
    (vmm_map_page pml4 perms virt phys).plain
      = Arch.vmm_map_page pml4 virt phys perms >>= fun _ => pure true := by
  simp [vmm_map_page, Arch.vmm_map_page]

theorem vmm_map_pages_plain (pml4 virt phys count perms : U64) :
    (vmm_map_pages pml4 virt phys count perms).plain
      = Arch.vmm_map_pages pml4 virt phys count.toNat perms := by
  refine Traced.plain_rounds (fun _ => 1)
    (fun n p => Arch.vmm_map_pages pml4 p.1 p.2 n perms) (fun _ => rfl) (fun n p => ?_) _ (virt, phys)
  simp [Arch.vmm_map_pages, step2]

theorem vmm_map_huge_pages_plain (pml4 virt phys count perms : U64) :
    (vmm_map_huge_pages pml4 virt phys count perms).plain
      = Arch.vmm_map_huge_pages pml4 virt phys count.toNat perms := by
  refine Traced.plain_rounds (fun _ => 1)
    (fun n p => Arch.vmm_map_huge_pages pml4 p.1 p.2 n perms) (fun _ => rfl) (fun n p => ?_) _
    (virt, phys)
  simp [vmm_map_huge_page, Arch.vmm_map_huge_page, Arch.vmm_map_huge_pages, step2]

theorem vmm_unmap_pages_plain (pml4 virt count : U64) :
    (vmm_unmap_pages pml4 virt count).plain = Arch.vmm_unmap_pages pml4 virt count.toNat := by
  refine Traced.plain_rounds (fun done => if done then 1 else 0)
    (fun n virt => Arch.vmm_unmap_pages pml4 virt n) (fun _ => rfl) (fun n virt => ?_) _ virt
  simp only [Arch.vmm_unmap_pages, vmm_unmap_page, Traced.plain_bind, vmm_find_pt_plain, bind_assoc]
  refine bind_congr fun pt => ?_
  cases pt <;> simp

theorem vmm_update_perms_plain (pml4 virt count perms : U64) :
    (vmm_update_perms pml4 virt count perms).plain
      = Arch.vmm_update_perms pml4 virt count.toNat perms := by
  refine Traced.plain_rounds (fun _ => 0)
    (fun n virt => Arch.vmm_update_perms pml4 virt n perms) (fun _ => rfl) (fun n virt => ?_) _ virt
  simp only [Arch.vmm_update_perms, vmm_update_perm, Traced.plain_bind, vmm_find_pt_plain, bind_assoc]
  refine bind_congr fun pt => ?_
  cases pt <;> simp

end Logged

end Quack.Arch
