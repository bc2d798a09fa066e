/-
  Quack.Arch.Vmm
  **THE PAGE TABLES (`vmm.cpp`).**

  A `pt_t *` is the physical address of the table behind the window, or `NULL`;
  following `NULL` is a page fault.  The loops over pages recurse on their
  count, the loops of `arch_mm_destroy_context` run over ranges.  CR3, the TLB
  and the log are left out: the kernel runs in its own context, and every
  translation is the one of the tables.
-/
import Quack.Arch.PmmRanges

namespace Quack.Arch

open Lib

/-! ## §1. Entries. -/

def VMM_FLAG_PRESENT : U64 := 0x1
def VMM_FLAG_WRITE : U64 := 0x2
def VMM_FLAG_USER : U64 := 0x4
def VMM_FLAG_PAT0 : U64 := 0x8
def VMM_FLAG_PAT1 : U64 := 0x10
def VMM_FLAG_PAT2 : U64 := 0x80
def VMM_FLAG_LARGE : U64 := 0x80
def VMM_FLAG_NX : U64 := 0x8000000000000000
def VMM_FLAG_MASK : U64 := 0x8000000000000FFF
def VMM_ADDR_MASK : U64 := ~~~ VMM_FLAG_MASK

/-- `pt_off_t`. -/
structure PtOff where
  pml4_off : Nat
  pdp_off : Nat
  pd_off : Nat
  pt_off : Nat
  deriving Repr, DecidableEq

def vmm_virt_to_offs (virt : U64) : PtOff where
  pml4_off := ((virt &&& 0x1ff#64 <<< 39) >>> 39).toNat
  pdp_off := ((virt &&& 0x1ff#64 <<< 30) >>> 30).toNat
  pd_off := ((virt &&& 0x1ff#64 <<< 21) >>> 21).toNat
  pt_off := ((virt &&& 0x1ff#64 <<< 12) >>> 12).toNat

/-- A `pt_t *`: the physical address behind the window. -/
abbrev Table := Option Nat

/-- `tab->ents[off]`. -/
def readEnt (tab : Table) (off : Nat) : Prog Machine U64 := do
  let t ← Prog.ofOption tab
  load64 (t + 8 * off)

/-- `tab->ents[off] = ent`. -/
def writeEnt (tab : Table) (off : Nat) (ent : U64) : Prog Machine Unit := do
  let t ← Prog.ofOption tab
  store64 (t + 8 * off) ent

/-- `(pt_t *)((ent & VMM_ADDR_MASK) + VIRT_PHYS_BASE)`. -/
def entTable (ent : U64) : Table := some (ent &&& VMM_ADDR_MASK).toNat

/-- `(pt_t *)((uint64_t)pml4 + VIRT_PHYS_BASE)`. -/
def ctxTable (pml4 : U64) : Table := some pml4.toNat

/-! ## §2. Walks. -/

def vmm_get_or_alloc_ent (tab : Table) (off : Nat) (flags : U64) : Prog Machine Table := do
  let ent_addr ← readEnt tab off
  if ent_addr &&& VMM_FLAG_PRESENT = 0 then
    let ent_addr ← pmm_alloc 1
    writeEnt tab off ent_addr
    if ent_addr = 0 then
      pure none
    else
      let ent ← readEnt tab off
      writeEnt tab off (ent ||| (flags ||| VMM_FLAG_PRESENT))
      memset_page ent_addr.toNat
      pure (entTable ent_addr)
  else
    pure (entTable ent_addr)

def vmm_get_or_null_ent (tab : Table) (off : Nat) : Prog Machine Table := do
  let ent_addr ← readEnt tab off
  if ent_addr &&& VMM_FLAG_PRESENT = 0 then
    pure none
  else
    pure (entTable ent_addr)

/-- What `vmm_map_pages` and `vmm_map_huge_pages` pass as `higher_perms`. -/
def higher_perms : U64 := VMM_FLAG_WRITE ||| VMM_FLAG_USER

/-- One round of `vmm_map_pages`. -/
def vmm_map_page (pml4 virt phys perms : U64) : Prog Machine Unit := do
  let offs := vmm_virt_to_offs virt
  let pdp_virt ← vmm_get_or_alloc_ent (ctxTable pml4) offs.pml4_off higher_perms
  let pd_virt ← vmm_get_or_alloc_ent pdp_virt offs.pdp_off higher_perms
  let pt_virt ← vmm_get_or_alloc_ent pd_virt offs.pd_off higher_perms
  writeEnt pt_virt offs.pt_off (phys ||| perms ||| VMM_FLAG_PRESENT)

def vmm_map_pages (pml4 : U64) : (virt phys : U64) → (count : Nat) → (perms : U64) →
    Prog Machine Int
  | _, _, 0, _ => pure 1
  | virt, phys, count + 1, perms => do
    vmm_map_page pml4 virt phys perms
    vmm_map_pages pml4 (virt + 0x1000) (phys + 0x1000) count perms

def vmm_find_pt (pml4 virt : U64) : Prog Machine Table := do
  let offs := vmm_virt_to_offs virt
  match ← vmm_get_or_null_ent (ctxTable pml4) offs.pml4_off with
  | none => pure none
  | some pdp_virt => do
    match ← vmm_get_or_null_ent (some pdp_virt) offs.pdp_off with
    | none => pure none
    | some pd_virt => vmm_get_or_null_ent (some pd_virt) offs.pd_off

def vmm_unmap_pages (pml4 : U64) : (virt : U64) → (count : Nat) → Prog Machine Int
  | _, 0 => pure 1
  | virt, count + 1 => do
    match ← vmm_find_pt pml4 virt with
    | none => pure 0
    | some pt_virt => do
      writeEnt (some pt_virt) (vmm_virt_to_offs virt).pt_off 0
      vmm_unmap_pages pml4 (virt + 0x1000) count

def vmm_update_perms (pml4 : U64) : (virt : U64) → (count : Nat) → (perms : U64) →
    Prog Machine Int
  | _, 0, _ => pure 0
  | virt, count + 1, perms => do
    match ← vmm_find_pt pml4 virt with
    | none => pure 0
    | some pt_virt => do
      let ent ← readEnt (some pt_virt) (vmm_virt_to_offs virt).pt_off
      writeEnt (some pt_virt) (vmm_virt_to_offs virt).pt_off
        (ent &&& VMM_ADDR_MASK ||| perms ||| VMM_FLAG_PRESENT)
      vmm_update_perms pml4 (virt + 0x1000) count perms

/-- One round of `vmm_map_huge_pages`. -/
def vmm_map_huge_page (pml4 virt phys perms : U64) : Prog Machine Unit := do
  let offs := vmm_virt_to_offs virt
  let pdp_virt ← vmm_get_or_alloc_ent (ctxTable pml4) offs.pml4_off higher_perms
  let pd_virt ← vmm_get_or_alloc_ent pdp_virt offs.pdp_off higher_perms
  writeEnt pd_virt offs.pd_off (phys ||| perms ||| VMM_FLAG_PRESENT ||| VMM_FLAG_LARGE)

def vmm_map_huge_pages (pml4 : U64) : (virt phys : U64) → (count : Nat) → (perms : U64) →
    Prog Machine Int
  | _, _, 0, _ => pure 1
  | virt, phys, count + 1, perms => do
    vmm_map_huge_page pml4 virt phys perms
    vmm_map_huge_pages pml4 (virt + 0x200000) (phys + 0x200000) count perms

def vmm_get_entry (pml4 virt : U64) : Prog Machine U64 :=
  -- the kernel image and the physical window are answered without a walk
  if virt ≥ 0xFFFFFFFF80000000 then pure (virt - 0xFFFFFFFF80000000)
  else if virt ≥ 0xFFFF800000000000 then pure (virt - 0xFFFF800000000000)
  else do
    match ← vmm_find_pt pml4 virt with
    | none => pure 0
    | some pt_virt => readEnt (some pt_virt) (vmm_virt_to_offs virt).pt_off

/-! ## §3. Contexts. -/

/-- The fields of `elf64_phdr` the kernel reads of its own image. -/
structure Elf64Phdr where
  p_type : BitVec 32
  p_flags : BitVec 32
  p_vaddr : U64
  p_paddr : U64
  p_memsz : U64
  deriving Repr, DecidableEq

def ELF_PHDR_TYPE_LOAD : BitVec 32 := 1
def ELF_PHDR_FLAG_X : BitVec 32 := 1
def ELF_PHDR_FLAG_W : BitVec 32 := 2

/-- Is the segment mapped?  The one that holds the SMP code is not. -/
def Elf64Phdr.loaded (phdr : Elf64Phdr) : Bool :=
  phdr.p_type == ELF_PHDR_TYPE_LOAD && decide (0xFFFFFFFF80000000 ≤ phdr.p_vaddr)

/-- The flags a segment is mapped with. -/
def Elf64Phdr.vmmFlags (phdr : Elf64Phdr) : U64 :=
  let flags := VMM_FLAG_NX ||| VMM_FLAG_PRESENT
  let flags := if phdr.p_flags &&& ELF_PHDR_FLAG_X ≠ 0 then flags &&& ~~~ VMM_FLAG_NX else flags
  if phdr.p_flags &&& ELF_PHDR_FLAG_W ≠ 0 then flags ||| VMM_FLAG_WRITE else flags

/-- The loop over the segments of the kernel image. -/
def vmm_map_segments (pml4 : U64) : List Elf64Phdr → Prog Machine Unit
  | [] => pure ()
  | phdr :: phdrs => do
    if phdr.loaded then
      let n_pages := (phdr.p_memsz + 0xFFF) / 0x1000
      let _ ← vmm_map_pages pml4 phdr.p_vaddr phdr.p_paddr n_pages.toNat phdr.vmmFlags
    vmm_map_segments pml4 phdrs

def vmm_new_address_space (ehdr : Option (List Elf64Phdr)) : Prog Machine U64 := do
  let new_pml4 ← pmm_alloc 1
  memset_page new_pml4.toNat
  let kernel_pml4 ← Prog.read Machine.kernel_pml4
  if kernel_pml4 ≠ 0 then
    memcpy_half_page (new_pml4.toNat + 2048) (kernel_pml4.toNat + 2048)
    pure new_pml4
  else
    let _ ← vmm_map_huge_pages new_pml4 0xFFFF800000000000 0 (512 * 4) 3
    match ehdr with
    | none => do
      let _ ← vmm_map_huge_pages new_pml4 0xFFFFFFFF80000000 0 64 3
      pure new_pml4
    | some phdrs => do
      vmm_map_segments new_pml4 phdrs
      pure new_pml4

def vmm_init (ehdr : Option (List Elf64Phdr)) : Prog Machine Unit := do
  let pml4 ← vmm_new_address_space ehdr
  Prog.update (fun m => { m with kernel_pml4 := pml4 })

/-! ## §4. The functions of `arch/mm.h`. -/

/-- `vm_perm::read`, `write`, `execute` and `user`, and `rw`. -/
def vm_perm_read : BitVec 32 := 0x1
def vm_perm_write : BitVec 32 := 0x2
def vm_perm_execute : BitVec 32 := 0x4
def vm_perm_user : BitVec 32 := 0x8
def vm_perm_rw : BitVec 32 := 0x3

/-- `arch_flags |= flag` in an `int`: only the low half of the flag is kept. -/
def orFlag (set : Bool) (arch_flags : BitVec 32) (flag : U64) : BitVec 32 :=
  if set then (arch_flags.signExtend 64 ||| flag).truncate 32 else arch_flags

def vmm_arch_to_vmm_flags (flags cache : BitVec 32) : BitVec 32 :=
  let arch_flags := orFlag (flags &&& vm_perm_write != 0) 0 VMM_FLAG_WRITE
  let arch_flags := orFlag (flags &&& vm_perm_user != 0) arch_flags VMM_FLAG_USER
  let arch_flags := orFlag (flags &&& vm_perm_execute == 0) arch_flags VMM_FLAG_NX
  let arch_flags := orFlag (cache &&& 0x1 != 0) arch_flags VMM_FLAG_PAT0
  let arch_flags := orFlag (cache &&& 0x2 != 0) arch_flags VMM_FLAG_PAT1
  orFlag (cache &&& 0x4 != 0) arch_flags VMM_FLAG_PAT2

def arch_mm_map (ctx dst src size : U64) (flags cache : BitVec 32) : Prog Machine Int :=
  vmm_map_pages ctx dst src size.toNat ((vmm_arch_to_vmm_flags flags cache).signExtend 64)

def arch_mm_unmap (ctx dst size : U64) : Prog Machine Int :=
  vmm_unmap_pages ctx dst size.toNat

def arch_mm_map_kernel (dst src size : U64) (flags cache : BitVec 32) : Prog Machine Int := do
  let kernel_pml4 ← Prog.read Machine.kernel_pml4
  arch_mm_map kernel_pml4 dst src size flags cache

def arch_mm_unmap_kernel (dst size : U64) : Prog Machine Int := do
  let kernel_pml4 ← Prog.read Machine.kernel_pml4
  arch_mm_unmap kernel_pml4 dst size

def arch_mm_get_phys_kernel (dst : U64) : Prog Machine U64 := do
  let kernel_pml4 ← Prog.read Machine.kernel_pml4
  let ent ← vmm_get_entry kernel_pml4 dst
  pure (ent &&& VMM_ADDR_MASK)

/-- `arch_flags & flag` for an `int`. -/
def andFlag (arch_flags : BitVec 32) (flag : U64) : Bool := arch_flags.signExtend 64 &&& flag != 0

/-- What `arch_mm_get_flags_kernel` makes of an entry. -/
def flagsOf (ent : U64) : BitVec 32 :=
  -- an `int`: bit 63 does not fit
  let arch_flags : BitVec 32 := (ent &&& VMM_FLAG_MASK).truncate 32
  let flags := if arch_flags != 0 then vm_perm_read else 0
  let flags := if andFlag arch_flags VMM_FLAG_WRITE then flags ||| vm_perm_write else flags
  let flags := if andFlag arch_flags VMM_FLAG_USER then flags ||| vm_perm_user else flags
  if !andFlag arch_flags VMM_FLAG_NX then flags ||| vm_perm_execute else flags

def arch_mm_get_flags_kernel (dst : U64) : Prog Machine (BitVec 32) := do
  let kernel_pml4 ← Prog.read Machine.kernel_pml4
  let ent ← vmm_get_entry kernel_pml4 dst
  pure (flagsOf ent)

/-- What `arch_mm_get_cache_kernel` makes of an entry. -/
def cacheOf (ent : U64) : BitVec 32 :=
  let arch_flags : BitVec 32 := (ent &&& VMM_FLAG_MASK).truncate 32
  let flags := if andFlag arch_flags VMM_FLAG_PAT0 then 0x1 else 0
  let flags := if andFlag arch_flags VMM_FLAG_PAT1 then flags ||| 0x2 else flags
  if andFlag arch_flags VMM_FLAG_PAT2 then flags ||| 0x4 else flags

def arch_mm_get_cache_kernel (dst : U64) : Prog Machine (BitVec 32) := do
  let kernel_pml4 ← Prog.read Machine.kernel_pml4
  let ent ← vmm_get_entry kernel_pml4 dst
  pure (cacheOf ent)

def arch_mm_alloc_phys (blocks : U64) : Prog Machine U64 := pmm_alloc blocks

def arch_mm_free_phys (mem blocks : U64) : Prog Machine Int := do
  pmm_free mem blocks
  pure 1

def arch_mm_create_context (ehdr : Option (List Elf64Phdr)) : Prog Machine U64 :=
  vmm_new_address_space ehdr

def destroyPd (pd_virt : Nat) : List Nat → Prog Machine Unit
  | [] => pure ()
  | k :: ks => do
    let ent ← readEnt (some pd_virt) k
    if ent &&& VMM_FLAG_LARGE ≠ 0 then
      destroyPd pd_virt ks
    else if ent &&& VMM_FLAG_PRESENT ≠ 0 then
      destroyPd pd_virt ks
    else do
      pmm_free (ent &&& VMM_ADDR_MASK) 1
      destroyPd pd_virt ks

def destroyTables (inner : Nat → Prog Machine Unit) (tab : Nat) : List Nat → Prog Machine Unit
  | [] => pure ()
  | i :: is => do
    match ← vmm_get_or_null_ent (some tab) i with
    | none => destroyTables inner tab is
    | some tab_virt => do
      inner tab_virt
      let ent ← readEnt (some tab) i
      pmm_free (ent &&& VMM_ADDR_MASK) 1
      destroyTables inner tab is

/-- The middle loop. -/
def destroyPdp (pdp_virt : Nat) : List Nat → Prog Machine Unit :=
  destroyTables (fun pd_virt => destroyPd pd_virt (List.range 512)) pdp_virt

/-- The outer loop. -/
def destroyPml4 (pml4_virt : Nat) : List Nat → Prog Machine Unit :=
  destroyTables (fun pdp_virt => destroyPdp pdp_virt (List.range 512)) pml4_virt

def arch_mm_destroy_context (ctx : U64) : Prog Machine Unit := do
  destroyPml4 ctx.toNat (List.range 256)
  pmm_free ctx 1

end Quack.Arch
