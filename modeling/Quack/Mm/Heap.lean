/-
  Quack.Mm.Heap
  **THE KERNEL'S HEAP (`mm/heap.cpp`).**

  The heap grows upwards from `vm_heap_base` and reuses no addresses.  A block
  is a whole number of pages with an unmapped page after it; the data sits at
  the end of the pages, below it 16 bytes of header: the size and the number
  of pages.  Header and data are read and written through the kernel's tables.
-/
import Quack.Arch.Window

namespace Quack.Mm

open Lib Arch

/-! ## §1. Memory. -/

/-- A 64-bit read at a multiple of 8. -/
def loadVirt64 (virt : U64) : Prog Machine U64 := do
  let phys ← virtToPhys virt
  Prog.read (fun m => m.mem (phys / 8))

/-- A 64-bit write at a multiple of 8. -/
def storeVirt64 (virt v : U64) : Prog Machine Unit := do
  let phys ← virtToPhys virt
  Prog.update (fun m => m.setWord (phys / 8) v)

/-- `memset` (`lib/string.cpp`) at a virtual address. -/
def memsetVirt (arr : U64) (val : BitVec 8) : (len : Nat) → Prog Machine Unit
  | 0 => pure ()
  | len + 1 => do
    storeVirt8 arr val
    memsetVirt (arr + 1) val len

/-- `memcpy` (`lib/string.cpp`) at virtual addresses. -/
def memcpyVirt (dest src : U64) : (len : Nat) → Prog Machine Unit
  | 0 => pure ()
  | len + 1 => do
    let b ← loadVirt8 src
    storeVirt8 dest b
    memcpyVirt (dest + 1) (src + 1) len

/-! ## §2. The functions. -/

def vm_cache_def : BitVec 32 := 0

/-- `bytes`, rounded up to a multiple of 8 and with the header. -/
def kmallocBytes (bytes : U64) : U64 := (bytes + 7) / 8 * 8 + 16

/-- The pages for `bytes`, header included. -/
def heapPages (bytes : U64) : U64 := (bytes + vm_page_size - 1) / vm_page_size

def kmallocPages : Nat → Prog Machine Bool
  | 0 => pure true
  | pages + 1 => do
    let p ← arch_mm_alloc_phys 1
    if p = 0 then
      pure false
    else do
      let top ← Prog.read Machine.top
      let _ ← arch_mm_map_kernel top p 1 vm_perm_rw vm_cache_def
      Prog.update (fun m => { m with top := m.top + vm_page_size })
      kmallocPages pages

def kmalloc (bytes : U64) : Prog Machine U64 := do
  let bytes := kmallocBytes bytes
  let pages := heapPages bytes
  let out ← Prog.read Machine.top
  if ← kmallocPages pages.toNat then do
    Prog.update (fun m => { m with top := m.top + vm_page_size })
    let out := out + (pages * vm_page_size - bytes)
    storeVirt64 out (bytes - 16)
    storeVirt64 (out + 8) pages
    pure (out + 16)
  else
    pure 0

/-- The loop of `kfree`. -/
def kfreePages : Nat → (curr : U64) → Prog Machine Unit
  | 0, _ => pure ()
  | pages + 1, curr => do
    let p ← arch_mm_get_phys_kernel curr
    let _ ← arch_mm_unmap_kernel curr 1
    let _ ← arch_mm_free_phys p 1
    kfreePages pages (curr + vm_page_size)

def kfree (ptr : U64) : Prog Machine Unit := do
  let size ← loadVirt64 (ptr - 16)
  let req_pages ← loadVirt64 (ptr - 8)
  let start := ptr &&& ~~~ (vm_page_size - 1)
  let size := size + 16
  let pages := heapPages size
  Prog.check (req_pages = pages)
  kfreePages pages.toNat start

def kcalloc (bytes elem : U64) : Prog Machine U64 := do
  let out ← kmalloc (bytes * elem)
  -- the answer of `kmalloc` is not checked
  memsetVirt out 0 (bytes * elem).toNat
  pure out

def krealloc (old s : U64) : Prog Machine U64 := do
  let newp ← kmalloc s
  if old ≠ 0 then do
    let size ← loadVirt64 (old - 16)
    -- nor is it here, and the size is that of the old block
    memcpyVirt newp old size.toNat
    kfree old
  pure newp

/-- `laihost_realloc` (`arch/x86_64/acpi/lai_host.cpp`). -/
def laihost_realloc (ptr len : U64) : Prog Machine U64 := do
  let mem ← krealloc ptr len
  memsetVirt mem 0 len.toNat
  pure mem

/-! ## §3. Their parts. -/

variable {κ : Type} {k : Nat} {m m' : Machine} {G : Ledger κ}

/-- The word at a virtual address. -/
def kernelWord (m : Machine) (k a : Nat) : U64 :=
  m.slot (frameOf (m.entry k (a / 4096))) (a % 4096 / 8)

theorem loadVirt64_spec (h : Accounted k m G) (hk : m.kernel_pml4.toNat = 4096 * k) {virt v : U64}
    (hv : virt.toNat < 2 ^ 47) (hrun : loadVirt64 virt m = some (v, m')) :
    m = m' ∧ v = kernelWord m k virt.toNat := by
  simp only [loadVirt64, Prog.bind_eq_some, virtToPhys_eq_some, Prog.read_eq_some] at hrun
  obtain ⟨phys, _, ⟨hp, rfl⟩, rfl, rfl⟩ := hrun
  refine ⟨rfl, ?_⟩
  obtain ⟨f, hchild, rfl⟩ := physOf_lower h hk hv hp
  unfold kernelWord Machine.slot
  rw [show virt.toNat / 4096 = pageOf virt from rfl]
  rw [show frameOf (m.entry k (pageOf virt)) = f from frameOf_eq_of_child hchild]
  congr 1
  omega

theorem storeVirt64_spec (h : Accounted k m G) (hk : m.kernel_pml4.toNat = 4096 * k)
    {virt v : U64} {u : Unit} (hv : virt.toNat < 2 ^ 47)
    (hrun : storeVirt64 virt v m = some (u, m')) :
    ∃ f, child (m.entry k (pageOf virt)) = some f
      ∧ m' = m.setWord (512 * f + virt.toNat % 4096 / 8) v := by
  simp only [storeVirt64, Prog.bind_eq_some, virtToPhys_eq_some, Prog.update_eq_some] at hrun
  obtain ⟨phys, _, ⟨hp, rfl⟩, rfl⟩ := hrun
  obtain ⟨f, hchild, rfl⟩ := physOf_lower h hk hv hp
  refine ⟨f, hchild, ?_⟩
  rw [show (4096 * f + virt.toNat % 4096) / 8 = 512 * f + virt.toNat % 4096 / 8 by omega]

theorem vmm_get_entry_spec {pml4 virt ent : U64} {r : Nat} (hr : pml4.toNat = 4096 * r)
    (hv : virt.toNat < 2 ^ 47) (hrun : vmm_get_entry pml4 virt m = some (ent, m')) :
    m = m' ∧ ent = m.entry r (pageOf virt) := by
  have hlow : ¬ virt ≥ 0xFFFF800000000000 := by
    intro hge
    have hge' := BitVec.le_def.mp hge
    rw [show (0xFFFF800000000000 : U64).toNat = 0xFFFF800000000000 from rfl] at hge'
    omega
  have himage : ¬ virt ≥ 0xFFFFFFFF80000000 := by
    intro hge
    have hge' := BitVec.le_def.mp hge
    rw [show (0xFFFFFFFF80000000 : U64).toNat = 0xFFFFFFFF80000000 from rfl] at hge'
    omega
  unfold vmm_get_entry at hrun
  rw [if_neg himage, if_neg hlow] at hrun
  simp only [Prog.bind_eq_some] at hrun
  obtain ⟨o, m1, hfind, hrest⟩ := hrun
  obtain ⟨rfl, ⟨rfl, hzero⟩ | ⟨pt, rfl, ht⟩⟩ := vmm_find_pt_cases hr hfind
  · simp only [Prog.pure_eq_some] at hrest
    obtain ⟨rfl, rfl⟩ := hrest
    exact ⟨rfl, hzero.symm⟩
  · obtain ⟨t, htab, -, rfl, rfl⟩ := readEnt_eq_some hrest
    injection htab with htab
    subst htab
    refine ⟨rfl, ?_⟩
    rw [vmm_virt_to_offs_eq, entry_word]
    unfold Machine.entry
    rw [ht]
    rfl

end Quack.Mm
