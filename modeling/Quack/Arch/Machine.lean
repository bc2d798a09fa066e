/-
  Quack.Arch.Machine
  **THE x86_64 MACHINE: physical memory and the kernel's static variables.**

  Physical memory is a function from word numbers to 64-bit words: word `w` is
  the eight bytes from physical address `8 w` on.  The frame allocator's bitmap
  and the page tables are arrays of aligned 64-bit words in it.

  The kernel reaches physical memory through the window at `VIRT_PHYS_BASE`,
  which `vmm_new_address_space` maps with `512 * 4` huge pages: an access past
  its end is a page fault, and the program stops.
-/
import Quack.Mm.Mapping

namespace Quack.Arch

open Lib

/-! ## §1. The state. -/

/-- Physical memory, with the static variables of `pmm.cpp`, `vmm.cpp` and
`heap.cpp`. -/
structure Machine where
  mem : Nat → U64
  pmm_bitmap_len : Nat
  pmm_free_pages : U64
  pmm_total_pages : U64
  kernel_pml4 : U64
  top : U64

/-- The end of the physical window. -/
def phys_window : Nat := 512 * 4 * 0x200000

namespace Machine

/-- Overwrite a word. -/
def setWord (m : Machine) (w : Nat) (v : U64) : Machine :=
  { m with mem := Function.update m.mem w v }

/-- Clear `n` words from `w` on. -/
def zeroWords (m : Machine) (w n : Nat) : Machine :=
  { m with mem := fun x => if w ≤ x ∧ x < w + n then 0 else m.mem x }

/-- Copy `n` words. -/
def copyWords (m : Machine) (dst src n : Nat) : Machine :=
  { m with mem := fun x => if dst ≤ x ∧ x < dst + n then m.mem (src + (x - dst)) else m.mem x }

/-- Word `i` of frame `f`: entry `i`, if the frame is a page table. -/
def slot (m : Machine) (f i : Nat) : U64 := m.mem (512 * f + i)

/-- The static variables of `m'` are those of `m`, the count of free pages
apart. -/
structure SameVars (m m' : Machine) : Prop where
  len : m'.pmm_bitmap_len = m.pmm_bitmap_len
  total : m'.pmm_total_pages = m.pmm_total_pages
  kernel : m'.kernel_pml4 = m.kernel_pml4
  top : m'.top = m.top

theorem SameVars.refl (m : Machine) : SameVars m m := ⟨rfl, rfl, rfl, rfl⟩

theorem SameVars.trans {m m' m'' : Machine} (h1 : SameVars m m') (h2 : SameVars m' m'') :
    SameVars m m'' :=
  ⟨h2.len.trans h1.len, h2.total.trans h1.total, h2.kernel.trans h1.kernel, h2.top.trans h1.top⟩

end Machine

/-! ## §2. Accesses through the window. -/

/-- Read the word at a physical address. -/
def load64 (phys : Nat) : Prog Machine U64 := do
  Prog.check (phys < phys_window)
  Prog.read (fun m => m.mem (phys / 8))

/-- Write the word at a physical address. -/
def store64 (phys : Nat) (v : U64) : Prog Machine Unit := do
  Prog.check (phys < phys_window)
  Prog.update (fun m => m.setWord (phys / 8) v)

/-- `memset(phys, 0, 4096)`. -/
def memset_page (phys : Nat) : Prog Machine Unit := do
  Prog.check (phys + 4096 ≤ phys_window)
  Prog.update (fun m => m.zeroWords (phys / 8) 512)

/-- `memcpy(dst, src, 2048)`. -/
def memcpy_half_page (dst src : Nat) : Prog Machine Unit := do
  Prog.check (dst + 2048 ≤ phys_window ∧ src + 2048 ≤ phys_window)
  Prog.update (fun m => m.copyWords (dst / 8) (src / 8) 256)

/-! ## §3. Small facts. -/

variable {m m' : Machine} {phys : Nat}

/-- A load returns exactly inside the window. -/
@[simp] theorem load64_eq_some {v : U64} :
    load64 phys m = some (v, m') ↔ phys < phys_window ∧ m.mem (phys / 8) = v ∧ m = m' := by
  simp only [load64, Prog.bind_eq_some, Prog.check_eq_some, Prog.read_eq_some]
  constructor
  · rintro ⟨_, t, ⟨h, rfl⟩, hv, rfl⟩
    exact ⟨h, hv, rfl⟩
  · rintro ⟨h, hv, rfl⟩
    exact ⟨(), m, ⟨h, rfl⟩, hv, rfl⟩

/-- A store returns exactly inside the window. -/
@[simp] theorem store64_eq_some {v : U64} {u : Unit} :
    store64 phys v m = some (u, m') ↔ phys < phys_window ∧ m.setWord (phys / 8) v = m' := by
  simp only [store64, Prog.bind_eq_some, Prog.check_eq_some, Prog.update_eq_some]
  constructor
  · rintro ⟨_, t, ⟨h, rfl⟩, rfl⟩
    exact ⟨h, rfl⟩
  · rintro ⟨h, rfl⟩
    exact ⟨(), m, ⟨h, rfl⟩, rfl⟩

/-- Clearing a page returns exactly if the page is in the window. -/
@[simp] theorem memset_page_eq_some {u : Unit} :
    memset_page phys m = some (u, m')
      ↔ phys + 4096 ≤ phys_window ∧ m.zeroWords (phys / 8) 512 = m' := by
  simp only [memset_page, Prog.bind_eq_some, Prog.check_eq_some, Prog.update_eq_some]
  constructor
  · rintro ⟨_, t, ⟨h, rfl⟩, rfl⟩
    exact ⟨h, rfl⟩
  · rintro ⟨h, rfl⟩
    exact ⟨(), m, ⟨h, rfl⟩, rfl⟩

/-- Copying half a page needs both halves in the window. -/
@[simp] theorem memcpy_half_page_eq_some {dst src : Nat} {u : Unit} :
    memcpy_half_page dst src m = some (u, m')
      ↔ (dst + 2048 ≤ phys_window ∧ src + 2048 ≤ phys_window)
        ∧ m.copyWords (dst / 8) (src / 8) 256 = m' := by
  simp only [memcpy_half_page, Prog.bind_eq_some, Prog.check_eq_some, Prog.update_eq_some]
  constructor
  · rintro ⟨_, t, ⟨h, rfl⟩, rfl⟩
    exact ⟨h, rfl⟩
  · rintro ⟨h, rfl⟩
    exact ⟨(), m, ⟨h, rfl⟩, rfl⟩

theorem phys_window_eq : phys_window = 2 ^ 32 := rfl

/-- Addresses of frames do not wrap. -/
theorem toNat_addr {f : Nat} (hf : f < 2 ^ 52) : (BitVec.ofNat 64 (4096 * f)).toNat = 4096 * f := by
  rw [BitVec.toNat_ofNat, Nat.mod_eq_of_lt (by omega)]

/-- No frame above 32 MiB has the address 0. -/
theorem frame_ne_null {f : Nat} (hlow : 0x2000 ≤ f) (hwin : f < 2 ^ 20) :
    BitVec.ofNat 64 (4096 * f) ≠ 0 := by
  intro hz
  have haddr := toNat_addr (f := f) (by omega)
  rw [hz] at haddr
  have hzero : (0 : U64).toNat = 0 := rfl
  omega

theorem slot_lt (x : Nat) : x % 512 < 512 := Nat.mod_lt _ (by omega)

namespace Machine

/-- The written word, -/
theorem setWord_mem_self (m : Machine) (w : Nat) (v : U64) : (m.setWord w v).mem w = v := by
  simp [setWord]

variable {w f g j : Nat}

/-- and the others. -/
theorem setWord_mem_ne (m : Machine) {x : Nat} (v : U64) (h : x ≠ w) :
    (m.setWord w v).mem x = m.mem x := by
  simp [setWord, h]

/-- Writing an entry of a table changes that entry only. -/
theorem setWord_slot (m : Machine) {i : Nat} (v : U64) (hi : i < 512) (hj : j < 512) :
    (m.setWord (512 * f + i) v).slot g j = if g = f ∧ j = i then v else m.slot g j := by
  unfold slot
  by_cases h : g = f ∧ j = i
  · obtain ⟨rfl, rfl⟩ := h
    rw [setWord_mem_self, if_pos ⟨rfl, rfl⟩]
  · rw [if_neg h, setWord_mem_ne]
    intro he
    apply h
    omega

/-- A write outside a frame leaves its words alone. -/
theorem setWord_slot_ne (m : Machine) (v : U64) (hj : j < 512) (h : g ≠ w / 512) :
    (m.setWord w v).slot g j = m.slot g j := by
  unfold slot
  rw [setWord_mem_ne]
  omega

/-- A cleared frame is zero, -/
theorem zeroWords_slot_self (m : Machine) (hj : j < 512) :
    (m.zeroWords (512 * f) 512).slot f j = 0 := by
  unfold slot zeroWords
  simp only
  rw [if_pos (by omega)]

/-- and the others are as before. -/
theorem zeroWords_slot_ne (m : Machine) (hj : j < 512) (h : g ≠ f) :
    (m.zeroWords (512 * f) 512).slot g j = m.slot g j := by
  unfold slot zeroWords
  simp only
  rw [if_neg (by omega)]

end Machine

end Quack.Arch
