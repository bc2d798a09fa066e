/-
  Quack.Sys.HeapClients
  **THE HEAP IN USE.**

  The owner of a block may write to its data.  `kernelStep` adds such writes to
  the calls of the kernel, so that `Reachable` has the blocks with whatever
  contents; `kcalloc` and `krealloc` are made of these steps.
-/
import Quack.Sys.System

namespace Quack.Sys

open Lib Arch

/-! ## §1. Steps of the kernel. -/

inductive KernelOp where
  | sys (op : SysOp)
  /-- The owner of a live block, by position, writes a byte of its data. -/
  | store (block offset : Nat) (b : BitVec 8)
  deriving Repr, DecidableEq

def kernelStep (ehdr : Option (List Elf64Phdr)) (s : System) : KernelOp → Option System
  | .sys op => sysStep ehdr s op
  | .store block offset b => do
    let c ← Cursor.at? s.blocks block
    let (_, m) ← storeVirt8 (c.elem.ptr + BitVec.ofNat 64 offset) b s.machine
    pure { s with machine := m }

/-- Calls are sound, and owners stay inside their blocks. -/
def KernelOp.Sound (s : System) : KernelOp → Prop
  | .sys op => op.Sound (fun _ => True) s
  | .store block offset _ => ∀ c, Cursor.at? s.blocks block = some c → offset < c.elem.payload

/-- The states of the kernel after `vmm_init`. -/
def Reachable (ehdr : Option (List Elf64Phdr)) (s : System) : Prop :=
  ∃ m ops, Booted m ∧ Along (kernelStep ehdr) (fun s op => op.Sound s) (System.init m) ops
    ∧ run (kernelStep ehdr) (System.init m) ops = some s

structure KernelInv (k : Nat) (G : Ledger Owner) (s : System) : Prop where
  sys : SysInv (fun _ => True) k G s
  only : OnlyHeap k s.machine G

section Steps

variable {k : Nat} {G : Ledger Owner} {ehdr : Option (List Elf64Phdr)} {s s' : System}

theorem KernelInv.step (h : KernelInv k G s) {op : KernelOp} (hsound : op.Sound s)
    (hstep : kernelStep ehdr s op = some s') : ∃ G', KernelInv k G' s' := by
  cases op with
  | sys op =>
    obtain ⟨G', hinv, -, honly⟩ := h.sys.step_only hsound hstep
    exact ⟨G', hinv, honly h.only⟩
  | store block offset b =>
    obtain ⟨c, hc, hstep⟩ := Option.bind_eq_some_iff.mp hstep
    obtain ⟨⟨u, m⟩, hrun, hstep⟩ := Option.bind_eq_some_iff.mp hstep
    injection hstep with hstep
    subst hstep
    have hheap := h.sys.heap
    have hmem : c.elem ∈ s.blocks := Cursor.elem_mem (Cursor.toList_of_at? hc)
    have hoff := hsound c hc
    have hok := hheap.ok _ hmem
    have hend := hok.data_end
    have hstop := hheap.stop_lt hmem
    have haddr := hheap.toNat_data hmem (Nat.le_of_lt hoff)
    have hpage : HeapPage k s.machine G ((c.elem.ptr + BitVec.ofNat 64 offset).toNat / 4096) := by
      rw [haddr]
      exact hok.heapPage (by omega) (by omega)
    obtain ⟨m', hstore, hw, -⟩ := storeVirt8_heap hheap.toHeapTop (by omega) hpage b
    rw [hstore] at hrun
    injection hrun with hrun
    injection hrun with _ hrun
    subst hrun
    refine ⟨G, h.sys.heapConfined hw.confined (hheap.writes_data hmem hw ?_),
      h.only.keep hw.entries fun _ _ hf => hf⟩
    rintro a rfl
    omega

theorem KernelInv.init {m : Machine} (hboot : Booted m) :
    ∃ k G, KernelInv k G (System.init m) := by
  obtain ⟨k, G, h⟩ := SysInv.init (Q := fun _ => True) hboot
  refine ⟨k, G, h, fun v hv => Or.inl ?_⟩
  obtain ⟨k', G', hA, hk, honly, -⟩ := hboot
  have hkernel : m.kernel_pml4.toNat = 4096 * k := h.heap.kernel
  obtain rfl : k = k' := by omega
  exact hA.entry_eq_zero honly hv

theorem KernelInv.reachable (h : Reachable ehdr s) : ∃ k G, KernelInv k G s := by
  obtain ⟨m, ops, hboot, hsound, hrun⟩ := h
  obtain ⟨k, G, hinit⟩ := KernelInv.init hboot
  obtain ⟨G', h'⟩ := Along.invariant (kernelStep ehdr) (fun s => ∃ G, KernelInv k G s)
    (fun s op s' ⟨G, h⟩ hop hs => h.step hop hs) ops _ s ⟨G, hinit⟩ hsound hrun
  exact ⟨k, G', h'⟩

end Steps

end Quack.Sys
