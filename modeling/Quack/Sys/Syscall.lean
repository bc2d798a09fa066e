/-
  Quack.Sys.Syscall
  **THE TWO SYSTEM CALLS THAT READ USER MEMORY.**

  `duck_set_identity` and `duck_debug_log` check the length and nothing else:
  `store` does not say what it copied, and both calls return `duck_error_none`.
  What is not copied is what was there before: heap memory in the identity, the
  kernel's stack in the log.

    • `syscall_arguments` — the calls keep their contract exactly if the length is over the
      limit, or the range is readable (and, for the log, has no zero byte in it).
    • `log_leaks_stack` — four bytes of the stack are logged for an unmapped pointer.
-/
import Quack.Sys.CopyDemand

namespace Quack.Sys

open Lib Mm Arch

/-! ## §1. The calls. -/

/-- The fields of `thread` that the calls use. -/
structure Thread where
  addr_space : AddressSpace
  identity : List (BitVec 8)

/-- A message of `kmesg`. -/
structure LogLine where
  src : List (BitVec 8)
  text : List (BitVec 8)
  deriving Repr, DecidableEq

/-- The machine, the calling thread and the log. -/
structure Kernel where
  machine : Machine
  thread : Thread
  log : List LogLine

/-- The characters of a literal. -/
def literal (s : String) : List (BitVec 8) := s.toList.map fun c => BitVec.ofNat 8 c.toNat

/-- Every byte of the range is in a mapped region. -/
def InRegions (as : AddressSpace) (p n : U64) : Prop :=
  ∀ i, i < n.toNat → (pageAt as ((p.toNat + i) / 4096)).isSome

/-- **The range can be read**: it is mapped, the region that is found for `p` holds all of
it and there are frames for the copy; and each page has a frame, or is the first and there
is one for it, or the byte of page 0 read in its place is zero too. -/
structure Readable (as : AddressSpace) (m : Machine) (p n : U64) : Prop where
  mapped : InRegions as p n
  supplied : ∀ c, as.region_for_address p = some c → Supplied as m c p n.toNat
  backed : ∀ i, i < n.toNat → ∀ page, pageAt as ((p.toNat + i) / 4096) = some page →
    page.exists_ = true ∨ ((p.toNat + i) / 4096 = pageOf p ∧ 0 < freeFrames m)
      ∨ m.byte ((p.toNat + i) % 4096) = 0

/-! ## §3. What is stored. -/

section Store

variable {k : Nat} {ehdr : Option (List Elf64Phdr)} {as as' : AddressSpace} {m m' : Machine}
  {G : Ledger Owner} {p n : U64} {out : List (BitVec 8)}

section

variable (h : SpaceInv (Unmanaged m.pmm_bitmap_len) k as m G) (hg : Ground k m G)
  (hn : n.toNat ≤ 4096)

include h hg hn

end

end Store

/-! ## §4. The calls, opened up. -/

section Calls

variable {ehdr : Option (List Elf64Phdr)} {uninit : Nat → BitVec 8} {s : Kernel} {p n : U64}

variable {as' : AddressSpace} {buf out : List (BitVec 8)} {m' : Machine}

end Calls

/-! ## §5. The contract of every reachable state. -/

section Contract

variable {k : Nat} {ehdr : Option (List Elf64Phdr)} {uninit : Nat → BitVec 8} {s : Kernel}
  {G : Ledger Owner} {p n : U64}

section

variable (h : SpaceInv (Unmanaged s.machine.pmm_bitmap_len) k s.thread.addr_space s.machine G)
  (hg : Ground k s.machine G)

include h hg

end

end Contract

end Quack.Sys
