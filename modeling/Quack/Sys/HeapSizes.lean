/-
  Quack.Sys.HeapSizes
  **HOW MANY BYTES A BLOCK REALLY HAS.**

  `kmalloc` rounds the size up to a multiple of 8, adds the header and rounds up
  to pages, all without a check.  For the last seven sizes the first rounding
  wraps around to 0; the other sizes that wrap lead to a header outside the
  block's pages, and `kmalloc` faults.  `kcalloc` multiplies without a check.

    • `allocation_sizes_iff`   — in every state the kernel reaches.
-/
import Quack.Sys.HeapClients

namespace Quack.Sys

open Lib Mm Arch

/-! ## §1. Usable bytes. -/

/-- The `n` bytes from `p` on are mapped. -/
def Usable (m : Machine) (p : U64) (n : Nat) : Prop :=
  ∀ i, i < n → ∃ b, loadVirt8 (p + BitVec.ofNat 64 i) m = some (b, m)

/-- They are, and they are 0. -/
def Zeroed (m : Machine) (p : U64) (n : Nat) : Prop :=
  ∀ i, i < n → loadVirt8 (p + BitVec.ofNat 64 i) m = some (0, m)

theorem Zeroed.usable {m : Machine} {p : U64} {n : Nat} (h : Zeroed m p n) : Usable m p n :=
  fun i hi => ⟨0, h i hi⟩

section Sizes

variable {k : Nat} {m m' : Machine} {G : Ledger Owner} {b : HeapBlock} {blocks : List HeapBlock}

theorem HeapInv.usable_iff (h : HeapInv k m G blocks) (hb : b ∈ blocks) (n : Nat) :
    Usable m b.ptr n ↔ n ≤ b.payload := by
  constructor
  · intro husable
    by_contra hlt
    obtain ⟨x, hx⟩ := husable b.payload (by omega)
    rw [h.load_end hb] at hx
    cases hx
  · intro hn i hi
    exact ⟨_, h.load_data hb (by omega)⟩

theorem toNat_kmallocBytes (n : U64) :
    (kmallocBytes n).toNat = ((n.toNat + 7) % 2 ^ 64 / 8 * 8 + 16) % 2 ^ 64 := by
  unfold kmallocBytes
  rw [BitVec.toNat_add, BitVec.toNat_mul, BitVec.toNat_udiv, BitVec.toNat_add,
    show (8 : U64).toNat = 8 from rfl, show (7 : U64).toNat = 7 from rfl,
    show (16 : U64).toNat = 16 from rfl]
  omega

theorem payload_eq_round_up (hheader : 16 ≤ b.bytes) (h : b.size.toNat + 7 < 2 ^ 64) :
    b.payload = 8 * ((b.size.toNat + 7) / 8) := by
  have hbytes : b.bytes = _ := toNat_kmallocBytes b.size
  unfold HeapBlock.payload
  omega

theorem payload_eq_zero (h : 2 ^ 64 ≤ b.size.toNat + 7) : b.payload = 0 := by
  have hbytes : b.bytes = _ := toNat_kmallocBytes b.size
  have hlt := b.size.isLt
  unfold HeapBlock.payload
  omega

theorem size_le_payload_iff (hheader : 16 ≤ b.bytes) :
    b.size.toNat ≤ b.payload ↔ b.size.toNat + 7 < 2 ^ 64 := by
  have hlt := b.size.isLt
  constructor
  · intro hle
    by_contra hwrap
    rw [payload_eq_zero (by omega)] at hle
    omega
  · intro hsmall
    rw [payload_eq_round_up hheader hsmall]
    omega

/-! ## §2. The two functions. -/

variable {n p bytes elem : U64}

section

variable (h : HeapInv k m G blocks)

include h

theorem kmalloc_block
    (hrun : kmalloc n m = some (p, m')) (hp : p ≠ 0) :
    ∃ G', HeapInv k m' G' (⟨p, n⟩ :: blocks) := by
  obtain ⟨G', -, ⟨hzero, -⟩ | hinv⟩ := kmalloc_spec h hrun
  · exact absurd hzero hp
  · exact ⟨G', hinv⟩

theorem kcalloc_block
    (hrun : kcalloc bytes elem m = some (p, m')) (hp : p ≠ 0) :
    ∃ G', HeapInv k m' G' (⟨p, bytes * elem⟩ :: blocks)
      ∧ (bytes * elem).toNat ≤ (⟨p, bytes * elem⟩ : HeapBlock).payload
      ∧ ∀ i, i < (bytes * elem).toNat → kernelByte m' k (p.toNat + i) = 0 := by
  obtain ⟨out, m1, hmalloc, hrun⟩ := Prog.bind_eq_some.mp hrun
  obtain ⟨u, m2, hset, hrun⟩ := Prog.bind_eq_some.mp hrun
  obtain ⟨rfl, rfl⟩ := Prog.pure_eq_some.mp hrun
  obtain ⟨G', hinv⟩ := kmalloc_block h hmalloc hp
  have hfits : (bytes * elem).toNat ≤ (⟨out, bytes * elem⟩ : HeapBlock).payload := by
    by_contra hlt
    rw [hinv.memset_block_faults List.mem_cons_self 0 (by omega)] at hset
    cases hset
  obtain ⟨m3, hset', hinv', -, hbytes⟩ := hinv.memset_block List.mem_cons_self 0 hfits
  rw [hset'] at hset
  injection hset with hset
  injection hset with _ hset
  subst hset
  exact ⟨G', hinv', hfits, hbytes⟩

theorem kmalloc_usable_iff
    (hrun : kmalloc n m = some (p, m')) (hp : p ≠ 0) :
    Usable m' p n.toNat ↔ n.toNat + 7 < 2 ^ 64 := by
  obtain ⟨G', hinv⟩ := kmalloc_block h hrun hp
  rw [show p = (⟨p, n⟩ : HeapBlock).ptr from rfl, hinv.usable_iff List.mem_cons_self]
  exact size_le_payload_iff (hinv.ok _ List.mem_cons_self).header

theorem kcalloc_zeroed_iff
    (hrun : kcalloc bytes elem m = some (p, m')) (hp : p ≠ 0) :
    Zeroed m' p (bytes.toNat * elem.toNat) ↔ bytes.toNat * elem.toNat < 2 ^ 64 := by
  obtain ⟨G', hinv, hfits, hbytes⟩ := kcalloc_block h hrun hp
  constructor
  · intro hzero
    have hle := (hinv.usable_iff List.mem_cons_self _).mp hzero.usable
    have hend := (hinv.ok _ List.mem_cons_self).data_end
    have hstop := hinv.stop_lt List.mem_cons_self
    omega
  · intro hlt i hi
    have hprod : (bytes * elem).toNat = bytes.toNat * elem.toNat := by
      rw [BitVec.toNat_mul, Nat.mod_eq_of_lt hlt]
    have hload := hinv.load_data List.mem_cons_self (show i < _ by omega)
    rw [hbytes i (by omega)] at hload
    exact hload

end

end Sizes

/-- **The sizes of allocations**, in every state the kernel reaches: a block that
`kmalloc` returns has the bytes asked for iff rounding to 8 does not wrap around,
and one that `kcalloc` returns has as many zeros as the product says iff the
product does not wrap around. -/
theorem allocation_sizes_iff (ehdr : Option (List Elf64Phdr)) (s : System)
    (hs : Reachable ehdr s) :
    (∀ n p m', kmalloc n s.machine = some (p, m') → p ≠ 0 →
      (Usable m' p n.toNat ↔ n.toNat + 7 < 2 ^ 64))
    ∧ ∀ bytes elem p m', kcalloc bytes elem s.machine = some (p, m') → p ≠ 0 →
      (Zeroed m' p (bytes.toNat * elem.toNat) ↔ bytes.toNat * elem.toNat < 2 ^ 64) := by
  obtain ⟨k, G, h⟩ := KernelInv.reachable hs
  exact ⟨fun n p m' hrun hp => kmalloc_usable_iff h.sys.heap hrun hp,
    fun bytes elem p m' hrun hp => kcalloc_zeroed_iff h.sys.heap hrun hp⟩

theorem reachable_boot : Reachable none (System.init bootMachine) :=
  ⟨bootMachine, [], bootMachine_booted, trivial, rfl⟩

/-- A block of 5000 bytes, and one of 3 times 8 zeros. -/
theorem allocation_sizes_small :
    (∃ p m', kmalloc 5000 (System.init bootMachine).machine = some (p, m') ∧ p ≠ 0
      ∧ Usable m' p 5000)
    ∧ ∃ p m', kcalloc 3 8 (System.init bootMachine).machine = some (p, m') ∧ p ≠ 0
      ∧ Zeroed m' p 24 := by
  have hmalloc : (kmalloc 5000 (System.init bootMachine).machine).map Prod.fst
      = some 0x200000C78 := by decide +kernel
  have hcalloc : (kcalloc 3 8 (System.init bootMachine).machine).map Prod.fst
      = some 0x200000FE8 := by decide +kernel
  obtain ⟨⟨p, m1⟩, hrun1, hp⟩ := Option.map_eq_some_iff.mp hmalloc
  obtain ⟨⟨q, m2⟩, hrun2, hq⟩ := Option.map_eq_some_iff.mp hcalloc
  obtain rfl : p = 0x200000C78 := hp
  obtain rfl : q = 0x200000FE8 := hq
  obtain ⟨h1, h2⟩ := allocation_sizes_iff none _ reachable_boot
  exact ⟨⟨_, m1, hrun1, by decide, (h1 _ _ m1 hrun1 (by decide)).mpr (by decide)⟩,
    ⟨_, m2, hrun2, by decide, (h2 _ _ _ m2 hrun2 (by decide)).mpr (by decide)⟩⟩

/-- **Sizes that wrap around**: `kmalloc(2^64 - 1)` returns a block without data,
and so does `kcalloc(2^32, 2^32)`. -/
theorem allocation_sizes_wrapped :
    (∃ p m', kmalloc 0xFFFFFFFFFFFFFFFF bootMachine = some (p, m') ∧ p ≠ 0
      ∧ ¬ Usable m' p 0xFFFFFFFFFFFFFFFF)
    ∧ ∃ p m', kcalloc 0x100000000 0x100000000 bootMachine = some (p, m') ∧ p ≠ 0
      ∧ ¬ Zeroed m' p (0x100000000 * 0x100000000) := by
  have hmalloc : (kmalloc 0xFFFFFFFFFFFFFFFF bootMachine).map
      (fun r => (r.1, (loadVirt8 (r.1 + 0) r.2).map Prod.fst)) = some (0x200001000, none) := by
    decide +kernel
  have hcalloc : (kcalloc 0x100000000 0x100000000 bootMachine).map
      (fun r => (r.1, (loadVirt8 (r.1 + 0) r.2).map Prod.fst)) = some (0x200001000, none) := by
    decide +kernel
  obtain ⟨⟨p, m1⟩, hrun1, hp⟩ := Option.map_eq_some_iff.mp hmalloc
  obtain ⟨⟨q, m2⟩, hrun2, hq⟩ := Option.map_eq_some_iff.mp hcalloc
  simp only [Prod.mk.injEq, Option.map_eq_none_iff] at hp hq
  refine ⟨⟨p, m1, hrun1, by rw [hp.1]; decide, fun husable => ?_⟩,
    ⟨q, m2, hrun2, by rw [hq.1]; decide, fun hzero => ?_⟩⟩
  · obtain ⟨b, hb⟩ := husable 0 (by decide)
    rw [show BitVec.ofNat 64 0 = 0 from rfl, hp.2] at hb
    cases hb
  · have hb := hzero 0 (by decide)
    rw [show BitVec.ofNat 64 0 = 0 from rfl, hq.2] at hb
    cases hb

end Quack.Sys
