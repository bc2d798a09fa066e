/-
  Quack.Sys.HeapFailure
  **THE HEAP WHEN THE FRAMES RUN OUT.**

  `kmalloc` commits page by page: a frame, its mapping, the end of the heap.  If
  frames run out on the way, what was committed stays; if the frame that is
  missing is one for a table, `vmm_map_page` follows a null table.  `kcalloc` and
  `krealloc` do not look at the answer: they write to address 0.

    • `failure_atomic_iff`         — nothing has happened iff there was no frame at
      all and the caller does not use the answer.
-/
import Quack.Sys.Realloc

namespace Quack.Sys

open Lib Mm Arch

/-! ## §1. Enough frames. -/

section Frames

variable {k : Nat} {m m1 : Machine} {G : Ledger Owner} {f : Nat}

theorem freeFrames_set_top (m : Machine) (top : U64) :
    freeFrames { m with top := top } = freeFrames m :=
  freeFrames_congr rfl fun _ _ => rfl

theorem tablesMissing_set_top (m : Machine) (top : U64) (r : Nat) (pages : Finset Nat) :
    tablesMissing { m with top := top } r pages = tablesMissing m r pages := rfl

theorem HeapTop.take_missing (h : HeapTop k m G) (hlen : f < m.pmm_bitmap_len)
    (hbit : m.bit f = false) {P : Finset (List Nat)} (hP : ∀ q ∈ P, Forest.Inner LowerSlot q) :
    missingPaths (m.take f) k P = missingPaths m k P := by
  ext q
  simp only [mem_missingPaths]
  refine and_congr_right fun hq => ?_
  rw [h.take_walk hlen hbit (hP q hq)]

section

variable (h : HeapTop k m G) (hlow : 0x2000 ≤ f) (hlen : f < m.pmm_bitmap_len) (hwin : f < 2 ^ 20)
  (hbit : m.bit f = false)

include h hlow hlen hwin hbit

theorem HeapTop.take_freeFrames :
    freeFrames (m.take f) + 1 = freeFrames m :=
  freeFrames_take (mem_freeSet.mpr ⟨hlow, hlen, hwin, hbit⟩) (m.take_vars f).len
    fun _ hg => m.take_bit hg (h.accounted.not_bitmapFrame hlen hbit)

theorem HeapTop.round_iff {P : Machine → Prop} {n : Nat} (hn : pageOf m.top + (n + 1) ≤ 2 ^ 35)
    (hP : ∀ i m1, arch_mm_map_kernel m.top (BitVec.ofNat 64 (4096 * f)) 1 vm_perm_rw vm_cache_def
      (m.take f) = some (i, m1) → (P m1 ↔ tablesMissing m1 k
        (Finset.Ico (pageOf m.top + 1) (pageOf m.top + 1 + n)) + n ≤ freeFrames m1)) :
    (∃ i m1, arch_mm_map_kernel m.top (BitVec.ofNat 64 (4096 * f)) 1 vm_perm_rw vm_cache_def
        (m.take f) = some (i, m1) ∧ P m1)
      ↔ n + 1 + tablesMissing m k (Finset.Ico (pageOf m.top) (pageOf m.top + (n + 1)))
        ≤ freeFrames m := by
  have h1 := h.accounted.take_data (.heap (pageOf m.top)) hlow hlen hwin hbit
  have hone := h.take_freeFrames hlow hlen hwin hbit
  have hkernel : (m.take f).kernel_pml4.toNat = 4096 * k := by
    rw [(m.take_vars f).kernel]
    exact h.kernel
  have hcall : ∀ m1, (∃ i, arch_mm_map_kernel m.top (BitVec.ofNat 64 (4096 * f)) 1 vm_perm_rw
      vm_cache_def (m.take f) = some (i, m1)) ↔ vmm_map_page (m.take f).kernel_pml4 m.top
        (BitVec.ofNat 64 (4096 * f)) ((vmm_arch_to_vmm_flags vm_perm_rw vm_cache_def).signExtend 64)
        (m.take f) = some ((), m1) := by
    intro m1
    constructor
    · rintro ⟨_, hmap⟩
      exact vmm_map_pages_one hmap
    · exact fun hpage => ⟨1, vmm_map_pages_one_apply hpage⟩
  have hiff := vmm_map_page_then_iff n h1 h1.kernel hkernel (show pageOf m.top < _ by omega)
    (row_lt (show pageOf m.top + 1 + n ≤ _ by omega)) fun m1 _ hpage _ _ => by
      obtain ⟨i, hmap⟩ := (hcall m1).mpr hpage
      exact hP i m1 hmap
  have htake : tablesMissing (m.take f) k _ = tablesMissing m k _ :=
    congrArg Finset.card (h.take_missing hlen hbit (inner_biUnion (row_lt hn)))
  rw [← row_succ, htake] at hiff
  constructor
  · rintro ⟨i, m1, hmap, hrest⟩
    have hle := hiff.mp ⟨m1, (hcall m1).mp ⟨i, hmap⟩, hrest⟩
    omega
  · intro hle
    obtain ⟨m1, hpage, hrest⟩ := hiff.mpr (by omega)
    obtain ⟨i, hmap⟩ := (hcall m1).mpr hpage
    exact ⟨i, m1, hmap, hrest⟩

end

theorem kmallocPages_round {n : Nat} {i : Int} (hrun : pmm_alloc 1 m
      = some (BitVec.ofNat 64 (4096 * f), m.take f)) (hlow : 0x2000 ≤ f) (hwin : f < 2 ^ 20)
    (hmap : arch_mm_map_kernel m.top (BitVec.ofNat 64 (4096 * f)) 1 vm_perm_rw vm_cache_def
      (m.take f) = some (i, m1)) :
    kmallocPages (n + 1) m = kmallocPages n { m1 with top := m1.top + vm_page_size } := by
  show (arch_mm_alloc_phys 1 >>= _) m = _
  rw [Prog.bind_apply (show arch_mm_alloc_phys 1 m = _ from hrun),
    if_neg (frame_ne_null hlow hwin), Prog.bind_apply (Prog.read_eq_some.mpr ⟨rfl, rfl⟩),
    (m.take_vars f).top, Prog.bind_apply hmap]
  rfl

theorem kmallocPages_completes_iff :
    ∀ (n : Nat) (m : Machine) (G : Ledger Owner), HeapTop k m G →
      ((∃ m', kmallocPages n m = some (true, m'))
        ↔ n + tablesMissing m k (Finset.Ico (pageOf m.top) (pageOf m.top + n)) ≤ freeFrames m) := by
  intro n
  induction n with
  | zero =>
    intro m G _
    refine ⟨fun _ => ?_, fun _ => ⟨m, rfl⟩⟩
    simp [tablesMissing, missingPaths]
  | succ n ih =>
    intro m G h
    have hwindow := h.top_lt
    have hround : ∀ f, 0x2000 ≤ f → f < m.pmm_bitmap_len → f < 2 ^ 20 → m.bit f = false →
        pageOf m.top + (n + 1) ≤ 2 ^ 35 → _ := fun f hlow hlen hwin hbit hn =>
      h.round_iff (P := fun m1 => ∃ m', kmallocPages n { m1 with top := m1.top + vm_page_size }
        = some (true, m')) hlow hlen hwin hbit hn fun i m1 hmap => by
        obtain ⟨G1, h1, -, htop⟩ := h.grow hlow hlen hwin hbit hmap
        rw [ih _ G1 h1, freeFrames_set_top, tablesMissing_set_top, htop, pageOf_top_succ h,
          Nat.add_comm n]
    constructor
    · rintro ⟨m', hrun⟩
      obtain ⟨_, h', -, hpages⟩ := kmallocPages_spec (n + 1) m m' G true h hrun
      have hle := h'.le
      have hend := hpages rfl
      rcases kmallocPages_succ h hrun with
        ⟨hb, -⟩ | ⟨f, i, m1, hlow, hlen, hwin, hbit, hmap, hrun⟩
      · cases hb
      · exact (hround f hlow hlen hwin hbit (by omega)).mp ⟨i, m1, hmap, m', hrun⟩
    · intro hle
      have hfew := freeFrames_le m
      obtain ⟨f, halloc, hmem, -⟩ := pmm_alloc_returns h.accounted (by omega)
      obtain ⟨hlow, hlen, hwin, hbit⟩ := mem_freeSet.mp hmem
      obtain ⟨i, m1, hmap, m', hrun⟩ := (hround f hlow hlen hwin hbit (by omega)).mpr hle
      exact ⟨m', by rw [kmallocPages_round halloc hlow hwin hmap, hrun]⟩

end Frames

/-! ## §2. Not enough. -/

/-- The allocator has nothing left. -/
def NoFrame (m : Machine) : Prop :=
  ∀ f, 0x2000 ≤ f → f < m.pmm_bitmap_len → m.bit f = true

def framesFor (m : Machine) (n : U64) : Nat :=
  (heapPages (kmallocBytes n)).toNat + tablesMissing m (rootOf m.kernel_pml4)
    (Finset.Ico (pageOf m.top) (pageOf m.top + (heapPages (kmallocBytes n)).toNat))

section Starved

variable {k n : Nat} {m m' : Machine} {G : Ledger Owner} {blocks : List HeapBlock} {bytes p : U64}

theorem kmallocPages_noFrame (h : HeapTop k m G) (hno : NoFrame m) :
    kmallocPages (n + 1) m = some (false, m) := by
  show (arch_mm_alloc_phys 1 >>= _) m = _
  rw [Prog.bind_apply (show arch_mm_alloc_phys 1 m = _ from pmm_alloc_full h.accounted hno)]
  rfl

theorem kmallocPages_false (h : HeapTop k m G) (hrun : kmallocPages n m = some (false, m')) :
    (NoFrame m ∧ m' = m) ∨ pageOf m.top < pageOf m'.top := by
  cases n with
  | zero =>
    simp only [kmallocPages, Prog.pure_eq_some] at hrun
    cases hrun.1
  | succ n =>
    rcases kmallocPages_succ h hrun with
      ⟨-, rfl, hfull⟩ | ⟨f, i, m1, hlow, hlen, hwin, hbit, hmap, hrest⟩
    · exact Or.inl ⟨hfull, rfl⟩
    · obtain ⟨G1, h1, -, htop⟩ := h.grow hlow hlen hwin hbit hmap
      obtain ⟨_, -, hgrew, -⟩ := kmallocPages_spec n _ m' G1 false h1 hrest
      have hle : pageOf (m1.top + vm_page_size) ≤ pageOf m'.top := hgrew.le
      rw [htop, pageOf_top_succ h] at hle
      exact Or.inr (by omega)

theorem HeapInv.kmalloc_noFrame (h : HeapInv k m G blocks) (hno : NoFrame m)
    (hpages : 0 < (heapPages (kmallocBytes bytes)).toNat) : kmalloc bytes m = some (0, m) := by
  obtain ⟨n, hn⟩ := Nat.exists_eq_succ_of_ne_zero (Nat.ne_of_gt hpages)
  unfold kmalloc
  rw [Prog.bind_apply (Prog.read_eq_some.mpr ⟨rfl, rfl⟩), hn,
    Prog.bind_apply (kmallocPages_noFrame h.toHeapTop hno)]
  rfl

theorem HeapInv.kmalloc_starved (h : HeapInv k m G blocks) (honly : OnlyHeap k m G)
    (hstarved : freeFrames m < framesFor m bytes) (hrun : kmalloc bytes m = some (p, m')) :
    p = 0 ∧ ∃ G', HeapInv k m' G' blocks ∧ OnlyHeap k m' G'
      ∧ ((NoFrame m ∧ m' = m) ∨ pageOf m.top < pageOf m'.top) := by
  unfold framesFor at hstarved
  rw [rootOf_eq h.kernel] at hstarved
  obtain ⟨b, m1, G', hloop, ht, hgrew, -, ⟨rfl, rfl, rfl, hinv⟩ | ⟨rfl, -, -⟩⟩ :=
    kmalloc_cases h hrun
  · exact ⟨rfl, G', hinv, honly.grew h.toHeapTop ht hgrew, kmallocPages_false h.toHeapTop hloop⟩
  · have hle := (kmallocPages_completes_iff _ m G h.toHeapTop).mp ⟨m1, hloop⟩
    omega

theorem OnlyHeap.page_zero (h : OnlyHeap k m G) : m.entry k 0 = 0 := by
  obtain hzero | ⟨hlo, -⟩ := h 0 (by decide)
  · exact hzero
  · exact absurd hlo (by decide)

theorem OnlyHeap.memset_null (h : OnlyHeap k m G) (ht : HeapTop k m G) (val : BitVec 8)
    (hn : 0 < n) : memsetVirt 0 val n m = none :=
  memset_faults val n 0 0 m ht hn (by decide) (fun a _ h2 => absurd h2 (Nat.not_lt_zero a))
    h.page_zero

theorem OnlyHeap.memcpy_null (h : OnlyHeap k m G) (hinv : HeapInv k m G blocks) {b : HeapBlock}
    (hb : b ∈ blocks) (hpos : 0 < b.payload) : memcpyVirt 0 b.ptr b.payload m = none := by
  have hok := hinv.ok b hb
  have hend := hok.data_end
  have hstop := hinv.stop_lt hb
  exact memcpy_faults b.payload 0 0 b.ptr m hinv.toHeapTop hpos (by decide) (by omega)
    (fun a _ h2 => absurd h2 (Nat.not_lt_zero a)) (fun a h1 h2 => hok.heapPage (by omega) h2)
    h.page_zero

end Starved

/-! ## §3. Requests. -/

inductive HeapRequest where
  | kmalloc (bytes : U64)
  | kcalloc (bytes elem : U64)
  | krealloc (old s : U64)
  deriving Repr, DecidableEq

namespace HeapRequest

def call : HeapRequest → Prog Machine U64
  | .kmalloc bytes => Mm.kmalloc bytes
  | .kcalloc bytes elem => Mm.kcalloc bytes elem
  | .krealloc old s => Mm.krealloc old s

/-- The size of the block to allocate. -/
def size : HeapRequest → U64
  | .kmalloc bytes => bytes
  | .kcalloc bytes elem => bytes * elem
  | .krealloc _ s => s

/-- `krealloc` is called with `NULL` or a live block. -/
def Live (blocks : List HeapBlock) : HeapRequest → Prop
  | .krealloc old _ => old = 0 ∨ ∃ b ∈ blocks, b.ptr = old
  | _ => True

/-- The frames are not enough. -/
def Starved (r : HeapRequest) (m : Machine) : Prop := freeFrames m < framesFor m r.size

def Atomic (r : HeapRequest) (m : Machine) : Prop := r.call m = some (0, m)

/-- The caller does not write through the answer, nor free the old block. -/
def Unused : HeapRequest → Prop
  | .kmalloc _ => True
  | .kcalloc bytes elem => bytes * elem = 0
  | .krealloc old _ => old = 0

end HeapRequest

section Requests

variable {k : Nat} {m : Machine} {G : Ledger Owner} {blocks : List HeapBlock}

variable {bytes p : U64}

theorem framesFor_pos (h : freeFrames m < framesFor m bytes) :
    0 < (heapPages (kmallocBytes bytes)).toNat := by
  by_contra hzero
  unfold framesFor at h
  rw [show (heapPages (kmallocBytes bytes)).toNat = 0 by omega] at h
  simp [tablesMissing, missingPaths] at h

section

variable (h : HeapInv k m G blocks) (honly : OnlyHeap k m G)

include h honly

theorem HeapInv.kmalloc_atomic_iff
    (hstarved : freeFrames m < framesFor m bytes) :
    kmalloc bytes m = some (0, m) ↔ NoFrame m := by
  constructor
  · intro hrun
    obtain ⟨-, _, -, -, ⟨hno, -⟩ | htop⟩ := h.kmalloc_starved honly hstarved hrun
    · exact hno
    · exact absurd htop (Nat.lt_irrefl _)
  · intro hno
    exact h.kmalloc_noFrame hno (framesFor_pos hstarved)

theorem HeapInv.kcalloc_starved
    {elem : U64} (hstarved : freeFrames m < framesFor m (bytes * elem))
    {m' : Machine} (hrun : kcalloc bytes elem m = some (p, m')) :
    p = 0 ∧ bytes * elem = 0 ∧ kmalloc (bytes * elem) m = some (0, m') := by
  obtain ⟨out, m1, hmalloc, hrun⟩ := Prog.bind_eq_some.mp hrun
  obtain ⟨_, m2, hset, hrun⟩ := Prog.bind_eq_some.mp hrun
  obtain ⟨rfl, rfl⟩ := Prog.pure_eq_some.mp hrun
  obtain ⟨rfl, G', h', honly', -⟩ := h.kmalloc_starved honly hstarved hmalloc
  by_cases hzero : (bytes * elem).toNat = 0
  · rw [hzero] at hset
    obtain ⟨-, rfl⟩ := Prog.pure_eq_some.mp hset
    exact ⟨rfl, BitVec.eq_of_toNat_eq hzero, hmalloc⟩
  · rw [honly'.memset_null h'.toHeapTop 0 (by omega)] at hset
    cases hset

theorem HeapInv.krealloc_starved
    {s : U64} (hstarved : freeFrames m < framesFor m s) {b : HeapBlock} (hb : b ∈ blocks)
    {m' : Machine} (hrun : krealloc b.ptr s m = some (p, m')) : p = 0 ∧ m' ≠ m := by
  obtain ⟨p0, m1, hmalloc, -⟩ := Prog.bind_eq_some.mp hrun
  obtain ⟨rfl, G', h', honly', hcase⟩ := h.kmalloc_starved honly hstarved hmalloc
  have hok := h'.ok b hb
  rw [krealloc_apply hmalloc hok.ptr_ne_zero, Prog.bind_apply (h'.load_size hb),
    payload_eq b hok.header] at hrun
  by_cases hpos : 0 < b.payload
  · rw [Prog.bind_none (honly'.memcpy_null h' hb hpos)] at hrun
    cases hrun
  · -- an empty block: nothing is copied, and it is freed
    have hzero : b.payload = 0 := by omega
    rw [hzero, Prog.bind_apply (rfl : memcpyVirt 0 b.ptr 0 m1 = some ((), m1))] at hrun
    obtain ⟨m2, _, _, _, -, hfree, hrel, hfreed, -⟩ := h'.kfree_mem hb
    rw [Prog.bind_apply hfree] at hrun
    obtain ⟨rfl, rfl⟩ := Prog.pure_eq_some.mp hrun
    refine ⟨rfl, fun hsame => ?_⟩
    rcases hcase with ⟨-, rfl⟩ | htop
    · have hpages : b.pages = 1 := by
        have hfits := hok.fits
        have htight := hok.tight
        have hheader := hok.header
        unfold HeapBlock.payload at hzero
        omega
      have hcount := congrArg BitVec.toNat hfreed.count
      rw [hsame, hpages, Nat.add_sub_cancel_left, BitVec.toNat_add,
        show (BitVec.ofNat 64 1).toNat = 1 from rfl] at hcount
      have hlt := m1.pmm_free_pages.isLt
      omega
    · rw [← hrel.top, hsame] at htop
      exact Nat.lt_irrefl _ htop

theorem HeapInv.request_atomic_iff
    {r : HeapRequest} (hlive : r.Live blocks) (hstarved : r.Starved m) :
    (∀ p m', r.call m = some (p, m') → p = 0) ∧ (r.Atomic m ↔ NoFrame m ∧ r.Unused) := by
  cases r with
  | kmalloc bytes =>
    change freeFrames m < framesFor m bytes at hstarved
    refine ⟨fun p m' hrun => (h.kmalloc_starved honly hstarved hrun).1, ?_⟩
    show kmalloc bytes m = some (0, m) ↔ NoFrame m ∧ True
    rw [h.kmalloc_atomic_iff honly hstarved, and_true]
  | kcalloc bytes elem =>
    change freeFrames m < framesFor m (bytes * elem) at hstarved
    refine ⟨fun p m' hrun => (h.kcalloc_starved honly hstarved hrun).1, ?_⟩
    have hiff := h.kmalloc_atomic_iff honly hstarved
    constructor
    · intro hrun
      obtain ⟨-, hzero, hmalloc⟩ := h.kcalloc_starved honly hstarved hrun
      exact ⟨hiff.mp hmalloc, hzero⟩
    · rintro ⟨hno, hzero⟩
      have hzero : bytes * elem = 0 := hzero
      show kcalloc bytes elem m = some (0, m)
      unfold kcalloc
      rw [Prog.bind_apply (hiff.mpr hno), hzero]
      rfl
  | krealloc old s =>
    change freeFrames m < framesFor m s at hstarved
    rcases hlive with rfl | ⟨b, hb, rfl⟩
    · -- without an old block `krealloc` is `kmalloc`
      have hcall : krealloc 0 s m = kmalloc s m := by
        cases hmalloc : kmalloc s m with
        | none => exact Prog.bind_none hmalloc
        | some r => exact Prog.bind_apply hmalloc
      constructor
      · intro p m' hrun
        exact (h.kmalloc_starved honly hstarved (hcall.symm.trans hrun)).1
      · show krealloc 0 s m = some (0, m) ↔ NoFrame m ∧ (0 : U64) = 0
        rw [hcall, h.kmalloc_atomic_iff honly hstarved]
        exact (and_iff_left rfl).symm
    · refine ⟨fun p m' hrun => (h.krealloc_starved honly hstarved hb hrun).1, ?_⟩
      constructor
      · intro hrun
        exact absurd rfl (h.krealloc_starved honly hstarved hb hrun).2
      · rintro ⟨-, hnull⟩
        exact absurd hnull (h.ok b hb).ptr_ne_zero

end

end Requests

/-- **Failure of the heap**, in every state the kernel reaches: a request that
there are not enough frames for returns `NULL`, if it returns; it leaves no trace
iff there was no free frame at all and the answer is not used. -/
theorem failure_atomic_iff (ehdr : Option (List Elf64Phdr)) (s : System) (hs : Reachable ehdr s)
    (r : HeapRequest) (hlive : r.Live s.blocks) (hstarved : r.Starved s.machine) :
    (∀ p m', r.call s.machine = some (p, m') → p = 0)
    ∧ (r.Atomic s.machine ↔ NoFrame s.machine ∧ r.Unused) := by
  obtain ⟨k, G, h⟩ := KernelInv.reachable hs
  exact h.sys.heap.request_atomic_iff h.only hlive hstarved

theorem freeFrames_le_len (m : Machine) : freeFrames m ≤ m.pmm_bitmap_len - 0x2000 := by
  rw [← Nat.card_Ico]
  refine Finset.card_le_card fun f hf => ?_
  obtain ⟨hlow, hlen, -, -⟩ := mem_freeSet.mp hf
  exact Finset.mem_Ico.mpr ⟨hlow, hlen⟩

theorem NoFrame.freeFrames_eq {m : Machine} (h : NoFrame m) : freeFrames m = 0 := by
  refine Finset.card_eq_zero.mpr (Finset.eq_empty_of_forall_notMem fun f hf => ?_)
  obtain ⟨hlow, hlen, -, hbit⟩ := mem_freeSet.mp hf
  rw [h f hlow hlen] at hbit
  cases hbit

/-- After a first request has taken every frame, the next one leaves no trace. -/
theorem failure_atomic_exhausted :
    ∃ s, Reachable none s ∧ (HeapRequest.kmalloc 1).Starved s.machine
      ∧ (HeapRequest.kmalloc 1).Atomic s.machine := by
  have hruns : (run (kernelStep none) (System.init bootMachine)
      [.sys (.heap (.kmalloc 0x40000))]).map (fun s => (s.machine.pmm_bitmap_len,
        (List.range 0x20).all fun i => s.machine.bit (0x2000 + i))) = some (0x2020, true) := by
    decide +kernel
  obtain ⟨s, hrun, hout⟩ := Option.map_eq_some_iff.mp hruns
  simp only [Prod.mk.injEq, List.all_eq_true, List.mem_range] at hout
  have hs : Reachable none s :=
    ⟨bootMachine, [.sys (.heap (.kmalloc 0x40000))], bootMachine_booted,
      ⟨trivial, fun _ _ => trivial⟩, hrun⟩
  have hno : NoFrame s.machine := by
    intro f hlow hlen
    rw [show f = 0x2000 + (f - 0x2000) by omega]
    exact hout.2 _ (by omega)
  have hstarved : (HeapRequest.kmalloc 1).Starved s.machine := by
    show freeFrames s.machine < 1 + _
    rw [hno.freeFrames_eq]
    omega
  exact ⟨s, hs, hstarved, (failure_atomic_iff none s hs (.kmalloc 1) trivial hstarved).2.mpr
    ⟨hno, trivial⟩⟩

/-- **256 KiB on a machine with fewer frames**: `kmalloc` returns `NULL` and keeps 20
pages and their frames, `kcalloc` writes to `NULL`, and so does `krealloc`. -/
theorem failure_keeps_pages :
    (HeapRequest.kmalloc 0x40000).Starved bootMachine
    ∧ (∃ m', kmalloc 0x40000 bootMachine = some (0, m') ∧ bootMachine.top = 0x200000000
      ∧ m'.top = 0x200014000 ∧ bootMachine.bit 0x2009 = false ∧ m'.bit 0x2009 = true)
    ∧ kcalloc 0x40000 1 bootMachine = none
    ∧ ∃ s, Reachable none s ∧ ⟨0x200000FF0, 16⟩ ∈ s.blocks
      ∧ (HeapRequest.krealloc 0x200000FF0 0x40000).Starved s.machine
      ∧ krealloc 0x200000FF0 0x40000 s.machine = none := by
  have hstarved : ∀ m : Machine, m.pmm_bitmap_len = 0x2020 →
      freeFrames m < framesFor m 0x40000 := by
    intro m hlen
    have hle := freeFrames_le_len m
    show freeFrames m < 65 + _
    omega
  have hmalloc : (kmalloc 0x40000 bootMachine).map (fun r => (r.1, r.2.top, r.2.bit 0x2009))
      = some (0, 0x200014000, true) := by decide +kernel
  have hcalloc : (kcalloc 0x40000 1 bootMachine).map Prod.fst = none := by decide +kernel
  have hrealloc : (run (kernelStep none) (System.init bootMachine) sevenOps).map (fun s =>
      (s.blocks, s.machine.pmm_bitmap_len, (krealloc 0x200000FF0 0x40000 s.machine).map Prod.fst))
      = some ([⟨0x200000FF0, 16⟩], 0x2020, none) := by decide +kernel
  obtain ⟨⟨p, m'⟩, hrun, hout⟩ := Option.map_eq_some_iff.mp hmalloc
  simp only [Prod.mk.injEq] at hout
  obtain ⟨rfl, htop, hbit⟩ := hout
  obtain ⟨s, hs, hout⟩ := Option.map_eq_some_iff.mp hrealloc
  simp only [Prod.mk.injEq, Option.map_eq_none_iff] at hout
  exact ⟨hstarved bootMachine rfl, ⟨m', hrun, rfl, htop, by decide +kernel, hbit⟩,
    Option.map_eq_none_iff.mp hcalloc, s, reachable_seven hs,
    by rw [hout.1]; exact List.mem_singleton_self _, hstarved s.machine hout.2.1, hout.2.2⟩

end Quack.Sys
