/-
  Quack.Sys.HeapBlocks
  **THE KERNEL'S HEAP OVER THE KERNEL'S PAGES.**

  Below `top` lie the blocks, each a run of mapped pages with a clear page after
  it; from `top` on nothing is mapped.  Every 512 pages of heap need a table,
  and there are fewer than 2^20 frames, so the heap never reaches the copy
  window (`HeapTop.lt_window`).
-/
import Quack.Mm.Heap
import Quack.Sys.SpaceSteps

namespace Quack.Sys

open Lib Mm Arch

/-! ## §1. The end of the heap. -/

/-- The pages up to `top` have tables, the pages from there on nothing. -/
structure HeapTop (k : Nat) (m : Machine) (G : Ledger Owner) : Prop where
  accounted : Accounted k m G
  kernel : m.kernel_pml4.toNat = 4096 * k
  aligned : m.top.toNat % 4096 = 0
  base : pageOf vm_heap_base ≤ pageOf m.top
  le : pageOf m.top ≤ 2 ^ 35
  tables : ∀ v, pageOf vm_heap_base ≤ v → v + 1 < pageOf m.top → m.table k v ≠ none
  clear : ∀ v, pageOf m.top ≤ v → v < 2 ^ 35 → m.entry k v = 0

section Top

variable {k r : Nat} {m m' : Machine} {G G' : Ledger Owner}

section

variable (h : HeapTop k m G)

include h

theorem HeapTop.lt_window : pageOf m.top < pageOf copy_base := by
  have hbase : pageOf vm_heap_base = 0x200000 := rfl
  have hwindow : pageOf copy_base = 0x700000000 := rfl
  have hle := h.le
  have hend := h.accounted.tables_end h.accounted.kernel (pageOf vm_heap_base) (pageOf m.top - 1)
    (by rw [hbase]) (by omega) (fun v h1 h2 => h.tables v h1 (by omega))
  omega

theorem HeapTop.top_lt : pageOf m.top < 0x700000000 := h.lt_window

theorem HeapTop.ground : Ground k m G where
  accounted := h.accounted
  kernel := h.kernel
  window v hlo hv := h.clear v (Nat.le_trans (Nat.le_of_lt h.lt_window) hlo) hv

theorem HeapTop.keep (hA : Accounted k m' G')
    (hkernel : m'.kernel_pml4 = m.kernel_pml4) (htop : m'.top = m.top)
    (htables : ∀ v f, v < 2 ^ 35 → m.table k v = some f → m'.table k v = some f)
    (hclear : ∀ v, pageOf m.top ≤ v → v < 2 ^ 35 → m'.entry k v = m.entry k v) :
    HeapTop k m' G' where
  accounted := hA
  kernel := by
    rw [hkernel]
    exact h.kernel
  aligned := by
    rw [htop]
    exact h.aligned
  base := by
    rw [htop]
    exact h.base
  le := by
    rw [htop]
    exact h.le
  tables v hlo hv := by
    rw [htop] at hv
    have := h.le
    obtain ⟨f, hf⟩ := Option.ne_none_iff_exists'.mp (h.tables v hlo hv)
    rw [htables v f (by omega) hf]
    exact Option.some_ne_none f
  clear v hlo hv := by
    rw [htop] at hlo
    rw [hclear v hlo hv]
    exact h.clear v hlo hv

theorem HeapTop.effect (he : SpaceEffect r k m G m' G') : HeapTop k m' G' :=
  h.keep he.accounted he.kernel he.top he.tables (fun v _ hv => he.entries v hv)

end

theorem table_of_div {v w : Nat} (h : v / 512 = w / 512) : m.table r v = m.table r w := by
  unfold Machine.table pagePath
  rw [show v / 2 ^ 27 = w / 2 ^ 27 by omega, show v / 2 ^ 18 = w / 2 ^ 18 by omega,
    show v / 2 ^ 9 = w / 2 ^ 9 by omega]

end Top

/-! ## §2. Pages of the heap. -/

/-- Page `v` of the heap is mapped to a frame of its own. -/
def HeapPage (k : Nat) (m : Machine) (G : Ledger Owner) (v : Nat) : Prop :=
  ∃ f, child (m.entry k v) = some f ∧ G f = some (.data (.heap v))

/-- The heap grew: fresh frames are mapped from the old end to the new one. -/
structure Grew (k : Nat) (m : Machine) (G : Ledger Owner) (m' : Machine) (G' : Ledger Owner) :
    Prop where
  confined : Confined (fun _ => False) k m G m' G'
  le : pageOf m.top ≤ pageOf m'.top
  entries : ∀ v, v < pageOf m.top → m'.entry k v = m.entry k v
  pages : ∀ v, pageOf m.top ≤ v → v < pageOf m'.top →
    ∃ f, child (m'.entry k v) = some f ∧ G' f = some (.data (.heap v)) ∧ G f = none

section Grow

variable {k : Nat} {m m' m'' : Machine} {G G' G'' : Ledger Owner}

theorem Grew.refl (h : Accounted k m G) : Grew k m G m G where
  confined := Confined.refl _ h
  le := Nat.le_refl _
  entries _ _ := rfl
  pages v h1 h2 := absurd h1 (by omega)

theorem Grew.trans (h1 : Grew k m G m' G') (h2 : Grew k m' G' m'' G'') : Grew k m G m'' G'' where
  confined := h1.confined.trans h2.confined
  le := Nat.le_trans h1.le h2.le
  entries v hv := by
    have := h1.le
    rw [h2.entries v (by omega), h1.entries v hv]
  pages v hlo hhi := by
    by_cases hv : v < pageOf m'.top
    · obtain ⟨f, hchild, hf, hfree⟩ := h1.pages v hlo hv
      exact ⟨f, by rw [h2.entries v hv]; exact hchild, h2.confined.ext f _ hf id, hfree⟩
    · obtain ⟨f, hchild, hf, hfree⟩ := h2.pages v (by omega) hhi
      refine ⟨f, hchild, hf, ?_⟩
      -- what is free later was free before
      cases hG : G f with
      | none => rfl
      | some u =>
        rw [h1.confined.ext f u hG id] at hfree
        cases hfree

theorem pageOf_top_succ (h : HeapTop k m G) :
    pageOf (m.top + vm_page_size) = pageOf m.top + 1 := by
  have hwindow := h.top_lt
  exact pageOf_succ (by omega)

theorem top_succ_aligned (h : HeapTop k m G) : (m.top + vm_page_size).toNat % 4096 = 0 := by
  have hwindow := h.top_lt
  have hal := h.aligned
  unfold pageOf at hwindow
  rw [BitVec.toNat_add, toNat_page_size,
    Nat.mod_eq_of_lt (show m.top.toNat + 4096 < 2 ^ 64 by omega)]
  omega

/-- Frame `f` is taken and mapped at page `v` of the kernel's tables. -/
structure HeapMapped (k v f : Nat) (m : Machine) (G : Ledger Owner) (m' : Machine)
    (G' : Ledger Owner) : Prop where
  accounted : Accounted k m' G'
  vars : m.SameVars m'
  ext : ∀ g u, G g = some u → G' g = some u
  slots : ∀ g u j, G g = some u → (∀ p, u ≠ .table k p) → j < 512 → m'.slot g j = m.slot g j
  entries : ∀ w, w < 2 ^ 35 → w ≠ v → m'.entry k w = m.entry k w
  tables : ∀ w pt, w < 2 ^ 35 → m.table k w = some pt → m'.table k w = some pt
  table : m'.table k v ≠ none
  entry : child (m'.entry k v) = some f
  frame : G' f = some (.data (.heap v))

variable {m1 : Machine}

theorem HeapTop.map_frame (h : HeapTop k m G) {f : Nat} {i : Int}
    (hlow : 0x2000 ≤ f) (hlen : f < m.pmm_bitmap_len) (hwin : f < 2 ^ 20) (hbit : m.bit f = false)
    (hmap : arch_mm_map_kernel m.top (BitVec.ofNat 64 (4096 * f)) 1 vm_perm_rw vm_cache_def
      (m.take f) = some (i, m1)) : ∃ G', HeapMapped k (pageOf m.top) f m G m1 G' := by
  have hA := h.accounted
  have hwindow := h.top_lt
  have hv : pageOf m.top < 2 ^ 35 := by omega
  have hfree := hA.free_of_bit hbit
  have hvars := m.take_vars f
  have htake : ∀ g u j, G g = some u → j < 512 → (m.take f).slot g j = m.slot g j :=
    fun g u j hg hj => hA.take_slot_eq hlen hbit hg hj
  -- the frame is taken, then mapped
  have h1 := hA.take_data (.heap (pageOf m.top)) hlow hlen hwin hbit
  simp only [arch_mm_map_kernel, Prog.bind_eq_some, Prog.read_eq_some] at hmap
  obtain ⟨_, _, ⟨rfl, rfl⟩, hmap⟩ := hmap
  obtain ⟨G', h2, ht, htab, hen⟩ := vmm_map_page_touches h1 h1.kernel
    (by rw [hvars.kernel]; exact h.kernel) hv (vmm_map_pages_one hmap)
  refine ⟨G', h2, hvars.trans ht.vars, ?_, ?_, ?_, ?_, htab, ?_, ?_⟩
  · intro g u hg
    exact ht.ext g u (Ledger.update_keeps hfree _ hg)
  · intro g u j hg hk hj
    rw [ht.slots g u j (Ledger.update_keeps hfree _ hg) hk hj, htake g u j hg hj]
  · intro w hw hne
    rw [hen k w h1.kernel hw, if_neg (fun hc => hne hc.2)]
    exact hA.entry_congr hA.kernel hw (fun g p j hg hj => htake g _ j hg hj)
  · intro w pt hw hpt
    rw [← hA.table_congr hA.kernel hw (fun g p j hg hj => htake g _ j hg hj)] at hpt
    exact ht.tables w pt hw hpt
  · rw [hen k _ h1.kernel hv, if_pos ⟨rfl, rfl⟩, child_leaf _ _ (vmm_arch_to_vmm_flags_lt _ _),
      frameOf_addr hwin]
  · exact ht.ext f _ (Function.update_self ..)

theorem HeapMapped.heapTop {f : Nat}
    (hm : HeapMapped k (pageOf m.top) f m G m1 G') (h : HeapTop k m G) :
    HeapTop k { m1 with top := m1.top + vm_page_size } G' := by
  have hwindow := h.top_lt
  have hnext : pageOf (m1.top + vm_page_size) = pageOf m.top + 1 := by
    rw [hm.vars.top]
    exact pageOf_top_succ h
  have hold : ∀ v, pageOf vm_heap_base ≤ v → v + 1 < pageOf m.top → m1.table k v ≠ none := by
    intro v h1 h2
    obtain ⟨pt, hpt⟩ := Option.ne_none_iff_exists'.mp (h.tables v h1 h2)
    rw [hm.tables v pt (by omega) hpt]
    exact Option.some_ne_none pt
  refine ⟨hm.accounted.set_top _, ?_, ?_, ?_, ?_, ?_, ?_⟩
  · show m1.kernel_pml4.toNat = _
    rw [hm.vars.kernel]
    exact h.kernel
  · show (m1.top + vm_page_size).toNat % 4096 = 0
    rw [hm.vars.top]
    exact top_succ_aligned h
  · show _ ≤ pageOf (m1.top + vm_page_size)
    rw [hnext]
    exact Nat.le_succ_of_le h.base
  · show pageOf (m1.top + vm_page_size) ≤ 2 ^ 35
    omega
  · -- the page before the new one may be a clear page, but has a table
    intro v h1 h2
    rw [hnext] at h2
    rw [set_top_table]
    have hbase : pageOf vm_heap_base = 0x200000 := rfl
    by_cases hlast : v + 1 < pageOf m.top
    · exact hold v h1 hlast
    · by_cases hsame : v / 512 = pageOf m.top / 512
      · rw [table_of_div hsame]
        exact hm.table
      · rw [table_of_div (show v / 512 = (v - 1) / 512 by omega)]
        exact hold (v - 1) (by omega) (by omega)
  · intro v h1 h2
    rw [hnext] at h1
    rw [set_top_entry, hm.entries v h2 (by omega)]
    exact h.clear v (by omega) h2

theorem HeapTop.grow (h : HeapTop k m G) {f : Nat} {i : Int} (hlow : 0x2000 ≤ f)
    (hlen : f < m.pmm_bitmap_len) (hwin : f < 2 ^ 20) (hbit : m.bit f = false)
    (hmap : arch_mm_map_kernel m.top (BitVec.ofNat 64 (4096 * f)) 1 vm_perm_rw vm_cache_def
      (m.take f) = some (i, m1)) :
    ∃ G', HeapTop k { m1 with top := m1.top + vm_page_size } G'
      ∧ Grew k m G { m1 with top := m1.top + vm_page_size } G'
      ∧ m1.top = m.top := by
  have hwindow := h.top_lt
  obtain ⟨G', hm⟩ := h.map_frame hlow hlen hwin hbit hmap
  have hnext : pageOf (m1.top + vm_page_size) = pageOf m.top + 1 := by
    rw [hm.vars.top]
    exact pageOf_top_succ h
  have ht := hm.heapTop h
  refine ⟨G', ht, ⟨⟨ht.accounted, hm.vars.len, hm.vars.kernel, ?_, ?_⟩, ?_, ?_, ?_⟩, hm.vars.top⟩
  · intro g u hg _
    exact hm.ext g u hg
  · intro g u j hg _ hk hj
    rw [set_top_slot, hm.slots g u j hg hk hj]
  · show _ ≤ pageOf (m1.top + vm_page_size)
    omega
  · intro v hlt
    rw [set_top_entry]
    exact hm.entries v (by omega) (by omega)
  · intro v h1 h2
    rw [hnext] at h2
    rw [set_top_entry]
    obtain rfl : v = pageOf m.top := by omega
    exact ⟨f, hm.entry, hm.frame, h.accounted.free_of_bit hbit⟩

theorem kmallocPages_succ {n : Nat} {b : Bool} (h : HeapTop k m G)
    (hrun : kmallocPages (n + 1) m = some (b, m')) :
    (b = false ∧ m' = m ∧ ∀ f, 0x2000 ≤ f → f < m.pmm_bitmap_len → m.bit f = true)
    ∨ ∃ f i m1, 0x2000 ≤ f ∧ f < m.pmm_bitmap_len ∧ f < 2 ^ 20
        ∧ m.bit f = false
        ∧ arch_mm_map_kernel m.top (BitVec.ofNat 64 (4096 * f)) 1 vm_perm_rw vm_cache_def (m.take f)
          = some (i, m1)
        ∧ kmallocPages n { m1 with top := m1.top + vm_page_size } = some (b, m') := by
  simp only [kmallocPages, arch_mm_alloc_phys, Prog.bind_eq_some] at hrun
  obtain ⟨p, m1, halloc, hrun⟩ := hrun
  rcases pmm_alloc_cases h.accounted.bitmap_len_le halloc with
    ⟨rfl, rfl, hfull⟩ | ⟨f, rfl, rfl, hlow, hlen, hwin, hbit, -⟩
  · rw [if_pos rfl, Prog.pure_eq_some] at hrun
    exact Or.inl ⟨hrun.1.symm, hrun.2.symm, hfull⟩
  · rw [if_neg (frame_ne_null hlow hwin)] at hrun
    simp only [Prog.bind_eq_some, Prog.read_eq_some, Prog.update_eq_some] at hrun
    obtain ⟨_, _, ⟨rfl, rfl⟩, i, m2, hmap, _, _, rfl, hrest⟩ := hrun
    rw [(m.take_vars f).top] at hmap
    exact Or.inr ⟨f, i, m2, hlow, hlen, hwin, hbit, hmap, hrest⟩

theorem kmallocPages_spec (n : Nat) (m m' : Machine) (G : Ledger Owner) (b : Bool)
    (h : HeapTop k m G) (hrun : kmallocPages n m = some (b, m')) :
    ∃ G', HeapTop k m' G' ∧ Grew k m G m' G' ∧ (b = true → pageOf m'.top = pageOf m.top + n) := by
  induction n generalizing m m' G b with
  | zero =>
    obtain ⟨-, rfl⟩ := hrun
    exact ⟨G, h, Grew.refl h.accounted, fun _ => rfl⟩
  | succ n ih =>
    rcases kmallocPages_succ h hrun with
      ⟨rfl, rfl, -⟩ | ⟨f, i, m2, hlow, hlen, hwin, hbit, hmap, hrest⟩
    · exact ⟨G, h, Grew.refl h.accounted, fun hb => absurd hb Bool.false_ne_true⟩
    · obtain ⟨G1, h1, hgrew, htop⟩ := h.grow hlow hlen hwin hbit hmap
      obtain ⟨G2, h2, hgrew', hcount⟩ := ih _ m' G1 b h1 hrest
      refine ⟨G2, h2, hgrew.trans hgrew', fun hb => ?_⟩
      rw [hcount hb]
      rw [htop, pageOf_top_succ h]
      omega

end Grow

/-! ## §3. Writes to data frames. -/

section Data

variable {k f : Nat} {m m' : Machine} {G : Ledger Owner} {P : Nat → Prop}

theorem writes_setWord (m : Machine) (f i : Nat) (hi : i < 512) (v : U64) :
    Writes (fun g => g = f) m (m.setWord (512 * f + i) v) where
  vars := ⟨rfl, rfl, rfl, rfl⟩
  words w hw := m.setWord_mem_ne v (by omega)

theorem HeapTop.writes (h : HeapTop k m G) (hw : Writes P m m') (hP : ∀ g, P g → Plain m G g) :
    HeapTop k m' G := by
  have hA := h.accounted
  refine h.keep (hw.accounted hA hP) hw.vars.kernel hw.vars.top ?_ ?_
  · intro v f hv hf
    rw [hw.table hA hP hA.kernel hv]
    exact hf
  · intro v _ hv
    exact hw.entry hA hP hA.kernel hv

theorem HeapPage.frame (h : HeapPage k m G f) :
    G (frameOf (m.entry k f)) = some (.data (.heap f)) := by
  obtain ⟨g, hchild, hg⟩ := h
  rw [frameOf_eq_of_child hchild]
  exact hg

theorem HeapPage.set_top (h : HeapPage k m G f) (top : U64) :
    HeapPage k { m with top := top } G f := by
  obtain ⟨g, hchild, hg⟩ := h
  exact ⟨g, by rw [set_top_entry]; exact hchild, hg⟩

theorem HeapPage.table (h : HeapPage k m G f) : m.table k f ≠ none := by
  obtain ⟨g, hchild, -⟩ := h
  intro hnone
  have hzero : m.entry k f = 0 := by
    unfold Machine.entry
    rw [hnone]
  rw [hzero, child_zero] at hchild
  cases hchild

theorem storeVirt64_heap {virt v : U64} {u : Unit} (h : HeapTop k m G)
    (hv : virt.toNat < 2 ^ 47) (hpage : HeapPage k m G (virt.toNat / 4096))
    (hrun : storeVirt64 virt v m = some (u, m')) :
    HeapTop k m' G
    ∧ Writes (fun g => g = frameOf (m.entry k (virt.toNat / 4096))) m m'
    ∧ (∀ w, w < 2 ^ 35 → m'.entry k w = m.entry k w)
    ∧ kernelWord m' k virt.toNat = v
    ∧ ∀ a, a / 4096 < 2 ^ 35 → a % 8 = 0 → virt.toNat % 8 = 0 → a ≠ virt.toNat →
        HeapPage k m G (a / 4096) → kernelWord m' k a = kernelWord m k a := by
  have hA := h.accounted
  obtain ⟨f, hchild, rfl⟩ := storeVirt64_spec hA h.kernel hv hrun
  have hframe : frameOf (m.entry k (virt.toNat / 4096)) = f := frameOf_eq_of_child hchild
  have hf : G f = some (.data (.heap (virt.toNat / 4096))) := by
    rw [← hframe]
    exact hpage.frame
  have hw := writes_setWord m f (virt.toNat % 4096 / 8) (by omega) v
  have hP : ∀ g, g = f → Plain m G g := by
    rintro g rfl
    exact Or.inr (Or.inr ⟨_, hf⟩)
  have hen : ∀ w, w < 2 ^ 35 →
      (m.setWord (512 * f + virt.toNat % 4096 / 8) v).entry k w = m.entry k w :=
    fun w hw' => hw.entry hA hP hA.kernel hw'
  refine ⟨h.writes hw hP, hframe.symm ▸ hw, hen, ?_, ?_⟩
  · unfold kernelWord
    rw [hen _ (by omega), hframe, m.setWord_slot v (by omega) (by omega), if_pos ⟨rfl, rfl⟩]
  · intro a ha ha8 hv8 hne hpa
    unfold kernelWord
    rw [hen _ ha, m.setWord_slot v (by omega) (by omega), if_neg]
    rintro ⟨hg, hj⟩
    -- one frame is one page
    have hpg := hpa.frame
    rw [hg, hf] at hpg
    injection hpg with hpg
    injection hpg with hpg
    injection hpg with hpg
    omega

end Data

/-! ## §4. Blocks. -/

/-- A live block: the pointer `kmalloc` returned, and the size asked for. -/
structure HeapBlock where
  ptr : U64
  size : U64
  deriving Repr, DecidableEq

namespace HeapBlock

/-- Bytes with the header. -/
def bytes (b : HeapBlock) : Nat := (kmallocBytes b.size).toNat

def pages (b : HeapBlock) : Nat := (heapPages (kmallocBytes b.size)).toNat

/-- The page after the block. -/
def stop (b : HeapBlock) : Nat := (b.ptr.toNat - 16 + b.bytes) / 4096

/-- The first page of the block. -/
def first (b : HeapBlock) : Nat := b.stop - b.pages

end HeapBlock

/-- A block in the kernel's tables: data and header at the end of its pages, a
clear page after them. -/
structure BlockOk (k : Nat) (m : Machine) (G : Ledger Owner) (b : HeapBlock) : Prop where
  header : 16 ≤ b.bytes
  fits : b.bytes ≤ 4096 * b.pages
  tight : 4096 * b.pages < b.bytes + 4096
  ends : b.ptr.toNat + b.bytes = 4096 * b.stop + 16
  pages_le : b.pages ≤ b.stop
  mapped : ∀ v, b.first ≤ v → v < b.stop → HeapPage k m G v
  guard : m.entry k b.stop = 0
  size_word : kernelWord m k (b.ptr.toNat - 16) = kmallocBytes b.size - 16
  pages_word : kernelWord m k (b.ptr.toNat - 8) = heapPages (kmallocBytes b.size)

/-- The heap: its end, and the blocks below it. -/
structure HeapInv (k : Nat) (m : Machine) (G : Ledger Owner) (blocks : List HeapBlock) : Prop
    extends HeapTop k m G where
  ok : ∀ b ∈ blocks, BlockOk k m G b
  low : ∀ b ∈ blocks, pageOf vm_heap_base ≤ b.first
  high : ∀ b ∈ blocks, b.stop < pageOf m.top
  apart : blocks.Pairwise fun a b => a.stop < b.first ∨ b.stop < a.first

theorem kmallocBytes_mod (n : U64) : (kmallocBytes n).toNat % 8 = 0 := by
  unfold kmallocBytes
  rw [BitVec.toNat_add, BitVec.toNat_mul, BitVec.toNat_udiv]
  rw [show (8 : U64).toNat = 8 from rfl, show (16 : U64).toNat = 16 from rfl]
  omega

theorem toNat_heapPages (bytes : U64) :
    (heapPages bytes).toNat = (bytes.toNat + 4095) % 2 ^ 64 / 4096 := by
  unfold heapPages
  rw [BitVec.toNat_udiv, toNat_page_size, show bytes + vm_page_size - 1 = bytes + 0xFFF by
    rw [add_sub_assoc]; rfl, BitVec.toNat_add]
  rfl

section Blocks

variable {k : Nat} {m m' : Machine} {G G' : Ledger Owner} {b : HeapBlock}
  {blocks : List HeapBlock}

theorem BlockOk.bytes_mod (b : HeapBlock) : b.bytes % 8 = 0 := kmallocBytes_mod b.size

theorem BlockOk.keep (h : BlockOk k m G b)
    (hen : ∀ v, b.first ≤ v → v ≤ b.stop → m'.entry k v = m.entry k v)
    (hext : ∀ f v, b.first ≤ v → v < b.stop → G f = some (.data (.heap v)) →
      G' f = some (.data (.heap v)))
    (hslot : ∀ f v j, b.first ≤ v → v < b.stop → G f = some (.data (.heap v)) → j < 512 →
      m'.slot f j = m.slot f j) : BlockOk k m' G' b := by
  have hpages := h.mapped
  have hends := h.ends
  have hheader := h.header
  have hfits := h.fits
  have htight := h.tight
  have hle := h.pages_le
  have hfirst : b.first = b.stop - b.pages := rfl
  have hword : ∀ a, b.first ≤ a / 4096 → a / 4096 < b.stop →
      kernelWord m' k a = kernelWord m k a := by
    intro a hlo hhi
    unfold kernelWord
    rw [hen _ hlo (Nat.le_of_lt hhi)]
    exact hslot _ _ _ hlo hhi (hpages _ hlo hhi).frame (by omega)
  refine ⟨hheader, hfits, htight, hends, hle, ?_, ?_, ?_, ?_⟩
  · intro v hlo hhi
    obtain ⟨f, hchild, hf⟩ := hpages v hlo hhi
    exact ⟨f, by rw [hen v hlo (Nat.le_of_lt hhi)]; exact hchild, hext f v hlo hhi hf⟩
  · rw [hen _ (by omega) (Nat.le_refl _)]
    exact h.guard
  · rw [hword _ (by omega) (by omega)]
    exact h.size_word
  · rw [hword _ (by omega) (by omega)]
    exact h.pages_word

/-! ## §5. `kmalloc`. -/

theorem HeapTop.bump (h : HeapTop k m G) (hlast : m.table k (pageOf m.top - 1) ≠ none) :
    HeapTop k { m with top := m.top + vm_page_size } G := by
  have hwindow := h.top_lt
  have hnext := pageOf_top_succ h
  refine ⟨h.accounted.set_top _, h.kernel, ?_, ?_, ?_, ?_, ?_⟩
  · exact top_succ_aligned h
  · show _ ≤ pageOf (m.top + vm_page_size)
    rw [hnext]
    exact Nat.le_succ_of_le h.base
  · show pageOf (m.top + vm_page_size) ≤ 2 ^ 35
    omega
  · intro v hlo hv
    rw [hnext] at hv
    rw [set_top_table]
    by_cases hlt : v + 1 < pageOf m.top
    · exact h.tables v hlo hlt
    · rw [show v = pageOf m.top - 1 by omega]
      exact hlast
  · intro v hlo hv
    rw [hnext] at hlo
    rw [set_top_entry]
    exact h.clear v (by omega) hv

variable {start v n out p : U64} {t : Nat} {u u' : Unit}

theorem kmalloc_layout {bytes : U64} (hstart : start.toNat = 4096 * t)
    (hmod : bytes.toNat % 8 = 0) (hend : t + (heapPages bytes).toNat < 2 ^ 35) :
    ∃ o, (start + (heapPages bytes * vm_page_size - bytes)).toNat = o ∧ o < 2 ^ 47 ∧ o % 8 = 0
      ∧ ((16 ≤ bytes.toNat ∧ bytes.toNat ≤ 4096 * (heapPages bytes).toNat
            ∧ 4096 * (heapPages bytes).toNat < bytes.toNat + 4096
            ∧ o + bytes.toNat = 4096 * (t + (heapPages bytes).toNat))
        ∨ o / 4096 = t + (heapPages bytes).toNat
        ∨ (t ≤ o / 4096 ∧ o / 4096 < t + (heapPages bytes).toNat
            ∧ (o + 8) / 4096 = t + (heapPages bytes).toNat)) := by
  have hpages := toNat_heapPages bytes
  have hlt := bytes.isLt
  generalize heapPages bytes = pages at hpages hend ⊢
  refine ⟨_, rfl, ?_⟩
  rw [BitVec.toNat_add, BitVec.toNat_sub, BitVec.toNat_mul, toNat_page_size, hstart]
  generalize bytes.toNat = b at *
  generalize pages.toNat = n at *
  rw [Nat.mod_eq_of_lt (show n * 4096 < 2 ^ 64 by omega)]
  by_cases hwrap : 2 ^ 64 ≤ b + 4095
  · -- no pages at all
    have hn : n = 0 := by omega
    refine ⟨?_, ?_, Or.inr (Or.inl ?_)⟩ <;> omega
  · have hn : n = (b + 4095) / 4096 := by omega
    have ho : (4096 * t + (2 ^ 64 - b + n * 4096) % 2 ^ 64) % 2 ^ 64 = 4096 * (t + n) - b := by
      omega
    refine ⟨by omega, by omega, ?_⟩
    by_cases hb : 16 ≤ b
    · left
      refine ⟨hb, ?_, ?_, ?_⟩ <;> omega
    · right
      rcases (show b = 0 ∨ b = 8 by omega) with rfl | rfl
      · left
        omega
      · right
        refine ⟨?_, ?_, ?_⟩ <;> omega

theorem storeVirt64_clear {virt : U64} (hA : Accounted k m G)
    (hk : m.kernel_pml4.toNat = 4096 * k) (hv : virt.toNat < 2 ^ 47)
    (hclear : m.entry k (virt.toNat / 4096) = 0) : storeVirt64 virt v m ≠ some (u, m') := by
  intro hrun
  obtain ⟨f, hchild, -⟩ := storeVirt64_spec hA hk hv hrun
  rw [show pageOf virt = virt.toNat / 4096 from rfl, hclear, child_zero] at hchild
  cases hchild

theorem HeapInv.keep (h : HeapInv k m G blocks) (ht : HeapTop k m' G')
    (htop : pageOf m.top ≤ pageOf m'.top)
    (hen : ∀ v, v < pageOf m.top → m'.entry k v = m.entry k v)
    (hext : ∀ f v, v < pageOf m.top → G f = some (.data (.heap v)) →
      G' f = some (.data (.heap v)))
    (hslot : ∀ f v j, v < pageOf m.top → G f = some (.data (.heap v)) → j < 512 →
      m'.slot f j = m.slot f j) : HeapInv k m' G' blocks where
  toHeapTop := ht
  ok b hb := by
    have hhigh := h.high b hb
    exact (h.ok b hb).keep (fun v _ hv => hen v (by omega))
      (fun f v _ hv hf => hext f v (by omega) hf)
      (fun f v j _ hv hf hj => hslot f v j (by omega) hf hj)
  low := h.low
  high b hb := Nat.lt_of_lt_of_le (h.high b hb) htop
  apart := h.apart

theorem kmalloc_pages_pos (hA : Accounted k m G)
    (hk : m.kernel_pml4.toNat = 4096 * k) (hstart : start.toNat = 4096 * t) (hend : t < 2 ^ 35)
    (hguard : m.entry k (t + (heapPages (kmallocBytes n)).toNat) = 0)
    (hrun : storeVirt64 (start + (heapPages (kmallocBytes n) * vm_page_size - kmallocBytes n)) v m
      = some (u, m')) : 0 < (heapPages (kmallocBytes n)).toNat := by
  rcases Nat.eq_zero_or_pos (heapPages (kmallocBytes n)).toNat with hzero | hpos
  · obtain ⟨o, ho, hlt, -, hcases⟩ := kmalloc_layout hstart (kmallocBytes_mod n)
      (by rw [hzero]; exact hend)
    refine absurd hrun (storeVirt64_clear hA hk (by omega) ?_)
    rw [ho, show o / 4096 = t + (heapPages (kmallocBytes n)).toNat by omega]
    exact hguard
  · exact hpos

section

variable (h : HeapTop k m G) (hstart : start.toNat = 4096 * t)
  (hout : start + (heapPages (kmallocBytes n) * vm_page_size - kmallocBytes n) = out)
  (hend : t + (heapPages (kmallocBytes n)).toNat < 2 ^ 35)
  (hmapped : ∀ v, t ≤ v → v < t + (heapPages (kmallocBytes n)).toNat → HeapPage k m G v)
  (hguard : m.entry k (t + (heapPages (kmallocBytes n)).toNat) = 0)

include h hstart hout hend hmapped hguard

theorem kmalloc_header_fits {m1 : Machine}
    (h1 : storeVirt64 out (kmallocBytes n - 16) m = some (u, m1))
    (h2 : storeVirt64 (out + 8) (heapPages (kmallocBytes n)) m1 = some (u', m')) :
    out.toNat < 2 ^ 47 ∧ out.toNat % 8 = 0 ∧ 16 ≤ (kmallocBytes n).toNat
      ∧ (kmallocBytes n).toNat ≤ 4096 * (heapPages (kmallocBytes n)).toNat
      ∧ 4096 * (heapPages (kmallocBytes n)).toNat < (kmallocBytes n).toNat + 4096
      ∧ out.toNat + (kmallocBytes n).toNat = 4096 * (t + (heapPages (kmallocBytes n)).toNat) := by
  obtain ⟨o, ho, hlt, ho8, hcases⟩ := kmalloc_layout hstart (kmallocBytes_mod n) hend
  rw [hout] at ho
  rcases hcases with ⟨hheader, hfits, htight, hends⟩ | hpage | ⟨hlo, hhi, hpage⟩
  · exact ⟨by omega, by omega, hheader, hfits, htight, by omega⟩
  · refine absurd h1 (storeVirt64_clear h.accounted h.kernel (by omega) ?_)
    rw [ho, hpage]
    exact hguard
  · have hp := hmapped _ hlo hhi
    rw [← ho] at hp
    obtain ⟨ht, -, hen, -, -⟩ := storeVirt64_heap h (by omega) hp h1
    have ho2 : (out + 8).toNat = o + 8 := by
      rw [BitVec.toNat_add, ho, show (8 : U64).toNat = 8 from rfl]
      omega
    refine absurd h2 (storeVirt64_clear ht.accounted ht.kernel (by omega) ?_)
    rw [ho2, hpage, hen _ hend]
    exact hguard

theorem kmalloc_header {m1 : Machine}
    (h₁ : storeVirt64 out (kmallocBytes n - 16) m = some (u, m1))
    (h₂ : storeVirt64 (out + 8) (heapPages (kmallocBytes n)) m1 = some (u', m')) :
    HeapTop k m' G ∧ BlockOk k m' G ⟨out + 16, n⟩
    ∧ (⟨out + 16, n⟩ : HeapBlock).first = t
    ∧ (⟨out + 16, n⟩ : HeapBlock).stop = t + (heapPages (kmallocBytes n)).toNat
    ∧ (∀ w, w < 2 ^ 35 → m'.entry k w = m.entry k w)
    ∧ Writes (fun g => ∃ v, t ≤ v ∧ v < t + (heapPages (kmallocBytes n)).toNat
        ∧ g = frameOf (m.entry k v)) m m' := by
  obtain ⟨hlt, ho8, hheader, hfits, htight, hends⟩ :=
    kmalloc_header_fits h hstart hout hend hmapped hguard h₁ h₂
  have ho2 : (out + 8).toNat = out.toNat + 8 := by
    rw [BitVec.toNat_add, show (8 : U64).toNat = 8 from rfl]
    omega
  have hp1 : HeapPage k m G (out.toNat / 4096) := hmapped _ (by omega) (by omega)
  obtain ⟨ht1, hw1, hen1, hword1, -⟩ := storeVirt64_heap h (by omega) hp1 h₁
  have hpages1 : ∀ v, t ≤ v → v < t + (heapPages (kmallocBytes n)).toNat →
      HeapPage k m1 G v := by
    intro v h1 h2
    obtain ⟨f, hchild, hf⟩ := hmapped v h1 h2
    exact ⟨f, by rw [hen1 v (by omega)]; exact hchild, hf⟩
  have hp2 : HeapPage k m1 G ((out + 8).toNat / 4096) := hpages1 _ (by omega) (by omega)
  obtain ⟨ht2, hw2, hen2, hword2, hother⟩ := storeVirt64_heap ht1 (by omega) hp2 h₂
  have hptr : (out + 16).toNat = out.toNat + 16 := by
    rw [BitVec.toNat_add, show (16 : U64).toNat = 16 from rfl]
    omega
  have hstop : (⟨out + 16, n⟩ : HeapBlock).stop = t + (heapPages (kmallocBytes n)).toNat := by
    show ((out + 16).toNat - 16 + (kmallocBytes n).toNat) / 4096 = _
    omega
  have hfirst : (⟨out + 16, n⟩ : HeapBlock).first = t := by
    unfold HeapBlock.first
    show _ - (heapPages (kmallocBytes n)).toNat = t
    omega
  have hen : ∀ w, w < 2 ^ 35 → m'.entry k w = m.entry k w :=
    fun w hw => (hen2 w hw).trans (hen1 w hw)
  -- both header words are in pages of the block; the second store keeps the first word
  refine ⟨ht2, ⟨hheader, hfits, htight, ?_, ?_, ?_, ?_, ?_, ?_⟩, hfirst, hstop, hen, ?_⟩
  · rw [hstop]
    show (out + 16).toNat + (kmallocBytes n).toNat = _
    omega
  · rw [hstop]
    exact Nat.le_add_left _ _
  · intro v h1 h2
    rw [hfirst] at h1
    rw [hstop] at h2
    obtain ⟨f, hchild, hf⟩ := hpages1 v h1 h2
    exact ⟨f, by rw [hen2 v (by omega)]; exact hchild, hf⟩
  · rw [hstop, hen _ hend]
    exact hguard
  · show kernelWord m' k ((out + 16).toNat - 16) = _
    rw [hptr, Nat.add_sub_cancel,
      hother out.toNat (by omega) (by omega) (by omega) (by omega)
        (hpages1 _ (by omega) (by omega))]
    exact hword1
  · show kernelWord m' k ((out + 16).toNat - 8) = _
    rw [hptr, show out.toNat + 16 - 8 = (out + 8).toNat by omega]
    exact hword2
  · refine Writes.trans ⟨hw1.vars, ?_⟩ ⟨hw2.vars, ?_⟩
    · intro w hw
      exact hw1.words w fun hg => hw ⟨_, by omega, by omega, hg⟩
    · intro w hw
      rw [hen1 _ (by omega)] at hw2
      exact hw2.words w fun hg => hw ⟨_, by omega, by omega, hg⟩

end

theorem Grew.heapInv {m2 : Machine} (hgrew : Grew k m G m' G') (h : HeapInv k m G blocks)
    (ht : HeapTop k m2 G') (htop : pageOf m'.top ≤ pageOf m2.top)
    (hen : ∀ v, v < 2 ^ 35 → m2.entry k v = m'.entry k v)
    (hslot : ∀ f u j, G f = some u → j < 512 → m2.slot f j = m'.slot f j) :
    HeapInv k m2 G' blocks := by
  have hle := h.le
  refine h.keep ht (Nat.le_trans hgrew.le htop) ?_ ?_ ?_
  · intro v hv
    rw [hen v (by omega), hgrew.entries v hv]
  · intro f v _ hf
    exact hgrew.confined.ext f _ hf id
  · intro f v j hv hf hj
    rw [hslot f _ j hf hj, hgrew.confined.slots f _ j hf id (by simp) hj]

theorem HeapInv.cons {block : HeapBlock} (h : HeapInv k m G blocks)
    (hblock : BlockOk k m G block) (hfirst : block.first = t) (hlow : pageOf vm_heap_base ≤ t)
    (habove : ∀ b ∈ blocks, b.stop < t) (hstop : block.stop < pageOf m.top) :
    HeapInv k m G (block :: blocks) where
  toHeapTop := h.toHeapTop
  ok := List.forall_mem_cons.mpr ⟨hblock, h.ok⟩
  low := List.forall_mem_cons.mpr ⟨by rw [hfirst]; exact hlow, h.low⟩
  high := List.forall_mem_cons.mpr ⟨hstop, h.high⟩
  apart := by
    rw [List.pairwise_cons]
    refine ⟨fun b hb => Or.inr ?_, h.apart⟩
    rw [hfirst]
    exact habove b hb

/-- What `kmalloc` did after its loop had left `m1`: the header of a new block is
written to its pages. -/
structure Placed (k : Nat) (n p : U64) (m m1 m' : Machine) : Prop where
  first : (⟨p, n⟩ : HeapBlock).first = pageOf m.top
  stop : (⟨p, n⟩ : HeapBlock).stop = pageOf m.top + (⟨p, n⟩ : HeapBlock).pages
  loop : pageOf m1.top = (⟨p, n⟩ : HeapBlock).stop
  top : pageOf m'.top = (⟨p, n⟩ : HeapBlock).stop + 1
  entries : ∀ v, v < 2 ^ 35 → m'.entry k v = m1.entry k v
  writes : Writes (fun g => ∃ v, pageOf m.top ≤ v ∧ v < (⟨p, n⟩ : HeapBlock).stop
    ∧ g = frameOf (m1.entry k v)) { m1 with top := m1.top + vm_page_size } m'

theorem kmalloc_cases (h : HeapInv k m G blocks)
    (hrun : kmalloc n m = some (p, m')) :
    ∃ b m1 G',
      kmallocPages (heapPages (kmallocBytes n)).toNat m = some (b, m1)
      ∧ HeapTop k m1 G' ∧ Grew k m G m1 G' ∧ Confined (fun _ => False) k m G m' G'
      ∧ ((b = false ∧ p = 0 ∧ m' = m1 ∧ HeapInv k m' G' blocks)
        ∨ (b = true ∧ HeapInv k m' G' (⟨p, n⟩ :: blocks) ∧ Placed k n p m m1 m')) := by
  simp only [kmalloc, Prog.bind_eq_some, Prog.read_eq_some] at hrun
  obtain ⟨_, _, ⟨rfl, rfl⟩, b, m1, hloop, hrun⟩ := hrun
  obtain ⟨G1, ht1, hgrew, hcount⟩ := kmallocPages_spec _ _ _ _ _ h.toHeapTop hloop
  refine ⟨b, m1, G1, hloop, ht1, hgrew, ?_⟩
  cases b with
  | false =>
    obtain ⟨rfl, rfl⟩ := hrun
    exact ⟨hgrew.confined, Or.inl ⟨rfl, rfl, rfl, hgrew.heapInv h ht1 (Nat.le_refl _)
      (fun _ _ => rfl) (fun _ _ _ _ _ => rfl)⟩⟩
  | true =>
    simp only [if_true, Prog.bind_eq_some, Prog.update_eq_some, Prog.pure_eq_some] at hrun
    obtain ⟨_, _, rfl, _, m2, hs1, _, m3, hs2, rfl, rfl⟩ := hrun
    have hcount := hcount rfl
    have hwindow := ht1.top_lt
    have hstart : m.top.toNat = 4096 * pageOf m.top := by
      have := h.aligned
      unfold pageOf
      omega
    have hguard : m1.entry k (pageOf m.top + (heapPages (kmallocBytes n)).toNat) = 0 := by
      rw [← hcount]
      exact ht1.clear _ (Nat.le_refl _) (by omega)
    have hpos := kmalloc_pages_pos (ht1.accounted.set_top (m1.top + vm_page_size)) ht1.kernel
      hstart (by omega) (by rw [set_top_entry]; exact hguard) hs1
    have hfresh : ∀ v, pageOf m.top ≤ v →
        v < pageOf m.top + (heapPages (kmallocBytes n)).toNat → HeapPage k m1 G1 v := by
      intro v h1 h2
      obtain ⟨f, hchild, hf, -⟩ := hgrew.pages v h1 (by omega)
      exact ⟨f, hchild, hf⟩
    have htb := ht1.bump (hfresh _ (by omega) (by omega)).table
    obtain ⟨ht3, hblock, hfirst, hstop, hen, hw⟩ := kmalloc_header htb hstart rfl (by omega)
      (fun v h1 h2 => (hfresh v h1 h2).set_top _) (by rw [set_top_entry]; exact hguard) hs1 hs2
    have htop : pageOf m3.top = pageOf m1.top + 1 := by
      rw [hw.vars.top]
      exact pageOf_top_succ ht1
    -- the frames of the header were free before the call
    have hslot : ∀ f u j, G f = some u → j < 512 → m3.slot f j = m1.slot f j := by
      intro f u j hf hj
      rw [hw.slot _ hj, set_top_slot]
      rintro ⟨v, h1, h2, rfl⟩
      rw [set_top_entry] at hf
      obtain ⟨g, hchild, -, hfree⟩ := hgrew.pages v h1 (by omega)
      rw [frameOf_eq_of_child hchild, hfree] at hf
      cases hf
    have hold := hgrew.heapInv h ht3 (by omega) (fun v hv => by rw [hen v hv, set_top_entry])
      hslot
    refine ⟨⟨ht3.accounted, ?_, ?_, hgrew.confined.ext, ?_⟩,
      Or.inr ⟨rfl, hold.cons hblock hfirst h.base h.high (by omega), hfirst, hstop, ?_, ?_, ?_, ?_⟩⟩
    · rw [hw.vars.len]
      exact hgrew.confined.len
    · rw [hw.vars.kernel]
      exact hgrew.confined.kernel
    · intro f u j hf hu hk hj
      rw [hslot f u j hf hj, hgrew.confined.slots f u j hf hu hk hj]
    · rw [hstop, hcount]
    · rw [htop, hstop, hcount]
    · intro v hv
      rw [hen v hv, set_top_entry]
    · refine ⟨hw.vars, fun w hout => hw.words w ?_⟩
      rintro ⟨v, h1, h2, hg⟩
      rw [set_top_entry] at hg
      exact hout ⟨v, h1, by rw [hstop]; exact h2, hg⟩

theorem kmalloc_spec (h : HeapInv k m G blocks)
    (hrun : kmalloc n m = some (p, m')) :
    ∃ G', Confined (fun _ => False) k m G m' G'
      ∧ ((p = 0 ∧ HeapInv k m' G' blocks) ∨ HeapInv k m' G' (⟨p, n⟩ :: blocks)) := by
  obtain ⟨b, m1, G', -, -, -, hc, hcase⟩ := kmalloc_cases h hrun
  refine ⟨G', hc, ?_⟩
  rcases hcase with ⟨-, rfl, -, hinv⟩ | ⟨-, hinv, -⟩
  · exact Or.inl ⟨rfl, hinv⟩
  · exact Or.inr hinv

end Blocks

end Quack.Sys
