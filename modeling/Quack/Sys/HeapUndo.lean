/-
  Quack.Sys.HeapUndo
  **WHEN `kfree` UNDOES `kmalloc`.**

  `kmalloc` takes a frame for each page of the block and one for each table that
  is missing.  `kfree` finds the first page by clearing the low bits of the
  pointer.  The pointer is 16 bytes after the header, and the header may take up
  the whole rest of the first page: then the pointer is on the second page, the
  first page and its frame are never given back, and the clear page after the
  block is freed instead.

    • `kfree_undoes_iff`       — in every state the kernel reaches.
-/
import Quack.Sys.HeapSizes

namespace Quack.Sys

open Lib Mm Arch

/-! ## §1. What `kmalloc` takes. -/

section Took

variable {k : Nat} {m m' m'' : Machine} {G : Ledger Owner}

/-- The heap has grown from `m` to `m'`: the frames taken are those of the new
pages, which were free, and tables. -/
structure Took (k : Nat) (m m' : Machine) : Prop where
  len : m'.pmm_bitmap_len = m.pmm_bitmap_len
  le : pageOf m.top ≤ pageOf m'.top
  bits : ∀ f, f < m.pmm_bitmap_len → m.bit f = true → m'.bit f = true
  taken : ∀ f, f < m.pmm_bitmap_len → m'.bit f = true → m.bit f = true
    ∨ (∃ v, pageOf m.top ≤ v ∧ v < pageOf m'.top ∧ frameOf (m'.entry k v) = f)
    ∨ ∃ path, Forest.Inner LowerSlot path ∧ Forest.walk child m'.slot k path = some f
  free : ∀ v, pageOf m.top ≤ v → v < pageOf m'.top →
    frameOf (m'.entry k v) < m.pmm_bitmap_len ∧ m.bit (frameOf (m'.entry k v)) = false
  walks : ∀ path f, Forest.Inner LowerSlot path → Forest.walk child m.slot k path = some f →
    Forest.walk child m'.slot k path = some f

theorem Took.refl (k : Nat) (m : Machine) : Took k m m where
  len := rfl
  le := Nat.le_refl _
  bits _ _ h := h
  taken _ _ h := Or.inl h
  free v h1 h2 := by omega
  walks _ _ _ h := h

theorem Took.trans (h : Took k m m') (h' : Took k m' m'')
    (hen : ∀ v, v < pageOf m'.top → m''.entry k v = m'.entry k v) : Took k m m'' where
  len := by rw [h'.len, h.len]
  le := Nat.le_trans h.le h'.le
  bits f hf hbit := h'.bits f (by rw [h.len]; exact hf) (h.bits f hf hbit)
  taken f hf hbit := by
    have hle := h'.le
    rcases h'.taken f (by rw [h.len]; exact hf) hbit with hbit | ⟨v, h1, h2, hv⟩ | htable
    · rcases h.taken f hf hbit with hbit | ⟨v, h1, h2, hv⟩ | ⟨path, hp, hw⟩
      · exact Or.inl hbit
      · exact Or.inr (Or.inl ⟨v, h1, by omega, by rw [hen v h2, hv]⟩)
      · exact Or.inr (Or.inr ⟨path, hp, h'.walks path f hp hw⟩)
    · exact Or.inr (Or.inl ⟨v, Nat.le_trans h.le h1, h2, hv⟩)
    · exact Or.inr (Or.inr htable)
  free v h1 h2 := by
    by_cases hold : v < pageOf m'.top
    · rw [hen v hold]
      exact h.free v h1 hold
    · obtain ⟨hlen, hbit⟩ := h'.free v (by omega) h2
      rw [h.len] at hlen
      -- a frame in use stays in use
      refine ⟨hlen, Bool.eq_false_iff.mpr fun hset => ?_⟩
      rw [h.bits _ hlen hset] at hbit
      cases hbit
  walks path f hp hw := h'.walks path f hp (h.walks path f hp hw)

theorem HeapTop.take_walk (h : HeapTop k m G) {f : Nat} (hlen : f < m.pmm_bitmap_len)
    (hbit : m.bit f = false) {path : List Nat} (hpath : Forest.Inner LowerSlot path) :
    Forest.walk child (m.take f).slot k path = Forest.walk child m.slot k path :=
  h.accounted.walk_congr h.accounted.kernel
    (fun _ _ _ hg hj => h.accounted.take_slot_eq hlen hbit hg hj.2.1) hpath

theorem HeapTop.map_demands (h : HeapTop k m G) {f : Nat} {i : Int} {m1 : Machine}
    (hlow : 0x2000 ≤ f) (hlen : f < m.pmm_bitmap_len) (hwin : f < 2 ^ 20) (hbit : m.bit f = false)
    (hmap : arch_mm_map_kernel m.top (BitVec.ofNat 64 (4096 * f)) 1 vm_perm_rw vm_cache_def
      (m.take f) = some (i, m1)) :
    Demands k (pathsTo (pageOf m.top)) (m.take f) m1
    ∧ ∀ g, g < m.pmm_bitmap_len → (m.take f).bit g = true → m1.bit g = true := by
  have hwindow := h.top_lt
  have hvars := m.take_vars f
  have h1 := h.accounted.take_data (.heap (pageOf m.top)) hlow hlen hwin hbit
  simp only [arch_mm_map_kernel, Prog.bind_eq_some, Prog.read_eq_some] at hmap
  obtain ⟨_, _, ⟨rfl, rfl⟩, hmap⟩ := hmap
  have hkernel : (m.take f).kernel_pml4.toNat = 4096 * k := by
    rw [hvars.kernel]
    exact h.kernel
  have hpage := vmm_map_pages_one hmap
  obtain ⟨_, -, ht, -, -⟩ := vmm_map_page_touches h1 h1.kernel hkernel (by omega) hpage
  refine ⟨vmm_map_page_demands h1 h1.kernel hkernel (by omega) hpage, fun g hg hset => ?_⟩
  exact (ht.bits g (by rw [hvars.len]; exact hg)).mpr (Or.inl hset)

theorem HeapTop.took (h : HeapTop k m G) {f : Nat} {i : Int} {m1 : Machine} (hlow : 0x2000 ≤ f)
    (hlen : f < m.pmm_bitmap_len) (hwin : f < 2 ^ 20) (hbit : m.bit f = false)
    (hmap : arch_mm_map_kernel m.top (BitVec.ofNat 64 (4096 * f)) 1 vm_perm_rw vm_cache_def
      (m.take f) = some (i, m1)) :
    Took k m { m1 with top := m1.top + vm_page_size } := by
  have hwindow := h.top_lt
  obtain ⟨G', hm⟩ := h.map_frame hlow hlen hwin hbit hmap
  have hnext : pageOf (m1.top + vm_page_size) = pageOf m.top + 1 := by
    rw [hm.vars.top]
    exact pageOf_top_succ h
  have hframe : frameOf (m1.entry k (pageOf m.top)) = f := frameOf_eq_of_child hm.entry
  -- the frame is taken, then the tables for it
  have htake : ∀ g, g < m.pmm_bitmap_len → (m.take f).bit g = if g = f then true else m.bit g :=
    fun g hg => m.take_bit hg (h.accounted.not_bitmapFrame hlen hbit)
  obtain ⟨hd, hbits⟩ := h.map_demands hlow hlen hwin hbit hmap
  refine ⟨hm.vars.len, ?_, ?_, ?_, ?_, ?_⟩
  · show _ ≤ pageOf (m1.top + vm_page_size)
    omega
  · intro g hg hset
    rw [set_top_bit]
    refine hbits g hg ?_
    rw [htake g hg]
    split
    · rfl
    · exact hset
  · intro g hg hset
    rw [set_top_bit] at hset
    rcases hd.taken g (by rw [(m.take_vars f).len]; exact hg) hset with hset | ⟨path, hp, hw⟩
    · rw [htake g hg] at hset
      by_cases hgf : g = f
      · refine Or.inr (Or.inl ⟨pageOf m.top, Nat.le_refl _, ?_, ?_⟩)
        · show _ < pageOf (m1.top + vm_page_size)
          omega
        · rw [set_top_entry, hframe, hgf]
      · rw [if_neg hgf] at hset
        exact Or.inl hset
    · refine Or.inr (Or.inr ⟨path, inner_pathsTo (by omega) hp, ?_⟩)
      rw [set_top_walk, hw]
  · intro v h1 h2
    rw [hnext] at h2
    obtain rfl : v = pageOf m.top := by omega
    rw [set_top_entry, hframe]
    exact ⟨hlen, hbit⟩
  · intro path g hp hw
    rw [set_top_walk]
    refine hd.keeps path g hp ?_
    rw [h.take_walk hlen hbit hp, hw]

theorem kmallocPages_took (n : Nat) (m m' : Machine) (G : Ledger Owner) (b : Bool)
    (h : HeapTop k m G) (hrun : kmallocPages n m = some (b, m')) : Took k m m' := by
  induction n generalizing m m' G b with
  | zero =>
    simp only [kmallocPages, Prog.pure_eq_some] at hrun
    obtain ⟨-, rfl⟩ := hrun
    exact Took.refl k m
  | succ n ih =>
    rcases kmallocPages_succ h hrun with
      ⟨-, rfl, -⟩ | ⟨f, i, m1, hlow, hlen, hwin, hbit, hmap, hrest⟩
    · exact Took.refl k _
    · obtain ⟨G1, h1, -, -⟩ := h.grow hlow hlen hwin hbit hmap
      obtain ⟨_, -, hgrew, -⟩ := kmallocPages_spec n _ m' G1 b h1 hrest
      exact (h.took hlow hlen hwin hbit hmap).trans (ih _ m' G1 b h1 hrest) hgrew.entries

end Took

/-! ## §2. Where the data starts. -/

section Start

variable {k : Nat} {m : Machine} {G : Ledger Owner} {b : HeapBlock}

theorem BlockOk.page_eq_first_iff (h : BlockOk k m G b) :
    pageOf b.ptr = b.first ↔ b.payload % 4096 ≠ 0 ∧ b.payload % 4096 ≠ 4088 := by
  have hmod := BlockOk.bytes_mod b
  have hheader := h.header
  have hfits := h.fits
  have htight := h.tight
  have hends := h.ends
  have hrange := h.first_add_pages
  unfold pageOf HeapBlock.payload
  omega

theorem payload_mod_iff (h : 16 ≤ b.bytes) :
    (b.payload % 4096 ≠ 0 ∧ b.payload % 4096 ≠ 4088)
      ↔ 0 < b.size.toNat % 4096 ∧ b.size.toNat % 4096 ≤ 4080 := by
  have hlt := b.size.isLt
  by_cases hwrap : b.size.toNat + 7 < 2 ^ 64
  · rw [payload_eq_round_up h hwrap]
    omega
  · rw [payload_eq_zero (by omega)]
    omega

end Start

/-! ## §3. `kfree` after `kmalloc`. -/

/-- A frame that holds a table of the kernel's lower half. -/
def KernelTable (m : Machine) (f : Nat) : Prop :=
  ∃ path, Forest.Inner LowerSlot path
    ∧ Forest.walk child m.slot (rootOf m.kernel_pml4) path = some f

def MapsNew (m m' : Machine) (v f : Nat) : Prop :=
  v < 2 ^ 35 ∧ kernelFrame m v = none ∧ kernelFrame m' v = some f

/-- What was mapped from `m` to `m'` is taken back in `m''`. -/
structure Undone (m m' m'' : Machine) : Prop where
  /-- The kernel's lower half is what it was. -/
  table : ∀ v, v < 2 ^ 35 →
    m''.translate (rootOf m''.kernel_pml4) v = m.translate (rootOf m.kernel_pml4) v
  /-- The frames of the pages mapped are freed, and no other. -/
  freed : ∀ f, f < m.pmm_bitmap_len →
    (m''.bit f = true ↔ m'.bit f = true ∧ ∀ v, ¬ MapsNew m m' v f)
  /-- They are different frames, and there are as many calls. -/
  distinct : ∀ v w f, MapsNew m m' v f → MapsNew m m' w f → v = w
  count : ∃ pages : Finset Nat, (∀ v, v ∈ pages ↔ ∃ f, MapsNew m m' v f)
    ∧ m''.pmm_free_pages = m'.pmm_free_pages + BitVec.ofNat 64 pages.card
  /-- The bitmap is what it was, tables aside. -/
  bitmap : ∀ f, f < m.pmm_bitmap_len →
    m''.bit f = m.bit f ∨ (m.bit f = false ∧ KernelTable m' f)

section Undo

variable {k : Nat} {m m1 m' m'' : Machine} {G G' : Ledger Owner} {blocks : List HeapBlock}
  {n p : U64}

variable {v f : Nat} {blocks' : List HeapBlock}

theorem HeapTop.translate_eq (h : HeapTop k m G) (hv : v < 2 ^ 35) :
    m.translate (rootOf m.kernel_pml4) v
      = (child (m.entry k v)).map fun _ => .page (m.entry k v) := by
  rw [rootOf_eq h.kernel, h.accounted.translate_lower h.accounted.kernel hv]

/-- A `kmalloc` of `n` bytes that returns `p`: the loop goes from `m` to `m1`, and
the header is written in `m'`. -/
structure Allocated (k : Nat) (n p : U64) (blocks : List HeapBlock) (m : Machine)
    (G : Ledger Owner) (m1 m' : Machine) (G' : Ledger Owner) : Prop where
  before : HeapInv k m G blocks
  loop : HeapTop k m1 G'
  after : HeapInv k m' G' (⟨p, n⟩ :: blocks)
  grew : Grew k m G m1 G'
  took : Took k m m1
  placed : Placed k n p m m1 m'

theorem HeapInv.allocated (h : HeapInv k m G blocks) (hrun : kmalloc n m = some (p, m'))
    (hp : p ≠ 0) : ∃ m1 G', Allocated k n p blocks m G m1 m' G' := by
  obtain ⟨b, m1, G', hloop, ht, hgrew, -, ⟨-, rfl, -⟩ | ⟨-, hinv, hplaced⟩⟩ := kmalloc_cases h hrun
  · exact absurd rfl hp
  · exact ⟨m1, G', h, ht, hinv, hgrew, kmallocPages_took _ m m1 G b h.toHeapTop hloop, hplaced⟩

section

variable (h : Allocated k n p blocks m G m1 m' G')

include h

theorem Allocated.plain {g : Nat}
    (hg : ∃ v, pageOf m.top ≤ v ∧ v < (⟨p, n⟩ : HeapBlock).stop ∧ g = frameOf (m1.entry k v)) :
    Plain { m1 with top := m1.top + vm_page_size } G' g := by
  obtain ⟨v, h1, h2, rfl⟩ := hg
  have hloop := h.placed.loop
  obtain ⟨f, hchild, hf, -⟩ := h.grew.pages v h1 (by omega)
  rw [frameOf_eq_of_child hchild]
  exact Or.inr (Or.inr ⟨_, hf⟩)

theorem Allocated.bit
    (hf : f < m.pmm_bitmap_len) : m'.bit f = m1.bit f := by
  rw [h.placed.writes.bit (h.loop.accounted.set_top _) (fun _ hg => h.plain hg)
    (by show f < m1.pmm_bitmap_len; rw [h.took.len]; exact hf), set_top_bit]

theorem Allocated.walk {path : List Nat}
    (hpath : Forest.Inner LowerSlot path) :
    Forest.walk child m'.slot k path = Forest.walk child m1.slot k path := by
  rw [h.placed.writes.walk (h.loop.accounted.set_top _) (fun _ hg => h.plain hg)
    h.loop.accounted.kernel hpath, set_top_walk]

theorem Allocated.mapsNew_iff (v f : Nat) :
    MapsNew m m' v f ↔ (⟨p, n⟩ : HeapBlock).first ≤ v ∧ v < (⟨p, n⟩ : HeapBlock).stop
      ∧ child (m'.entry k v) = some f := by
  have hfirst := h.placed.first
  have hloop := h.placed.loop
  have hle := h.loop.le
  unfold MapsNew
  constructor
  · rintro ⟨hv, hold, hnew⟩
    rw [h.before.kernelFrame_eq hv] at hold
    rw [h.after.kernelFrame_eq hv] at hnew
    refine ⟨?_, ?_, hnew⟩
    · by_contra hlt
      rw [h.placed.entries v hv, h.grew.entries v (by omega), hold] at hnew
      cases hnew
    · by_contra hge
      rw [h.placed.entries v hv, h.loop.clear v (by omega) hv] at hnew
      cases hnew
  · rintro ⟨h1, h2, hnew⟩
    have hv : v < 2 ^ 35 := by omega
    refine ⟨hv, ?_, ?_⟩
    · rw [h.before.kernelFrame_eq hv, h.before.clear v (by omega) hv]
      rfl
    · rw [h.after.kernelFrame_eq hv, hnew]

theorem Allocated.mapsNew
    (h1 : (⟨p, n⟩ : HeapBlock).first ≤ v) (h2 : v < (⟨p, n⟩ : HeapBlock).stop) :
    MapsNew m m' v (frameOf (m'.entry k v)) := by
  obtain ⟨f, hchild, -⟩ := (h.after.ok _ List.mem_cons_self).mapped v h1 h2
  rw [frameOf_eq_of_child hchild]
  exact (h.mapsNew_iff v f).mpr ⟨h1, h2, hchild⟩

theorem Allocated.frames_iff (f : Nat) :
    (∀ v, (⟨p, n⟩ : HeapBlock).first ≤ v → v < (⟨p, n⟩ : HeapBlock).stop →
      frameOf (m'.entry k v) ≠ f) ↔ ∀ v, ¬ MapsNew m m' v f := by
  constructor
  · intro hne v hv
    obtain ⟨h1, h2, hchild⟩ := (h.mapsNew_iff v f).mp hv
    exact hne v h1 h2 (frameOf_eq_of_child hchild)
  · rintro hnew v h1 h2 rfl
    exact hnew v (h.mapsNew h1 h2)

theorem Allocated.distinct {w : Nat}
    (hv : MapsNew m m' v f) (hw : MapsNew m m' w f) : v = w := by
  have hok := h.after.ok _ List.mem_cons_self
  obtain ⟨hv1, hv2, hv⟩ := (h.mapsNew_iff v f).mp hv
  obtain ⟨hw1, hw2, hw⟩ := (h.mapsNew_iff w f).mp hw
  refine (hok.mapped v hv1 hv2).inj (hok.mapped w hw1 hw2) ?_
  rw [frameOf_eq_of_child hv, frameOf_eq_of_child hw]

theorem Allocated.bitmap
    (hf : f < m.pmm_bitmap_len) :
    (m.bit f = true ↔ m'.bit f = true ∧ ∀ v, ¬ MapsNew m m' v f)
      ∨ (m.bit f = false ∧ KernelTable m' f) := by
  have hfirst := h.placed.first
  have hloop := h.placed.loop
  have hle := h.loop.le
  rw [h.bit hf]
  by_cases hold : m.bit f = true
  · -- a frame in use is not one of the block's
    refine Or.inl ⟨fun _ => ⟨h.took.bits f hf hold, fun v hv => ?_⟩, fun _ => hold⟩
    obtain ⟨h1, h2, hchild⟩ := (h.mapsNew_iff v f).mp hv
    obtain ⟨-, hfree⟩ := h.took.free v (by omega) (by omega)
    rw [← h.placed.entries v (by omega), frameOf_eq_of_child hchild, hold] at hfree
    cases hfree
  · by_cases hnow : m1.bit f = true
    · -- a frame taken is one of the block's, or a table
      rcases h.took.taken f hf hnow with hset | ⟨v, h1, h2, rfl⟩ | ⟨path, hpath, hw⟩
      · exact absurd hset hold
      · refine Or.inl ⟨fun hset => absurd hset hold, fun hkept => ?_⟩
        rw [← h.placed.entries v (by omega)] at hkept
        exact absurd (h.mapsNew (by omega) (by omega)) (hkept.2 v)
      · refine Or.inr ⟨Bool.eq_false_iff.mpr hold, path, hpath, ?_⟩
        rw [rootOf_eq h.after.kernel, h.walk hpath, hw]
    · exact Or.inl ⟨fun hset => absurd hset hold, fun hset => absurd hset.1 hnow⟩

theorem Allocated.undone {G'' : Ledger Owner} (h'' : HeapInv k m'' G'' blocks')
    (hrel : Released k (⟨p, n⟩ : HeapBlock).first (⟨p, n⟩ : HeapBlock).stop m' G' m'' G'')
    (hfreed : Freed k (⟨p, n⟩ : HeapBlock).first (⟨p, n⟩ : HeapBlock).stop m' m'') :
    Undone m m' m'' := by
  have hfirst := h.placed.first
  have hloop := h.placed.loop
  have hlen : m'.pmm_bitmap_len = m.pmm_bitmap_len := by
    rw [h.placed.writes.vars.len]
    exact h.took.len
  have hbits : ∀ f, f < m.pmm_bitmap_len →
      (m''.bit f = true ↔ m'.bit f = true ∧ ∀ v, ¬ MapsNew m m' v f) := by
    intro f hf
    rw [hfreed.bits f (by rw [hlen]; exact hf), h.frames_iff f]
  refine ⟨fun v hv => ?_, hbits, fun v w f => h.distinct, ?_, fun f hf => ?_⟩
  · rw [h''.translate_eq hv, h.before.translate_eq hv, hrel.entries v hv]
    split
    -- the block's pages were clear before, and nothing above them is mapped
    · next hin => rw [h.before.clear v (by omega) hv]
    · next hout =>
        rw [h.placed.entries v hv]
        by_cases hlow : v < pageOf m.top
        · rw [h.grew.entries v hlow]
        · rw [h.loop.clear v (by omega) hv, h.before.clear v (by omega) hv]
  · refine ⟨Finset.Ico (⟨p, n⟩ : HeapBlock).first (⟨p, n⟩ : HeapBlock).stop, fun v => ?_, ?_⟩
    · rw [Finset.mem_Ico]
      constructor
      · rintro ⟨h1, h2⟩
        exact ⟨_, h.mapsNew h1 h2⟩
      · rintro ⟨f, hv⟩
        obtain ⟨h1, h2, -⟩ := (h.mapsNew_iff v f).mp hv
        exact ⟨h1, h2⟩
    · rw [Nat.card_Ico]
      exact hfreed.count
  · rw [Bool.eq_iff_iff, hbits f hf]
    exact (h.bitmap hf).imp Iff.symm id

theorem Allocated.not_undone {lo hi : Nat} {G'' : Ledger Owner} (h'' : HeapInv k m'' G'' blocks')
    (hrel : Released k lo hi m' G' m'' G'') (hlo : (⟨p, n⟩ : HeapBlock).first < lo) :
    ¬ Undone m m' m'' := by
  intro hundone
  have hok := h.after.ok _ List.mem_cons_self
  have hstop := h.after.stop_lt List.mem_cons_self
  have hfirst := h.placed.first
  have hlast := hok.first_lt_stop
  obtain ⟨f, hchild, -⟩ := hok.mapped _ (Nat.le_refl _) hlast
  have htable := hundone.table (⟨p, n⟩ : HeapBlock).first (by omega)
  rw [h''.translate_eq (by omega), h.before.translate_eq (by omega), hrel.entries _ (by omega),
    if_neg (by omega), hchild, h.before.clear _ (by omega) (by omega)] at htable
  cases htable

end

theorem HeapInv.kfree_undoes_kmalloc (h : HeapInv k m G blocks)
    (hrun : kmalloc n m = some (p, m')) (hp : p ≠ 0) :
    (∃ m'', kfree p m' = some ((), m'') ∧ Undone m m' m'')
      ↔ 0 < n.toNat % 4096 ∧ n.toNat % 4096 ≤ 4080 := by
  obtain ⟨m1, G', halloc⟩ := h.allocated hrun hp
  have hok := halloc.after.ok _ List.mem_cons_self
  have hcond : pageOf p = (⟨p, n⟩ : HeapBlock).first ↔ _ :=
    hok.page_eq_first_iff.trans (payload_mod_iff hok.header)
  obtain ⟨m'', G'', _, _, -, hfree, hrel, hfreed, h''⟩ :=
    halloc.after.kfree_mem List.mem_cons_self
  constructor
  · rintro ⟨m2, hfree2, hundone⟩
    rw [hfree] at hfree2
    injection hfree2 with hfree2
    injection hfree2 with _ hm
    subst hm
    refine hcond.mp ?_
    by_contra hne
    exact halloc.not_undone h'' hrel (Nat.lt_of_le_of_ne hok.page_bounds.1 (Ne.symm hne)) hundone
  · intro hsize
    rw [show pageOf (⟨p, n⟩ : HeapBlock).ptr = (⟨p, n⟩ : HeapBlock).first from hcond.mpr hsize,
      hok.first_add_pages] at hrel hfreed
    exact ⟨m'', hfree, halloc.undone h'' hrel hfreed⟩

end Undo

/-- **`kfree` after `kmalloc`**, in every state the kernel reaches: the table and
the bitmap are what they were iff the size leaves room for some of the data on
the first page. -/
theorem kfree_undoes_iff (ehdr : Option (List Elf64Phdr)) (s : System) (hs : Reachable ehdr s)
    (n p : U64) (m' : Machine) (hrun : kmalloc n s.machine = some (p, m')) (hp : p ≠ 0) :
    (∃ m'', kfree p m' = some ((), m'') ∧ Undone s.machine m' m'')
      ↔ 0 < n.toNat % 4096 ∧ n.toNat % 4096 ≤ 4080 := by
  obtain ⟨k, G, h⟩ := KernelInv.reachable hs
  exact h.sys.heap.kfree_undoes_kmalloc hrun hp

/-- A block of 5000 bytes. -/
theorem kfree_undoes_5000 :
    ∃ p m' m'', kmalloc 5000 (System.init bootMachine).machine = some (p, m') ∧ p ≠ 0
      ∧ kfree p m' = some ((), m'') ∧ Undone (System.init bootMachine).machine m' m'' := by
  have hmalloc : (kmalloc 5000 (System.init bootMachine).machine).map Prod.fst
      = some 0x200000C78 := by decide +kernel
  obtain ⟨⟨p, m'⟩, hrun, hp⟩ := Option.map_eq_some_iff.mp hmalloc
  obtain rfl : p = 0x200000C78 := hp
  obtain ⟨m'', hfree, hundone⟩ :=
    (kfree_undoes_iff none _ reachable_boot 5000 _ m' hrun (by decide)).mpr (by decide)
  exact ⟨_, m', m'', hrun, by decide, hfree, hundone⟩

/-- **A block of 4096 bytes**: the header fills the first page to its end.  After
`kfree` that page is still mapped, and its frame in use. -/
theorem kfree_leaks_first_page :
    ∃ p m' m'' f, kmalloc 4096 bootMachine = some (p, m') ∧ p ≠ 0
      ∧ kfree p m' = some ((), m'')
      ∧ kernelFrame bootMachine 0x200000 = none ∧ bootMachine.bit f = false
      ∧ kernelFrame m'' 0x200000 = some f ∧ m''.bit f = true
      ∧ ¬ Undone bootMachine m' m'' := by
  have hboot : kernelFrame bootMachine 0x200000 = none ∧ bootMachine.bit 0x2009 = false := by
    decide +kernel
  have hruns : ((kmalloc 4096 bootMachine).bind fun r => (kfree r.1 r.2).map fun q =>
      (r.1, kernelFrame q.2 0x200000, q.2.bit 0x2009))
      = some (0x200001000, some 0x2009, true) := by
    decide +kernel
  obtain ⟨⟨p, m'⟩, hmalloc, hrest⟩ := Option.bind_eq_some_iff.mp hruns
  obtain ⟨⟨_, m''⟩, hfree, hout⟩ := Option.map_eq_some_iff.mp hrest
  simp only [Prod.mk.injEq] at hout
  obtain ⟨rfl, hframe, hbit⟩ := hout
  refine ⟨_, m', m'', 0x2009, hmalloc, by decide, hfree, hboot.1, hboot.2, hframe, hbit, ?_⟩
  intro hundone
  have htable : kernelFrame m'' 0x200000 = kernelFrame bootMachine 0x200000 := by
    unfold kernelFrame
    rw [hundone.table 0x200000 (by decide)]
  rw [hframe, hboot.1] at htable
  cases htable

end Quack.Sys
