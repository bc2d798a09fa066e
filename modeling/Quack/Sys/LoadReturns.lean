/-
  Quack.Sys.LoadReturns
  **LOADING A FRESH REGION.**

  With enough frames, `load` at the base of a region that was just allocated
  returns, and the region holds the data, with zeros after it.
-/
import Quack.Sys.Contents

namespace Quack.Sys

open Lib Mm Arch

/-! ## §1. The parts. -/

/-- The numbers of the pages that exist, the first being page `v`. -/
def livePages (v : Nat) : List BackingPage → Finset Nat
  | [] => ∅
  | page :: pages =>
    if page.exists_ then insert v (livePages (v + 1) pages) else livePages (v + 1) pages

theorem mem_livePages {w : Nat} (pages : List BackingPage) (v : Nat) :
    w ∈ livePages v pages
      ↔ ∃ i page, pages[i]? = some page ∧ page.exists_ = true ∧ w = v + i := by
  induction pages generalizing v with
  | nil =>
    simp [livePages]
  | cons page pages ih =>
    unfold livePages
    constructor
    · intro hw
      have hcase : (page.exists_ = true ∧ w = v) ∨ w ∈ livePages (v + 1) pages := by
        split at hw
        · next he => exact (Finset.mem_insert.mp hw).imp (fun h => ⟨he, h⟩) id
        · exact Or.inr hw
      rcases hcase with ⟨he, rfl⟩ | hw
      · exact ⟨0, page, rfl, he, rfl⟩
      · obtain ⟨i, p, hi, he, rfl⟩ := (ih (v + 1)).mp hw
        exact ⟨i + 1, p, hi, he, by omega⟩
    · rintro ⟨i, p, hi, he, rfl⟩
      cases i with
      | zero =>
        injection hi with hi
        subst hi
        rw [if_pos he]
        exact Finset.mem_insert_self ..
      | succ i =>
        have hrest : v + (i + 1) ∈ livePages (v + 1) pages :=
          (ih (v + 1)).mpr ⟨i, p, hi, he, by omega⟩
        split
        · exact Finset.mem_insert_of_mem hrest
        · exact hrest

theorem livePages_lt {pages : List BackingPage} {v w : Nat} (hw : w ∈ livePages v pages) :
    v ≤ w ∧ w < v + pages.length := by
  obtain ⟨i, page, hi, -, rfl⟩ := (mem_livePages pages v).mp hw
  have := (List.getElem?_eq_some_iff.mp hi).1
  omega

/-- The frames that hold data keep it. -/
def KeepsData (m : Machine) (G : Ledger Owner) (m' : Machine) : Prop :=
  ∀ p d, G (p / 4096) = some (.data d) → m'.byte p = m.byte p

section Parts

variable {k r n left : Nat} (ehdr : Option (List Elf64Phdr)) {m m' m'' : Machine}
  {G G' : Ledger Owner}

theorem KeepsData.of_touches (h : Touches r m G m' G') : KeepsData m G m' := by
  intro p d hp
  exact Machine.byte_congr (h.slots _ _ _ hp (by simp) (by omega))

theorem KeepsData.of_plain (h : KeepsPlain m G m') : KeepsData m G m' :=
  fun _ d hp => h.byte (Or.inr (Or.inr ⟨d, hp⟩))

variable {reg : MemoryMapping}

theorem touch_returns {idx : U64} {page : BackingPage}
    (hA : Accounted k m G) (hpage : reg.backing_pages[idx.toNat]? = some page)
    (he : page.exists_ = false) (ha : page.allocated = true) (hfree : 0 < freeFrames m) :
    ∃ ptr m', reg.touch (x86Mm ehdr) idx m
        = some ((true, reg.setPage idx.toNat ⟨ptr, true, true⟩), m')
      ∧ G (frameOf ptr) = none ∧ freeFrames m' + 1 = freeFrames m := by
  obtain ⟨f, halloc, hmem, hcount⟩ := pmm_alloc_returns hA hfree
  obtain ⟨hlow, -, hwin, hbit⟩ := mem_freeSet.mp hmem
  refine ⟨BitVec.ofNat 64 (4096 * f), m.take f, ?_, ?_, hcount⟩
  swap
  · rw [frameOf_addr hwin]
    exact hA.free_of_bit hbit
  unfold MemoryMapping.touch
  rw [Prog.bind_apply (Prog.ofOption_eq_some.mpr ⟨hpage, rfl⟩), if_neg (by simp [he]),
    Prog.bind_apply (Prog.check_apply ha m)]
  have halloc' : (x86Mm ehdr).arch_mm_alloc_phys 1 m
      = some (BitVec.ofNat 64 (4096 * f), m.take f) := halloc
  rw [Prog.bind_apply halloc', if_neg (frame_ne_null hlow hwin), ha]
  rfl

theorem touchRange_returns (left : Nat) (n : Nat) (start : U64) (touched : Bool)
    (reg : MemoryMapping) (m : Machine) (G : Ledger Owner) (hA : Accounted k m G)
    (hlt : start.toNat + n < 2 ^ 64)
    (hok : PagesOk (Unmanaged m.pmm_bitmap_len) G r (pageOf reg.base) reg.backing_pages)
    (hpages : ∀ j, start.toNat ≤ j → j < start.toNat + n → ∃ page,
      reg.backing_pages[j]? = some page ∧ page.exists_ = false ∧ page.allocated = true)
    (hfree : n + left ≤ freeFrames m) :
    ∃ reg' m', reg.touchRange (x86Mm ehdr) n start touched m
        = some ((touched || decide (0 < n), reg'), m')
      ∧ left ≤ freeFrames m'
      ∧ ∀ j page', reg'.backing_pages[j]? = some page' →
          if start.toNat ≤ j ∧ j < start.toNat + n then
            page'.exists_ = true ∧ G (frameOf page'.ptr) = none
          else reg.backing_pages[j]? = some page' := by
  induction n generalizing start touched reg m G with
  | zero =>
    refine ⟨reg, m, by simp [MemoryMapping.touchRange], by omega, fun j page' hj => ?_⟩
    rw [if_neg (by omega)]
    exact hj
  | succ n ih =>
    obtain ⟨page, hpage, he, ha⟩ := hpages start.toNat (by omega) (by omega)
    obtain ⟨ptr, m1, htouch, hptr, hcount⟩ := touch_returns ehdr hA hpage he ha (by omega)
    obtain ⟨G1, hf⟩ := touch_fills hA hok htouch
    have hnext : (start + 1).toNat = start.toNat + 1 := by
      rw [BitVec.toNat_add, show (1 : U64).toNat = 1 from rfl]
      omega
    have hok1 := hf.ok
    rw [← hf.effect.len] at hok1
    have hother : ∀ j, j ≠ start.toNat → (reg.setPage start.toNat ⟨ptr, true, true⟩).backing_pages[j]?
        = reg.backing_pages[j]? := fun j hj => List.getElem?_set_ne (Ne.symm hj)
    obtain ⟨reg', m', hrest, hleft, hpages'⟩ := ih (start + 1) (touched || true) _ m1 G1
      hf.effect.accounted (by omega) hok1
      (fun j hlo hhi => by
        rw [hother j (by omega)]
        exact hpages j (by omega) (by omega))
      (by omega)
    refine ⟨reg', m', ?_, hleft, fun j page' hj => ?_⟩
    · unfold MemoryMapping.touchRange
      rw [Prog.bind_apply htouch]
      refine hrest.trans ?_
      simp
    · have hcase := hpages' j page' hj
      rw [hnext] at hcase
      by_cases hin : start.toNat + 1 ≤ j ∧ j < start.toNat + 1 + n
      · -- a frame free after the first page was free before it
        rw [if_pos hin] at hcase
        rw [if_pos (by omega)]
        refine ⟨hcase.1, ?_⟩
        by_contra hne
        obtain ⟨u, hu⟩ := Option.ne_none_iff_exists'.mp hne
        rw [hf.ext _ u hu] at hcase
        cases hcase.2
      · rw [if_neg hin] at hcase
        by_cases hj0 : j = start.toNat
        · rw [if_pos (by omega)]
          subst hj0
          have hlt := (List.getElem?_eq_some_iff.mp hpage).1
          have hself : (reg.setPage start.toNat ⟨ptr, true, true⟩).backing_pages[start.toNat]?
              = some ⟨ptr, true, true⟩ := List.getElem?_set_self hlt
          rw [hself] at hcase
          rw [← Option.some.inj hcase]
          exact ⟨rfl, hptr⟩
        · rw [if_neg (by omega), ← hother j hj0]
          exact hcase

theorem mapping_load_returns (offset : U64) (data : List (BitVec 8))
    (hg : Ground k m G) (hplain : ∀ f, framesOf reg.backing_pages f → Plain m G f)
    (hend : offset.toNat + data.length ≤ 4096 * reg.size.toNat)
    (hne : ∀ i j, i < j → j < data.length →
      windowAddr reg.backing_pages (offset.toNat + i)
        ≠ windowAddr reg.backing_pages (offset.toNat + j))
    (hfree : tablesFor reg.size.toNat + left ≤ freeFrames m) :
    ∃ m', arch_mm_mapping_load reg offset data m = some ((), m') ∧ left ≤ freeFrames m'
      ∧ (∀ i (hi : i < data.length) d,
          G (windowAddr reg.backing_pages (offset.toNat + i) / 4096) = some (.data d) →
          m'.byte (windowAddr reg.backing_pages (offset.toNat + i)) = data[i])
      ∧ ∀ p d, G (p / 4096) = some (.data d) →
          (∀ i, i < data.length → p ≠ windowAddr reg.backing_pages (offset.toNat + i)) →
          m'.byte p = m.byte p := by
  have hlen := reg.backing_length
  have hbase : pageOf copy_base = 0x700000000 := rfl
  -- a window that leaves the lower half would need more tables than there are frames
  have hfits : pageOf copy_base + reg.backing_pages.length ≤ 2 ^ 35 := by
    have htotal := freeFrames_le m
    unfold tablesFor at hfree
    omega
  have hcost := tablesMissing_le m k (pageOf copy_base) reg.backing_pages.length
  obtain ⟨m1, hmap, hleft⟩ := (windowMap_returns_iff reg.backing_pages copy_base m G hg.accounted
    hg.kernel hfits).mpr (show _ + left ≤ _ by rw [hlen] at hcost ⊢; omega)
  obtain ⟨G1, hshown, ht⟩ := windowMap_shown hg.accounted hg.kernel hg.window hmap
  have hplain1 : ∀ f, framesOf reg.backing_pages f → Plain m1 G1 f :=
    fun f hf => (hplain f hf).touches ht
  have hstart : (copy_base + offset).toNat = copy_base.toNat + offset.toNat := by
    have hcopy : copy_base.toNat = 4096 * 0x700000000 := rfl
    rw [BitVec.toNat_add]
    omega
  obtain ⟨m2, hcopy, hc⟩ := copyIn_returns data m1 offset.toNat _ hshown hplain1 hstart
    (by omega) hne
  have hA2 := hc.writes.accounted hshown.accounted hplain1
  have hk2 : m2.kernel_pml4.toNat = 4096 * k := by
    rw [hc.writes.vars.kernel]
    exact hshown.kernel
  obtain ⟨m3, hunmap⟩ := windowUnmap_returns reg.size.toNat copy_base m2 hA2 hk2 (by omega)
  obtain ⟨-, ht3, -⟩ := windowUnmap_spec _ _ _ _ _ hA2 hk2 (by omega) hunmap
  have hkeep3 := KeepsData.of_touches ht3
  refine ⟨m3, ?_, ?_, ?_, ?_⟩
  · unfold arch_mm_mapping_load
    rw [Prog.bind_apply hmap, Prog.bind_apply hcopy]
    exact hunmap
  · rw [ht3.freeFrames_eq, hc.writes.freeFrames_eq hshown.accounted hplain1]
    exact hleft
  · intro i hi d hd
    rw [hkeep3 _ d (ht.ext _ _ hd)]
    exact hc.new i hi
  · intro p d hd hout
    rw [hkeep3 p d (ht.ext _ _ hd), hc.old p hout]
    exact KeepsData.of_touches ht p d hd

theorem mapPages_returns_iff {ctx base : U64} (perms cache : BitVec 32) (left : Nat)
    (hctx : ctx.toNat = 4096 * r) (pages : List BackingPage) (i : Nat) (m : Machine)
    (G : Ledger Owner) (hA : Accounted k m G) (hr : G r = some (.table r []))
    (hfits : pageOf base + i + pages.length ≤ 2 ^ 35) :
    (∃ m', AddressSpace.mapPages (x86Mm ehdr) ctx base perms cache i pages m = some ((), m')
        ∧ left ≤ freeFrames m')
      ↔ tablesMissing m r (livePages (pageOf base + i) pages) + left ≤ freeFrames m := by
  induction pages generalizing i m G with
  | nil => simp [AddressSpace.mapPages, Prog.pure_eq_some, livePages, tablesMissing, missingPaths]
  | cons page pages ih =>
    rw [List.length_cons] at hfits
    have hassoc : pageOf base + i + 1 = pageOf base + (i + 1) := by omega
    by_cases he : page.exists_ = true
    · have hv : pageOf (base + BitVec.ofNat 64 i * vm_page_size) = pageOf base + i :=
        pageOf_add_pages (by omega)
      have hfirst : (∃ m', AddressSpace.mapPages (x86Mm ehdr) ctx base perms cache i (page :: pages) m
            = some ((), m') ∧ left ≤ freeFrames m')
          ↔ ∃ m1, vmm_map_page ctx (base + BitVec.ofNat 64 i * vm_page_size) page.ptr
              ((vmm_arch_to_vmm_flags perms cache).signExtend 64) m = some ((), m1)
            ∧ ∃ m', AddressSpace.mapPages (x86Mm ehdr) ctx base perms cache (i + 1) pages m1
              = some ((), m') ∧ left ≤ freeFrames m' := by
        rw [AddressSpace.mapPages, if_pos he]
        constructor
        · rintro ⟨m', hrun, hleft⟩
          obtain ⟨j, m1, hmap, hpages⟩ := Prog.bind_eq_some.mp hrun
          exact ⟨m1, vmm_map_pages_one hmap, m', hpages, hleft⟩
        · rintro ⟨m1, hpage, m', hpages, hleft⟩
          have hmap : (x86Mm ehdr).arch_mm_map ctx (base + BitVec.ofNat 64 i * vm_page_size)
              page.ptr 1 perms cache m = some (1, m1) := vmm_map_pages_one_apply hpage
          exact ⟨m', (Prog.bind_apply hmap).trans hpages, hleft⟩
      rw [hfirst, livePages, if_pos he, hassoc, ← hv]
      refine vmm_map_page_then_iff left hA hr hctx (by omega) (fun w hw => ?_) fun m' G' _ hA' ht =>
        ih (i + 1) m' G' hA' (ht.ext r _ hr) (by omega)
      have := livePages_lt hw
      omega
    · rw [AddressSpace.mapPages, livePages, if_neg he, if_neg he, hassoc]
      exact ih (i + 1) m G hA hr (by omega)

theorem remap_returns (as : AddressSpace) (c : Cursor MemoryMapping)
    (touched : Bool) (hA : Accounted k m G) (hctx : as.vmm_ctx.toNat = 4096 * r)
    (hr : G r = some (.table r [])) (hfits : pageOf reg.base + reg.backing_pages.length ≤ 2 ^ 35)
    (hpages : ∀ (j : Nat) page, reg.backing_pages[j]? = some page →
      (page.exists_ = true ↔ j < n))
    (hfree : tablesFor n + left ≤ freeFrames m) :
    ∃ reg' m', as.remap (x86Mm ehdr) c touched reg m = some (as.withRegion c reg', m')
      ∧ reg'.shape = reg.shape ∧ reg'.backing_pages = reg.backing_pages
      ∧ left ≤ freeFrames m' ∧ KeepsData m G m' := by
  unfold AddressSpace.remap
  cases touched with
  | false => exact ⟨reg, m, rfl, rfl, rfl, by omega, fun _ _ _ => rfl⟩
  | true =>
    have hrow : livePages (pageOf reg.base + 0) reg.backing_pages
        ⊆ Finset.Ico (pageOf reg.base) (pageOf reg.base + n) := by
      intro w hw
      obtain ⟨i, page, hi, he, rfl⟩ := (mem_livePages _ _).mp hw
      have := (hpages i page hi).mp he
      exact Finset.mem_Ico.mpr (by omega)
    have hcost := (tablesMissing_mono m r hrow).trans (tablesMissing_le m r _ n)
    obtain ⟨m', hmap, hleft⟩ := (mapPages_returns_iff ehdr reg.perms reg.cache_mode left hctx
      reg.backing_pages 0 m G hA hr hfits).mpr (by omega)
    obtain ⟨G', hw⟩ := mapPages_spec hctx hA hr hfits hmap
    have hregion : as.map_region (x86Mm ehdr) reg m = some ({ reg with mapped := true }, m') := by
      unfold AddressSpace.map_region
      rw [Prog.bind_apply hmap]
      rfl
    refine ⟨{ reg with mapped := true }, m', ?_, rfl, rfl, hleft,
      KeepsData.of_touches hw.touches⟩
    rw [if_pos rfl, Prog.bind_apply hregion]
    rfl

end Parts

/-! ## §2. The call. -/

/-- The pages of `n` bytes. -/
def pagesFor (n : Nat) : Nat := (n + 4095) / 4096

section Call

variable {k left : Nat} {ehdr : Option (List Elf64Phdr)} {as : AddressSpace} {m m1 m2 : Machine}
  {G : Ledger Owner} {c : Cursor MemoryMapping} {reg : MemoryMapping} {address offset : U64}
  {data : List (BitVec 8)} {b : Bool}

theorem toNat_pages {x : U64} (h : x.toNat + 4096 ≤ 2 ^ 64) :
    ((x + vm_page_size - 1) / vm_page_size).toNat = pagesFor x.toNat := by
  have hone : (1 : U64).toNat = 1 := rfl
  have hpage : vm_page_size.toNat = 4096 := rfl
  have hadd : (x + vm_page_size - 1).toNat = x.toNat + 4095 := by
    rw [BitVec.toNat_sub, BitVec.toNat_add, hone, hpage]
    omega
  rw [BitVec.toNat_udiv, hadd, hpage]
  rfl

theorem ensure_load_store_eq {n : Nat} (hoff : offset.toNat ≤ 2 ^ 47) (hn : n ≤ 2 ^ 47) :
    reg.ensure_load_store (x86Mm ehdr) offset (BitVec.ofNat 64 n) m
      = if reg.size.toNat < pagesFor (offset.toNat + n) then some ((false, reg), m)
        else reg.touchRange (x86Mm ehdr) (pagesFor n) (offset / vm_page_size) false m := by
  have hlen : (BitVec.ofNat 64 n).toNat = n := by
    rw [BitVec.toNat_ofNat, Nat.mod_eq_of_lt (by omega)]
  have hsum : (offset + BitVec.ofNat 64 n).toNat = offset.toNat + n := by
    rw [BitVec.toNat_add, hlen, Nat.mod_eq_of_lt (by omega)]
  have hsigned : 0 ≤ offset.toInt := by
    rw [BitVec.toInt_eq_toNat_of_lt (by omega)]
    omega
  unfold MemoryMapping.ensure_load_store
  rw [Prog.bind_apply (Prog.check_apply hsigned m)]
  have hpages := toNat_pages (x := BitVec.ofNat 64 n) (by omega)
  have htotal := toNat_pages (x := offset + BitVec.ofNat 64 n) (by omega)
  rw [hlen] at hpages
  rw [hsum] at htotal
  simp only [gt_iff_lt, BitVec.lt_def, htotal, hpages]
  split
  · rfl
  · rfl

section

variable (hfind : as.region_for_address address = some c)
  (hensure : c.elem.ensure_load_store (x86Mm ehdr) (address - c.elem.base)
    (BitVec.ofNat 64 data.length) m = some ((b, reg), m1))

include hfind hensure

theorem load_run
    (hload : arch_mm_mapping_load reg (address - c.elem.base) data m1 = some ((), m2)) :
    as.load (x86Mm ehdr) address data m = as.remap (x86Mm ehdr) c b reg m2 := by
  unfold AddressSpace.load
  rw [hfind]
  have hcall : c.elem.load (x86Mm ehdr) (address - c.elem.base) data m = some ((b, reg), m2) := by
    unfold MemoryMapping.load
    have hload' : (x86Mm ehdr).arch_mm_mapping_load reg (address - c.elem.base) data m1
        = some ((), m2) := hload
    rw [Prog.bind_apply hensure]
    exact Prog.bind_apply hload'
  exact Prog.bind_apply hcall

theorem load_stops
    (hload : arch_mm_mapping_load reg (address - c.elem.base) data m1 = none) :
    as.load (x86Mm ehdr) address data m = none := by
  unfold AddressSpace.load
  rw [hfind]
  apply Prog.bind_none
  unfold MemoryMapping.load
  rw [Prog.bind_apply hensure]
  exact Prog.bind_none hload

end

section

variable (h : SpaceInv (Unmanaged m.pmm_bitmap_len) k as m G) (hg : Ground k m G)
  (hfind : as.region_for_address address = some c)

include h hg hfind

theorem SpaceInv.load_nothing
    (hfree : tablesFor c.elem.size.toNat + left ≤ freeFrames m) :
    ∃ m', as.load (x86Mm ehdr) address [] m = some (as, m') ∧ left ≤ freeFrames m'
      ∧ KeepsData m G m' := by
  obtain ⟨hl, hlo, hhi⟩ := AddressSpace.region_for_address_some hfind
  have hmem : c.elem ∈ as.mapped_regions := Cursor.elem_mem hl
  have hfits := h.tiled.fits_regions _ hmem
  have hoff := offset_le hfits hlo hhi
  have hend := hfits.le_end
  rw [toNat_user_end] at hend
  have hsize : c.elem.shape.size = c.elem.size := rfl
  rw [hsize] at hend
  have hensure : c.elem.ensure_load_store (x86Mm ehdr) (address - c.elem.base)
      (BitVec.ofNat 64 ([] : List (BitVec 8)).length) m = some ((false, c.elem), m) := by
    rw [ensure_load_store_eq (by omega) (by simp), if_neg]
    · rfl
    · rw [List.length_nil, Nat.add_zero]
      unfold pagesFor
      omega
  obtain ⟨m', hload, hleft, -, hold⟩ := mapping_load_returns (address - c.elem.base) [] hg
    (fun f ⟨page, hpage, he⟩ => by
      obtain ⟨i, hi⟩ := List.getElem?_of_mem hpage
      exact he ▸ (h.pages_of hl i page hi).plain_frame hg.accounted)
    (by rw [List.length_nil]; exact hoff) (fun i j _ hj => absurd hj (Nat.not_lt_zero j)) hfree
  refine ⟨m', ?_, hleft, fun p d hd => hold p d hd fun i hi => absurd hi (Nat.not_lt_zero i)⟩
  rw [load_run hfind hensure hload]
  unfold AddressSpace.remap
  rw [if_neg Bool.false_ne_true, Prog.bind_apply (Prog.pure_apply _ _)]
  show some (as.withRegion c c.elem, m') = some (as, m')
  rw [withRegion_self hl]

theorem SpaceInv.load_past_end
    (hend : address.toNat = c.elem.base.toNat + 4096 * c.elem.size.toNat)
    (hdata : data ≠ []) (hlen : data.length ≤ 2 ^ 47) :
    as.load (x86Mm ehdr) address data m = none := by
  obtain ⟨hl, hlo, hhi⟩ := AddressSpace.region_for_address_some hfind
  have hmem : c.elem ∈ as.mapped_regions := Cursor.elem_mem hl
  have hfits := h.tiled.fits_regions _ hmem
  have hle := hfits.le_end
  rw [toNat_user_end] at hle
  have hsize : c.elem.shape.size = c.elem.size := rfl
  rw [hsize] at hle
  have hoff : (address - c.elem.base).toNat = 4096 * c.elem.size.toNat := by
    rw [BitVec.toNat_sub_of_le hlo]
    omega
  have hpos := List.length_pos_iff.mpr hdata
  have hensure : c.elem.ensure_load_store (x86Mm ehdr) (address - c.elem.base)
      (BitVec.ofNat 64 data.length) m = some ((false, c.elem), m) := by
    rw [ensure_load_store_eq (by omega) hlen, if_pos]
    unfold pagesFor
    omega
  apply load_stops hfind hensure
  unfold arch_mm_mapping_load
  cases hmap : windowMap copy_base c.elem.backing_pages m with
  | none => exact Prog.bind_none hmap
  | some p =>
    obtain ⟨u, m1⟩ := p
    obtain ⟨G1, hshown, ht⟩ := windowMap_shown hg.accounted hg.kernel hg.window hmap
    rw [Prog.bind_apply hmap]
    apply Prog.bind_none
    have hblen := c.elem.backing_length
    refine copyIn_faults data m1 (address - c.elem.base).toNat _ hshown ?_ ?_ (by omega)
      (by omega)
    · rintro f ⟨page, hpage, rfl⟩
      obtain ⟨i, hi⟩ := List.getElem?_of_mem hpage
      exact ((h.pages_of hl i page hi).plain_frame hg.accounted).touches ht
    · have hcopy : copy_base.toNat = 4096 * 0x700000000 := rfl
      rw [BitVec.toNat_add]
      omega

end

theorem windowAddr_inj {r v : Nat} {pages : List BackingPage} {a b : Nat} (hA : Accounted k m G)
    (hok : PagesOk (Unmanaged m.pmm_bitmap_len) G r v pages)
    (hbacked : ∀ (j : Nat) page, pages[j]? = some page → 4096 * j < b + 1 →
      page.exists_ = true ∧ page.allocated = true)
    (hab : a < b) (hb : b < 4096 * pages.length) : windowAddr pages a ≠ windowAddr pages b := by
  have hframe : ∀ o, o ≤ b → ∃ f, windowAddr pages o = 4096 * f + o % 4096
      ∧ G f = some (.data (.page r (v + o / 4096))) := by
    intro o ho
    have hget := List.getElem?_eq_getElem (show o / 4096 < pages.length by omega)
    obtain ⟨he, ha⟩ := hbacked _ _ hget (by omega)
    obtain ⟨f, hptr, hf⟩ := (hok _ _ hget).backed he ha
    have heq := (hok _ _ hget).frameOf_ptr_eq hA he
    refine ⟨f, ?_, hf⟩
    rw [windowAddr_of_page hget, show frameOf pages[o / 4096].ptr = f by omega]
  obtain ⟨f, haddr, hf⟩ := hframe a (by omega)
  obtain ⟨g, haddr', hg⟩ := hframe b (Nat.le_refl b)
  intro he
  have hfg : f = g := by omega
  have hmod : a % 4096 = b % 4096 := by omega
  rw [hfg, hg] at hf
  injection hf with hf
  injection hf with hf
  injection hf with _ hf
  omega

/-- **The first `T` pages of a fresh region have frames**: new ones, cleared. -/
structure Stocked (k r T : Nat) (m : Machine) (G : Ledger Owner) (m1 : Machine)
    (G1 : Ledger Owner) (reg : MemoryMapping) : Prop where
  ground : Ground k m1 G1
  ok : PagesOk (Unmanaged m1.pmm_bitmap_len) G1 r (pageOf reg.base) reg.backing_pages
  exists_iff : ∀ (j : Nat) page, reg.backing_pages[j]? = some page → (page.exists_ = true ↔ j < T)
  allocated : ∀ (j : Nat) page, reg.backing_pages[j]? = some page → page.allocated = true
  new : ∀ (j : Nat) page, reg.backing_pages[j]? = some page → j < T → G (frameOf page.ptr) = none
  clear : ∀ (j : Nat) page, reg.backing_pages[j]? = some page → ∀ o, o < 4096 →
    pageByte m1 page o = 0
  ext : ∀ f u, G f = some u → G1 f = some u
  keeps : KeepsData m G m1

theorem touchRange_stocks (ehdr : Option (List Elf64Phdr)) (left : Nat) {r T : Nat}
    {reg0 : MemoryMapping} (hg : Ground k m G)
    (hok : PagesOk (Unmanaged m.pmm_bitmap_len) G r (pageOf reg0.base) reg0.backing_pages)
    (hfresh : ∀ page ∈ reg0.backing_pages, page.exists_ = false ∧ page.allocated = true)
    (hT : T ≤ reg0.size.toNat) (hfree : T + left ≤ freeFrames m) :
    ∃ reg m1 G1, reg0.touchRange (x86Mm ehdr) T 0 false m = some ((decide (0 < T), reg), m1)
      ∧ left ≤ freeFrames m1 ∧ reg.shape = reg0.shape ∧ Stocked k r T m G m1 G1 reg := by
  have h0 : (0 : U64).toNat = 0 := rfl
  have hlen := reg0.backing_length
  obtain ⟨reg, m1, htouch, hleft, hpages⟩ := touchRange_returns ehdr left T 0 false reg0 m G
    hg.accounted (by omega) hok
    (fun j _ hj => by
      have hget := List.getElem?_eq_getElem (show j < reg0.backing_pages.length by omega)
      exact ⟨_, hget, hfresh _ (List.getElem_mem _)⟩) hfree
  obtain ⟨G1, b, -, hf⟩ := touchRange_fills _ _ _ _ _ _ _ _ _ hg.accounted hok htouch
  obtain ⟨hview, hkeep⟩ := touchRange_view _ _ _ _ _ _ _ _ _ hg.accounted hok htouch
  have hcases : ∀ (j : Nat) page, reg.backing_pages[j]? = some page →
      if j < T then page.exists_ = true ∧ G (frameOf page.ptr) = none
      else reg0.backing_pages[j]? = some page := by
    intro j page hj
    have hcase := hpages j page hj
    simpa only [h0, Nat.zero_le, true_and, Nat.zero_add] using hcase
  refine ⟨reg, m1, G1, htouch, hleft, hf.grown.shape, hg.effect hf.effect, ?_, ?_, ?_, ?_, ?_,
    hf.ext, KeepsData.of_plain hkeep⟩
  · rw [hf.effect.len]
    exact hf.ok
  · intro j page hj
    have hcase := hcases j page hj
    by_cases hin : j < T
    · rw [if_pos hin] at hcase
      exact iff_of_true hcase.1 hin
    · rw [if_neg hin] at hcase
      have := (hfresh page (List.mem_of_getElem? hcase)).1
      simp [this, hin]
  · intro j page hj
    by_contra ha
    rw [Bool.not_eq_true] at ha
    have hold := hfresh page (List.mem_of_getElem? (hf.grown.foreign j page hj ha))
    rw [hold.2] at ha
    cases ha
  · intro j page hj hin
    have hcase := hcases j page hj
    rw [if_pos hin] at hcase
    exact hcase.2
  · -- a page without a frame reads as zero, and a touched page reads as before
    intro j page hj o ho
    obtain ⟨page0, hpage0, -, hbyte⟩ := hview j page hj
    rw [hbyte o ho]
    unfold pageByte
    rw [(hfresh page0 (List.mem_of_getElem? hpage0)).1]
    rfl

section Stock

variable {r T : Nat} {m3 : Machine} {G1 : Ledger Owner}

theorem Stocked.plain (h : Stocked k r T m G m1 G1 reg) {f : Nat}
    (hf : framesOf reg.backing_pages f) : Plain m1 G1 f := by
  obtain ⟨page, hpage, rfl⟩ := hf
  obtain ⟨i, hi⟩ := List.getElem?_of_mem hpage
  exact (h.ok i page hi).plain_frame h.ground.accounted

section

variable (h : Stocked k r T m G m1 G1 reg) (hT : T ≤ reg.backing_pages.length)

include h hT

theorem Stocked.windowAddr_ne {i o : Nat} (hio : i < o) (ho : o < 4096 * T) :
    windowAddr reg.backing_pages i ≠ windowAddr reg.backing_pages o := by
  refine windowAddr_inj h.ground.accounted h.ok (fun j page hj hlt => ?_) hio (by omega)
  exact ⟨(h.exists_iff j page hj).mpr (by omega), h.allocated j page hj⟩

theorem Stocked.data_ne
    {p : Nat} {d : Owner} (hd : G (p / 4096) = some (.data d)) {i : Nat} (hi : i < 4096 * T) :
    p ≠ windowAddr reg.backing_pages i := by
  rintro rfl
  have hget := List.getElem?_eq_getElem (show i / 4096 < reg.backing_pages.length by omega)
  have hnew := h.new _ _ hget (by omega)
  rw [windowAddr_of_page hget, show (4096 * frameOf reg.backing_pages[i / 4096].ptr + i % 4096)
    / 4096 = frameOf reg.backing_pages[i / 4096].ptr by omega, hnew] at hd
  cases hd

theorem Stocked.reads
    (hdata : data.length ≤ 4096 * T)
    (hnew : ∀ i (hi : i < data.length) d,
      G1 (windowAddr reg.backing_pages i / 4096) = some (.data d) →
      m3.byte (windowAddr reg.backing_pages i) = data[i])
    (hold : ∀ p d, G1 (p / 4096) = some (.data d) →
      (∀ i, i < data.length → p ≠ windowAddr reg.backing_pages i) → m3.byte p = m1.byte p)
    {j : Nat} {page : BackingPage} (hj : reg.backing_pages[j]? = some page) {o : Nat}
    (ho : o < 4096) : pageByte m3 page o = data[4096 * j + o]?.getD 0 := by
  have hclear := h.clear j page hj o ho
  unfold pageByte at hclear ⊢
  by_cases hin : j < T
  · have he := (h.exists_iff j page hj).mpr hin
    obtain ⟨f, hptr, hfr⟩ := (h.ok j page hj).backed he (h.allocated j page hj)
    have hframe : frameOf page.ptr = f := by
      have := (h.ok j page hj).frameOf_ptr_eq h.ground.accounted he
      omega
    have haddr : windowAddr reg.backing_pages (4096 * j + o) = 4096 * f + o := by
      rw [windowAddr_of_page (by rw [show (4096 * j + o) / 4096 = j by omega]; exact hj), hframe]
      omega
    have hd : G1 ((4096 * f + o) / 4096) = some (.data (.page r (pageOf reg.base + j))) := by
      rw [show (4096 * f + o) / 4096 = f by omega]
      exact hfr
    rw [if_pos he, hframe] at hclear ⊢
    by_cases hlt : 4096 * j + o < data.length
    · have hbyte := hnew _ hlt _ (by rw [haddr]; exact hd)
      rw [haddr] at hbyte
      rw [hbyte, List.getElem?_eq_getElem hlt]
      rfl
    · -- behind the data, the frame is as it was cleared
      rw [hold _ _ hd, List.getElem?_eq_none (by omega)]
      · exact hclear
      · intro i hi
        rw [← haddr]
        exact (h.windowAddr_ne hT (show i < 4096 * j + o by omega) (by omega)).symm
  · have he : page.exists_ = false := by
      rw [← Bool.not_eq_true, h.exists_iff j page hj]
      exact hin
    rw [he, List.getElem?_eq_none (by omega)]
    rfl

end

end Stock

theorem SpaceInv.load_fresh (h : SpaceInv (Unmanaged m.pmm_bitmap_len) k as m G)
    (hg : Ground k m G) (hfind : as.region_for_address c.elem.base = some c)
    (hfresh : ∀ page ∈ c.elem.backing_pages, page.exists_ = false ∧ page.allocated = true)
    (hdata : data.length ≤ 4096 * c.elem.size.toNat)
    (hfree : pagesFor data.length + tablesFor c.elem.size.toNat
      + tablesFor (pagesFor data.length) + left ≤ freeFrames m) :
    ∃ reg' m', as.load (x86Mm ehdr) c.elem.base data m = some (as.withRegion c reg', m')
      ∧ left ≤ freeFrames m' ∧ reg'.shape = c.elem.shape ∧ KeepsData m G m'
      ∧ ∀ j page', reg'.backing_pages[j]? = some page' →
          ∀ o, o < 4096 → pageByte m' page' o = data[4096 * j + o]?.getD 0 := by
  obtain ⟨hl, -, -⟩ := AddressSpace.region_for_address_some hfind
  have hmem : c.elem ∈ as.mapped_regions := Cursor.elem_mem hl
  have hle : c.elem.base.toNat + 4096 * c.elem.size.toNat ≤ 2 ^ 47 :=
    (h.tiled.fits_regions _ hmem).le_end
  have hzero : c.elem.base - c.elem.base = 0 := BitVec.sub_self _
  have h0 : (0 : U64).toNat = 0 := rfl
  obtain ⟨T, hTdef⟩ : ∃ T, T = pagesFor data.length := ⟨_, rfl⟩
  have hTdata : data.length ≤ 4096 * T ∧ 4096 * T < data.length + 4096 := by
    rw [hTdef]
    unfold pagesFor
    omega
  rw [← hTdef] at hfree
  -- the first `T` pages are touched
  obtain ⟨reg, m1, G1, htouch, hfree1, hshape1, hst⟩ := touchRange_stocks ehdr
    (tablesFor c.elem.size.toNat + (tablesFor T + left)) hg (h.pages_of hl) hfresh
    (show T ≤ _ by omega) (by omega)
  have hbase : reg.base = c.elem.base := congrArg MemoryHole.base hshape1
  have hsize : reg.size = c.elem.size := congrArg MemoryHole.size hshape1
  have hlen := c.elem.backing_length
  have hrlen := reg.backing_length
  rw [hsize] at hrlen
  have hT : T ≤ reg.backing_pages.length := by omega
  -- the data is copied
  obtain ⟨m2, hload, hfree2, hnew, hold⟩ := mapping_load_returns 0 data hst.ground
    (fun f hf => hst.plain hf) (by rw [hsize, h0]; omega)
    (fun i j hij hj => hst.windowAddr_ne hT (by omega) (by rw [h0]; omega))
    (by rw [hsize]; exact hfree1)
  simp only [h0, Nat.zero_add] at hnew hold
  obtain ⟨G2, hc⟩ := arch_mm_mapping_load_spec hst.ground.accounted hst.ground.kernel
    hst.ground.window (by rw [h0]; exact Nat.zero_le _) (fun f hf => hst.plain hf) hload
  -- and the region mapped again
  have hfit := h.pages_le hl
  obtain ⟨reg', m3, hremap, hshape, hpages', hleft, hkeep3⟩ := remap_returns ehdr as c
    (decide (0 < T)) hc.accounted h.ctx (hc.ext _ _ (hst.ext _ _ h.is_root))
    (by rw [hbase]; omega) hst.exists_iff hfree2
  have hensure : c.elem.ensure_load_store (x86Mm ehdr) (c.elem.base - c.elem.base)
      (BitVec.ofNat 64 data.length) m = some ((decide (0 < T), reg), m1) := by
    rw [hzero, ensure_load_store_eq (by omega) (by omega), if_neg, ← hTdef]
    · exact htouch
    · rw [h0, Nat.zero_add, ← hTdef]
      omega
  have hfinal : ∀ p d, G1 (p / 4096) = some (.data d) → m3.byte p = m2.byte p :=
    fun p d hd => hkeep3 p d (hc.ext _ _ hd)
  refine ⟨reg', m3, ?_, hleft, hshape.trans hshape1, ?_, ?_⟩
  · rw [load_run hfind hensure (by rw [hzero]; exact hload)]
    exact hremap
  · intro p d hd
    rw [hfinal p d (hst.ext _ _ hd), hold p d (hst.ext _ _ hd), hst.keeps p d hd]
    exact fun i hi => hst.data_ne hT hd (by omega)
  · intro j page' hj o ho
    rw [hpages'] at hj
    refine hst.reads hT hTdata.1 (fun i hi d hd => ?_) (fun p d hd hp => ?_) hj ho
    · rw [hfinal _ d hd, hnew i hi d hd]
    · rw [hfinal p d hd, hold p d hd hp]

end Call

end Quack.Sys
