/-
  Quack.Loader.Image
  **THE IMAGE IN THE ADDRESS SPACE.**

  `region_for_address` takes the end of a region for a part of it.  If a segment
  begins where the pages of an earlier one end, its bytes are copied through the
  window of that one, past its last page, and the kernel faults.  All other
  images are loaded as they should be.

    • `elf64_load_image` — the loader makes the image exactly if no segment with bytes in
      the file follows on an earlier one.
    • `elf64_load_touching` — two pages that cannot be loaded in this order.
-/
import Quack.Loader.Elf64
import Quack.Mm.RegionOrder
import Quack.Sys.LoadReturns

namespace Quack.Loader

open Lib Mm Arch Sys

/-! ## §1. Images. -/

/-- The pages of the segment, and where they end. -/
def Phdr.pages (phdr : Phdr) : Nat := pagesFor phdr.p_memsz.toNat

def Phdr.pageEnd (phdr : Phdr) : Nat := phdr.p_vaddr.toNat + 4096 * phdr.pages

/-- A segment on user pages that holds its bytes of the file. -/
structure Phdr.Placed (phdr : Phdr) : Prop where
  aligned : phdr.p_vaddr.toNat % 4096 = 0
  above : vm_user_base.toNat ≤ phdr.p_vaddr.toNat
  below : phdr.p_vaddr.toNat + phdr.p_memsz.toNat ≤ vm_user_end.toNat
  nonempty : 0 < phdr.p_memsz.toNat
  room : phdr.p_filesz.toNat ≤ phdr.p_memsz.toNat

/-- Segments that do not share a page. -/
structure Loadable (segs : List Phdr) : Prop where
  placed : ∀ seg ∈ segs, seg.Placed
  disjoint : segs.Pairwise fun a b => a.pageEnd ≤ b.p_vaddr.toNat ∨ b.pageEnd ≤ a.p_vaddr.toNat

/-- **No segment with bytes in the file begins where an earlier one ends.** -/
def Unchained (segs : List Phdr) : Prop :=
  segs.Pairwise fun a b => a.pageEnd = b.p_vaddr.toNat → b.p_filesz = 0

instance (phdr : Phdr) : Decidable phdr.Placed :=
  decidable_of_iff (phdr.p_vaddr.toNat % 4096 = 0 ∧ vm_user_base.toNat ≤ phdr.p_vaddr.toNat
      ∧ phdr.p_vaddr.toNat + phdr.p_memsz.toNat ≤ vm_user_end.toNat ∧ 0 < phdr.p_memsz.toNat
      ∧ phdr.p_filesz.toNat ≤ phdr.p_memsz.toNat)
    ⟨fun ⟨h1, h2, h3, h4, h5⟩ => ⟨h1, h2, h3, h4, h5⟩,
      fun ⟨h1, h2, h3, h4, h5⟩ => ⟨h1, h2, h3, h4, h5⟩⟩

instance (segs : List Phdr) : Decidable (Loadable segs) :=
  decidable_of_iff ((∀ seg ∈ segs, seg.Placed)
      ∧ segs.Pairwise fun a b => a.pageEnd ≤ b.p_vaddr.toNat ∨ b.pageEnd ≤ a.p_vaddr.toNat)
    ⟨fun ⟨h1, h2⟩ => ⟨h1, h2⟩, fun ⟨h1, h2⟩ => ⟨h1, h2⟩⟩

instance (segs : List Phdr) : Decidable (Unchained segs) :=
  inferInstanceAs (Decidable (segs.Pairwise fun a b =>
    a.pageEnd = b.p_vaddr.toNat → b.p_filesz = 0))

/-- The byte the segment has at `i`. -/
def ElfFile.segByte (file : ElfFile) (seg : Phdr) (i : Nat) : BitVec 8 :=
  if i < seg.p_filesz.toNat then file (seg.p_offset + BitVec.ofNat 64 i) else 0

/-- **The image of the file**, as the space shows it. -/
def ShowsImage (file : ElfFile) (segs : List Phdr) (as : AddressSpace) (m : Machine) : Prop :=
  ∀ seg ∈ segs, ∀ i, i < seg.p_memsz.toNat →
    byteSeen as m (seg.p_vaddr.toNat + i) = some (file.segByte seg i)

def segFrames (n : Nat) (seg : Phdr) : Nat :=
  pagesFor seg.p_filesz.toNat + tablesFor n + tablesFor (pagesFor seg.p_filesz.toNat)

/-- Frames that are enough for an image. -/
def imageFrames (segs : List Phdr) : Nat :=
  (segs.map (segFrames (segs.map Phdr.pages).sum)).sum

section Segment

variable {file : ElfFile} {seg : Phdr}

theorem Phdr.Placed.n_pages (h : seg.Placed) : seg.n_pages.toNat = seg.pages := by
  have hbelow := h.below
  have hend : vm_user_end.toNat = 2 ^ 47 := rfl
  exact toNat_pages (by omega)

theorem Phdr.Placed.pageEnd_le (h : seg.Placed) : seg.pageEnd ≤ 2 ^ 47 := by
  have hbelow := h.below
  have haligned := h.aligned
  have hend : vm_user_end.toNat = 2 ^ 47 := rfl
  unfold Phdr.pageEnd Phdr.pages pagesFor
  omega

theorem Phdr.Placed.pages_pos (h : seg.Placed) : 0 < seg.pages := by
  have := h.nonempty
  unfold Phdr.pages pagesFor
  omega

theorem Phdr.Placed.wellPlaced (h : seg.Placed) : WellPlaced seg.p_vaddr seg.n_pages := by
  have hend := h.pageEnd_le
  unfold Phdr.pageEnd at hend
  refine ⟨h.aligned, ?_⟩
  rw [h.n_pages]
  omega

@[simp] theorem bytes_length (file : ElfFile) (off size : U64) :
    (file.bytes off size).length = size.toNat := by
  unfold ElfFile.bytes
  rw [List.length_map, List.length_range]

theorem bytes_getD (i : Nat) :
    (file.bytes seg.p_offset seg.p_filesz)[i]?.getD 0 = file.segByte seg i := by
  unfold ElfFile.bytes ElfFile.segByte
  by_cases hi : i < seg.p_filesz.toNat
  · rw [if_pos hi, List.getElem?_map, List.getElem?_range hi]
    rfl
  · rw [if_neg hi, List.getElem?_eq_none (by simpa using hi)]
    rfl

theorem tablesFor_mono {a b : Nat} (h : a ≤ b) : tablesFor a ≤ tablesFor b := by
  have h9 : a / 2 ^ 9 ≤ b / 2 ^ 9 := Nat.div_le_div_right h
  have h18 : a / 2 ^ 18 ≤ b / 2 ^ 18 := Nat.div_le_div_right h
  have h27 : a / 2 ^ 27 ≤ b / 2 ^ 27 := Nat.div_le_div_right h
  unfold tablesFor
  omega

end Segment

/-! ## §2. The loop. -/

/-- The region has the pages of the segment. -/
def RegionOf (seg : Phdr) (reg : MemoryMapping) : Prop := reg.shape = ⟨seg.p_vaddr, seg.n_pages⟩

/-- And its bytes. -/
def HoldsBytes (file : ElfFile) (seg : Phdr) (m : Machine) (reg : MemoryMapping) : Prop :=
  ∀ (j : Nat) (page : BackingPage), reg.backing_pages[j]? = some page →
    ∀ o, o < 4096 → pageByte m page o = file.segByte seg (4096 * j + o)

/-- **The segments `done` are loaded**, and nothing else is in the space. -/
structure ImageInv (file : ElfFile) (k : Nat) (done : List Phdr) (as : AddressSpace) (m : Machine)
    (G : Ledger Owner) : Prop where
  space : SpaceInv (fun _ => False) k as m G
  ground : Ground k m G
  holes : Coalesced as.memory_holes
  order : RegionsOrdered as
  regions : ∀ reg ∈ as.mapped_regions, ∃ seg ∈ done, RegionOf seg reg
  segments : ∀ seg ∈ done, ∃ reg ∈ as.mapped_regions, RegionOf seg reg ∧ HoldsBytes file seg m reg

section Loop

variable {kernel : Option (List Elf64Phdr)} {file : ElfFile} {k left n : Nat} {done : List Phdr}
  {seg : Phdr} {as : AddressSpace} {m m' : Machine} {G : Ledger Owner}

theorem RegionOf.lo {reg : MemoryMapping} (h : RegionOf seg reg) :
    reg.shape.span.lo = seg.p_vaddr.toNat := by
  rw [h]
  rfl

theorem RegionOf.hi {reg : MemoryMapping} (h : RegionOf seg reg) (hp : seg.Placed) :
    reg.shape.span.hi = seg.pageEnd := by
  rw [h]
  show seg.p_vaddr.toNat + 4096 * seg.n_pages.toNat = _
  rw [hp.n_pages]
  rfl

theorem KeepsData.pageByte {r v : Nat} {page : BackingPage} (h : KeepsData m G m')
    (hA : Accounted k m G) (hok : PageOk (fun _ => False) G r v page) {o : Nat} (ho : o < 4096) :
    pageByte m' page o = pageByte m page o := by
  unfold Quack.Sys.pageByte
  cases he : page.exists_ with
  | false => rfl
  | true =>
    have hframe := hok.frameOf_ptr_eq hA he
    cases ha : page.allocated with
    | false => exact (hok.foreign he ha).2.2.elim
    | true =>
      obtain ⟨f, hptr, hf⟩ := hok.backed he ha
      apply h
      rw [show (4096 * frameOf page.ptr + o) / 4096 = f by omega]
      exact hf

/-- The space between `allocate_at` and `load`. -/
structure Allocated (k : Nat) (seg : Phdr) (as : AddressSpace) (m : Machine) (as' : AddressSpace)
    (c : Cursor MemoryMapping) (G : Ledger Owner) : Prop where
  fresh : FreshRegion as as' c seg.p_vaddr seg.n_pages
  space : SpaceInv (fun _ => False) k as' m G
  ground : Ground k m G
  holes : Coalesced as'.memory_holes
  order : RegionsOrdered as'

theorem ImageInv.freeRun (h : ImageInv file k done as m G) (hsegs : Loadable (done ++ [seg])) :
    FreeRun as (seg.p_vaddr.toNat / 4096) seg.n_pages.toNat := by
  have hp := hsegs.placed seg (by simp)
  have hend := hp.pageEnd_le
  have haligned := hp.aligned
  have habove := hp.above
  unfold Phdr.pageEnd at hend
  rw [hp.n_pages]
  intro i hi
  refine ⟨⟨by omega, ?_⟩, fun reg hreg hcov => ?_⟩
  · show _ < 2 ^ 47
    omega
  · obtain ⟨a, ha, hreg⟩ := h.regions reg hreg
    have hlo := hreg.lo
    have hhi := hreg.hi (hsegs.placed a (List.mem_append_left _ ha))
    have hcov : reg.shape.span.lo ≤ _ ∧ _ < reg.shape.span.hi := hcov
    have happart := (List.pairwise_append.mp hsegs.disjoint).2.2 a ha seg (by simp)
    unfold Phdr.pageEnd at happart hhi
    omega

theorem ImageInv.allocate (kernel : Option (List Elf64Phdr)) (h : ImageInv file k done as m G)
    (hsegs : Loadable (done ++ [seg])) :
    ∃ as' c G', as.allocate_at (x86Mm kernel) seg.p_vaddr seg.n_pages seg.perms vm_cache_wb m
        = some ((seg.p_vaddr, as'), m) ∧ Allocated k seg as m as' c G' := by
  have hp := hsegs.placed seg (by simp)
  have hn : seg.n_pages ≠ 0 := by
    intro h0
    have hpos := hp.pages_pos
    rw [← hp.n_pages, h0] at hpos
    exact absurd hpos (by decide)
  obtain ⟨as', c, hrun, hcoal, hord, hfresh⟩ := allocate_at_returns h.space.tiled h.holes h.order
    seg.p_vaddr seg.n_pages seg.perms vm_cache_wb m hn hp.wellPlaced (h.freeRun hsegs)
  obtain ⟨-, G', he, hspace⟩ := h.space.placeAt h.ground.accounted hp.wellPlaced
    (fun _ _ => MemoryMapping.allocate_shape) (fun _ => allocate_pagesOk) hrun
  exact ⟨as', c, G', hrun, hfresh, hspace, h.ground.effect he, hcoal, hord⟩

variable {as' : AddressSpace} {c : Cursor MemoryMapping}

theorem ImageInv.extend {as1 : AddressSpace} {G1 G' : Ledger Owner}
    {reg' : MemoryMapping} (h : ImageInv file k done as m G) (ha : Allocated k seg as m as1 c G1)
    (hkeep : KeepsData m G1 m') (hshape : reg'.shape = c.elem.shape)
    (hbytes : HoldsBytes file seg m' reg') (has' : as' = as1.withRegion c reg')
    (hspace : SpaceInv (fun _ => False) k as' m' G') (hground : Ground k m' G') :
    ImageInv file k (done ++ [seg]) as' m' G' := by
  have hreg' : RegionOf seg reg' := hshape.trans ha.fresh.shape
  have hmem : ∀ x, x ∈ as'.mapped_regions ↔ x = reg' ∨ x ∈ as.mapped_regions := by
    intro x
    rw [has', AddressSpace.withRegion_regions, (c.set_perm reg').mem_iff, List.mem_cons,
      ha.fresh.others]
  refine ⟨hspace, hground, ?_, ?_, fun reg hreg => ?_, fun a hain => ?_⟩
  · rw [has']
    exact ha.holes
  · unfold RegionsOrdered
    rw [has', AddressSpace.withRegion_regions, Cursor.map_set_toList _ hshape, ha.fresh.regions]
    exact ha.order
  · rcases (hmem reg).mp hreg with rfl | hold
    · exact ⟨seg, by simp, hreg'⟩
    · obtain ⟨a, hain, hof⟩ := h.regions reg hold
      exact ⟨a, List.mem_append_left _ hain, hof⟩
  · rcases List.mem_append.mp hain with hold | hnew
    · obtain ⟨reg, hreg, hof, hold⟩ := h.segments a hold
      refine ⟨reg, (hmem reg).mpr (Or.inr hreg), hof, fun j page hj o ho => ?_⟩
      have hok := ha.space.pages reg (ha.fresh.mem_iff.mpr (Or.inr hreg)) j page hj
      rw [KeepsData.pageByte hkeep ha.ground.accounted hok ho]
      exact hold j page hj o ho
    · rw [List.mem_singleton.mp hnew]
      exact ⟨reg', (hmem reg').mpr (Or.inl rfl), hreg', hbytes⟩

theorem load_sound {address : U64} {data : List (BitVec 8)} {len : Nat}
    (h : SpaceInv (fun _ => False) k as' m G) :
    (SpaceOp.load address data).Sound (fun _ => False) as' len := by
  intro c hfind page hpage he ha
  obtain ⟨hl, -, -⟩ := AddressSpace.region_for_address_some hfind
  obtain ⟨j, hj⟩ := List.getElem?_of_mem hpage
  have hreg : c.elem ∈ as'.mapped_regions := Cursor.elem_mem hl
  exact ((h.pages c.elem hreg j page hj).foreign he ha).2.2.elim

theorem load_segment_eq (hload : seg.p_type = ELF_PHDR_TYPE_LOAD) {r : U64}
    (hrun : as.allocate_at (x86Mm kernel) seg.p_vaddr seg.n_pages seg.perms vm_cache_wb m
      = some ((r, as'), m)) :
    load_segment kernel file seg as m
      = as'.load (x86Mm kernel) seg.p_vaddr (file.bytes seg.p_offset seg.p_filesz) m := by
  unfold load_segment
  rw [if_neg (not_not.mpr hload), Prog.bind_apply hrun]

theorem Allocated.unmanaged
    (h : Allocated k seg as m as' c G) : SpaceInv (Unmanaged m.pmm_bitmap_len) k as' m G :=
  h.space.weaken fun _ hf => hf.elim

theorem ImageInv.found_small {G' : Ledger Owner}
    (h : ImageInv file k done as m G) (hsegs : Loadable (done ++ [seg]))
    (hn : ∀ a ∈ done ++ [seg], a.pages ≤ n) (ha : Allocated k seg as m as' c G') :
    ∃ d, as'.region_for_address seg.p_vaddr = some d ∧ d.elem.size.toNat ≤ n := by
  have hsize : ∀ a ∈ done ++ [seg], ∀ reg, RegionOf a reg → reg.size.toNat ≤ n := by
    intro a hain reg hof
    rw [show reg.size = a.n_pages from congrArg MemoryHole.size hof,
      (hsegs.placed a hain).n_pages]
    exact hn a hain
  by_cases htouch : ∃ x ∈ as.mapped_regions, x.shape.span.hi = seg.p_vaddr.toNat
  · obtain ⟨x, hx, hend⟩ := htouch
    obtain ⟨d, hfind, rfl⟩ := ha.fresh.found_touching ha.space.tiled ha.order hx hend
    obtain ⟨a, hain, hof⟩ := h.regions _ hx
    exact ⟨d, hfind, hsize a (List.mem_append_left _ hain) _ hof⟩
  · exact ⟨c, ha.fresh.found ha.space.tiled ha.order fun x hx hend => htouch ⟨x, hx, hend⟩,
      hsize seg (by simp) _ ha.fresh.shape⟩

theorem ImageInv.step (kernel : Option (List Elf64Phdr)) (h : ImageInv file k done as m G)
    (hload : seg.p_type = ELF_PHDR_TYPE_LOAD) (hsegs : Loadable (done ++ [seg]))
    (hn : ∀ a ∈ done ++ [seg], a.pages ≤ n) (hfree : segFrames n seg + left ≤ freeFrames m)
    (hchain : ∀ a ∈ done, a.pageEnd = seg.p_vaddr.toNat → seg.p_filesz = 0) :
    ∃ as' m' G', load_segment kernel file seg as m = some (as', m')
      ∧ ImageInv file k (done ++ [seg]) as' m' G' ∧ left ≤ freeFrames m' := by
  have hp := hsegs.placed seg (by simp)
  obtain ⟨as1, c, G1, hrun, ha⟩ := h.allocate kernel hsegs
  rw [load_segment_eq hload hrun]
  unfold segFrames at hfree
  by_cases hz : seg.p_filesz = 0
  · -- nothing is copied, whichever region is found
    obtain ⟨d, hfind, hd⟩ := h.found_small hsegs hn ha
    have htables := tablesFor_mono hd
    rw [show file.bytes seg.p_offset seg.p_filesz = [] by rw [hz]; rfl]
    obtain ⟨m', hcopy, hleft, hkeep⟩ : ∃ m', as1.load (x86Mm kernel) seg.p_vaddr [] m
        = some (as1, m') ∧ left ≤ freeFrames m' ∧ KeepsData m G1 m' :=
      ha.unmanaged.load_nothing ha.ground hfind (by omega)
    obtain ⟨-, G', he, hspace⟩ := ha.space.load ha.ground (load_sound ha.space) hcopy
    refine ⟨as1, m', G', hcopy, h.extend ha hkeep rfl (fun j page hj o _ => ?_) ?_ hspace
      (ha.ground.effect he), hleft⟩
    · have hnew := (ha.fresh.pages page (List.mem_of_getElem? hj)).1
      unfold pageByte ElfFile.segByte
      rw [hnew, hz]
      rfl
    · unfold AddressSpace.withRegion
      rw [show (c.set c.elem).toList = as1.mapped_regions from ha.fresh.regions]
  · -- the region found is the new one
    have hbase : c.elem.base = seg.p_vaddr := congrArg MemoryHole.base ha.fresh.shape
    have hsize : c.elem.size.toNat = seg.pages := by
      rw [show c.elem.size = seg.n_pages from congrArg MemoryHole.size ha.fresh.shape]
      exact hp.n_pages
    have htables := tablesFor_mono (hn seg (by simp))
    have hroom := hp.room
    have hfind : as1.region_for_address c.elem.base = some c := by
      rw [hbase]
      refine ha.fresh.found ha.space.tiled ha.order fun x hx hend => hz ?_
      obtain ⟨a, hain, hof⟩ := h.regions x hx
      rw [hof.hi (hsegs.placed a (List.mem_append_left _ hain))] at hend
      exact hchain a hain hend
    obtain ⟨reg', m', hcopy, hleft, hshape, hkeep, hbytes⟩ : ∃ reg' m',
        as1.load (x86Mm kernel) c.elem.base (file.bytes seg.p_offset seg.p_filesz) m
          = some (as1.withRegion c reg', m')
        ∧ left ≤ freeFrames m' ∧ reg'.shape = c.elem.shape ∧ KeepsData m G1 m' ∧ _ := by
      refine ha.unmanaged.load_fresh ha.ground hfind ha.fresh.pages ?_ ?_ <;>
        rw [bytes_length, hsize]
      · unfold Phdr.pages pagesFor
        omega
      · omega
    rw [hbase] at hcopy
    obtain ⟨-, G', he, hspace⟩ := ha.space.load ha.ground (load_sound ha.space) hcopy
    refine ⟨_, m', G', hcopy, h.extend ha hkeep hshape (fun j page hj o ho => ?_) rfl hspace
      (ha.ground.effect he), hleft⟩
    rw [hbytes j page hj o ho, bytes_getD]

theorem ImageInv.stops (kernel : Option (List Elf64Phdr)) (h : ImageInv file k done as m G)
    (hload : seg.p_type = ELF_PHDR_TYPE_LOAD) (hsegs : Loadable (done ++ [seg])) {a : Phdr}
    (ha : a ∈ done) (hend : a.pageEnd = seg.p_vaddr.toNat) (hne : seg.p_filesz ≠ 0) :
    load_segment kernel file seg as m = none := by
  have hp := hsegs.placed seg (by simp)
  have hroom := hp.room
  have hbelow := hp.below
  have htop : vm_user_end.toNat = 2 ^ 47 := rfl
  obtain ⟨as1, c, G1, hrun, hal⟩ := h.allocate kernel hsegs
  obtain ⟨x, hx, hof, -⟩ := h.segments a ha
  have hxend : x.shape.span.hi = seg.p_vaddr.toNat := by
    rw [hof.hi (hsegs.placed a (List.mem_append_left _ ha))]
    exact hend
  obtain ⟨d, hfind, rfl⟩ := hal.fresh.found_touching hal.space.tiled hal.order hx hxend
  rw [load_segment_eq hload hrun]
  refine hal.unmanaged.load_past_end hal.ground hfind hxend.symm (fun hnil => hne ?_) ?_
  · have hlen := congrArg List.length hnil
    rw [bytes_length] at hlen
    exact BitVec.eq_of_toNat_eq hlen
  · rw [bytes_length]
    omega

/-! ## §3. The whole image. -/

theorem Loadable.sublist {segs segs' : List Phdr} (h : Loadable segs) (hs : segs'.Sublist segs) :
    Loadable segs' :=
  ⟨fun seg hseg => h.placed seg (hs.subset hseg), h.disjoint.sublist hs⟩

theorem unchained_append_singleton :
    Unchained (done ++ [seg])
      ↔ Unchained done ∧ ∀ a ∈ done, a.pageEnd = seg.p_vaddr.toNat → seg.p_filesz = 0 := by
  unfold Unchained
  rw [List.pairwise_append]
  simp

theorem ImageInv.load_all (kernel : Option (List Elf64Phdr)) (segs done : List Phdr)
    (as : AddressSpace) (m : Machine) (G : Ledger Owner) (h : ImageInv file k done as m G)
    (hload : (∀ seg ∈ segs, seg.p_type = ELF_PHDR_TYPE_LOAD)) (hsegs : Loadable (done ++ segs))
    (hn : (∀ a ∈ done ++ segs, a.pages ≤ n)) (hfree : (segs.map (segFrames n)).sum ≤ freeFrames m)
    (hok : Unchained done) :
    (Unchained (done ++ segs) → ∃ as' m' G', load_segments kernel file segs as m = some (as', m')
      ∧ ImageInv file k (done ++ segs) as' m' G')
    ∧ (¬ Unchained (done ++ segs) → load_segments kernel file segs as m = none) := by
  induction segs generalizing done as m G with
  | nil =>
    rw [List.append_nil]
    exact ⟨fun _ => ⟨as, m, G, rfl, h⟩, fun hbad => absurd hok hbad⟩
  | cons seg segs ih =>
    rw [List.append_cons] at hsegs hn ⊢
    rw [List.map_cons, List.sum_cons] at hfree
    have hseg := hload seg List.mem_cons_self
    have hsegs1 := hsegs.sublist (List.sublist_append_left (done ++ [seg]) segs)
    unfold load_segments
    by_cases hchain : ∀ a ∈ done, a.pageEnd = seg.p_vaddr.toNat → seg.p_filesz = 0
    · obtain ⟨as1, m1, G1, hrun, h1, hleft⟩ := h.step kernel hseg hsegs1
        (fun a ha => hn a (List.mem_append_left _ ha)) hfree hchain
      rw [Prog.bind_apply hrun]
      exact ih _ as1 m1 G1 h1 (fun a ha => hload a (List.mem_cons_of_mem _ ha)) hsegs hn hleft
        (unchained_append_singleton.mpr ⟨hok, hchain⟩)
    · have hbad : ¬ Unchained (done ++ [seg] ++ segs) := fun hu =>
        hchain (unchained_append_singleton.mp (hu.sublist (List.sublist_append_left _ _))).2
      simp only [not_forall] at hchain
      obtain ⟨a, ha, hend, hne⟩ := hchain
      exact ⟨fun hu => absurd hu hbad,
        fun _ => Prog.bind_none (h.stops kernel hseg hsegs1 ha hend hne)⟩

theorem ImageInv.showsImage (h : ImageInv file k done as m G) (hsegs : Loadable done) :
    ShowsImage file done as m := by
  intro seg hseg i hi
  have hp := hsegs.placed seg hseg
  have haligned := hp.aligned
  obtain ⟨reg, hreg, hof, hbytes⟩ := h.segments seg hseg
  have hbase : reg.base = seg.p_vaddr := congrArg MemoryHole.base hof
  have hlen : reg.backing_pages.length = seg.pages := by
    rw [reg.backing_length, show reg.size = seg.n_pages from congrArg MemoryHole.size hof]
    exact hp.n_pages
  have hj : i / 4096 < reg.backing_pages.length := by
    rw [hlen]
    unfold Phdr.pages pagesFor
    omega
  have hget := List.getElem?_eq_getElem hj
  have hat := (pageAt_eq_some h.space.tiled).mpr ⟨reg, hreg, i / 4096, hget, rfl⟩
  have hpage : (seg.p_vaddr.toNat + i) / 4096 = pageOf reg.base + i / 4096 := by
    rw [hbase]
    unfold pageOf
    omega
  unfold byteSeen
  rw [hpage, hat, Option.map_some, hbytes _ _ hget _ (Nat.mod_lt _ (by omega)),
    show 4096 * (i / 4096) + (seg.p_vaddr.toNat + i) % 4096 = i by omega]

theorem new_freeFrames (hg : Ground k m G) (hctx : as.vmm_ctx ≠ 0)
    (hnew : AddressSpace.new (x86Mm kernel) m = some (as, m')) :
    freeFrames m' + 1 = freeFrames m := by
  simp only [AddressSpace.new, x86Mm, arch_mm_create_context, Prog.bind_eq_some,
    Prog.pure_eq_some] at hnew
  obtain ⟨p, _, hrun, rfl, rfl⟩ := hnew
  have hA := hg.accounted
  have hkpos := (hA.managed k _ hA.kernel).low
  rcases vmm_new_address_space_cases hA.bitmap_len_le hg.kernel (by omega) hrun with
    ⟨hnull, -⟩ | ⟨c, -, rfl, hlow, hlt, hwin, hbit⟩
  · exact absurd hnull hctx
  have hnb : ¬ m.BitmapFrame c := hA.not_bitmapFrame hlt hbit
  have hframe : ¬ (m.take c).BitmapFrame c := by
    unfold Machine.BitmapFrame
    rw [m.take_pmm_bitmap_len]
    exact hnb
  refine freeFrames_take (mem_freeSet.mpr ⟨hlow, hlt, hwin, hbit⟩) (m.take_pmm_bitmap_len c) ?_
  intro f hf
  rw [(m.take c).freshRoot_bit (by rw [m.take_pmm_bitmap_len]; exact hf) hframe,
    m.take_bit hf hnb]

theorem ImageInv.new (hg : Ground k m G) (hfree : 0 < freeFrames m)
    (hnew : AddressSpace.new (x86Mm kernel) m = some (as, m')) :
    ∃ G', ImageInv file k [] as m' G' ∧ freeFrames m' + 1 = freeFrames m := by
  obtain ⟨f, hf⟩ := Finset.card_pos.mp hfree
  obtain ⟨hlow, hlt, -, hbit⟩ := mem_freeSet.mp hf
  have hctx := new_vmm_ctx_ne_zero hg.accounted hg.kernel ⟨f, hlow, hlt, hbit⟩ hnew
  obtain ⟨G', he, hspace, -⟩ : ∃ G', SpaceEffect (root as) k m G m' G'
      ∧ SpaceInv (fun _ => False) k as m' G' ∧ _ :=
    SpaceInv.new hg.accounted hg.kernel hctx hnew
  have hcoal := coalesced_new hnew
  have hframes := new_freeFrames hg hctx hnew
  have hempty : as.mapped_regions = [] := by
    simp only [AddressSpace.new, Prog.bind_eq_some, Prog.pure_eq_some] at hnew
    obtain ⟨_, _, -, rfl, -⟩ := hnew
    rfl
  refine ⟨G', ⟨hspace, hg.effect he, hcoal, ?_, ?_, ?_⟩, hframes⟩
  · unfold RegionsOrdered
    rw [hempty]
    exact ⟨fun _ hmem => (List.not_mem_nil hmem).elim, List.Pairwise.nil⟩
  · rw [hempty]
    exact fun _ hmem => (List.not_mem_nil hmem).elim
  · exact fun _ hmem => (List.not_mem_nil hmem).elim

end Loop

/-- **Loading an ELF file.**  In a fresh address space, with frames enough, the loader
returns and the space shows the image exactly if no segment with bytes in the file
begins where the pages of an earlier one end. -/
theorem elf64_load_image (kernel : Option (List Elf64Phdr)) (m0 : Machine) (hboot : Booted m0)
    (ops : List SysOp)
    (hops : Along (sysStep kernel) (fun s op => op.Sound (fun _ => True) s) (System.init m0) ops)
    (s : System) (hrun : run (sysStep kernel) (System.init m0) ops = some s) (as : AddressSpace)
    (m : Machine) (hnew : AddressSpace.new (x86Mm kernel) s.machine = some (as, m))
    (file : ElfFile) (hcheck : elf64_check file.ehdr = true) (hsegs : Loadable file.segments)
    (hfree : imageFrames file.segments < freeFrames s.machine) (ip : U64) :
    (∃ t m', elf64_load kernel file ⟨as, ip⟩ m = some ((true, t), m')
        ∧ ShowsImage file file.segments t.addr_space m')
      ↔ Unchained file.segments := by
  obtain ⟨k, G0, hsys⟩ := SysInv.run hboot hops hrun
  obtain ⟨G, h, hframes⟩ : ∃ G, ImageInv file k [] as m G ∧ _ :=
    ImageInv.new hsys.heap.ground (by omega) hnew
  have hload : ∀ seg ∈ file.segments, seg.p_type = ELF_PHDR_TYPE_LOAD := by
    intro seg hseg
    simpa using (List.mem_filter.mp hseg).2
  have hn : ∀ a ∈ [] ++ file.segments, a.pages ≤ (file.segments.map Phdr.pages).sum :=
    fun a ha => List.le_sum_of_mem (List.mem_map_of_mem ha)
  have hbudget : (file.segments.map (segFrames (file.segments.map Phdr.pages).sum)).sum
      ≤ freeFrames m := by
    unfold imageFrames at hfree
    omega
  rw [elf64_load_accepted kernel ⟨as, ip⟩ hcheck]
  obtain ⟨hloads, hfaults⟩ := h.load_all kernel file.segments [] as m G hload hsegs hn hbudget
    List.Pairwise.nil
  constructor
  · rintro ⟨t, m', hret, -⟩
    by_contra hbad
    rw [Prog.bind_none (hfaults hbad)] at hret
    cases hret
  · intro hchain
    obtain ⟨as', m', G', hret, h'⟩ := hloads hchain
    refine ⟨⟨as', file.ehdr.e_entry⟩, m', ?_, h'.showsImage hsegs⟩
    rw [Prog.bind_apply hret]
    rfl

/-! ## §4. Two files. -/

/-- A file with zeroes behind it. -/
def fileOf (bytes : List (BitVec 8)) : ElfFile := fun off => bytes.getD off.toNat 0

def ehdrBytes (phnum : BitVec 8) : List (BitVec 8) :=
  [0x7F, 0x45, 0x4C, 0x46, 2, 1, 1, 0, 0, 0, 0, 0, 0, 0, 0, 0]
    ++ [2, 0, 0x3E, 0, 1, 0, 0, 0] ++ [0, 0, 0x40, 0, 0, 0, 0, 0] ++ [64, 0, 0, 0, 0, 0, 0, 0]
    ++ [0, 0, 0, 0, 0, 0, 0, 0, 0, 0, 0, 0] ++ [64, 0, 56, 0, phnum, 0, 0, 0, 0, 0, 0, 0]

def phdrBytes (offset page filesz memsz : BitVec 8) : List (BitVec 8) :=
  [1, 0, 0, 0, 5, 0, 0, 0] ++ [offset, 0, 0, 0, 0, 0, 0, 0] ++ [0, page, 0x40, 0, 0, 0, 0, 0]
    ++ [0, 0, 0, 0, 0, 0, 0, 0] ++ [filesz, 0, 0, 0, 0, 0, 0, 0] ++ [0, memsz, 0, 0, 0, 0, 0, 0]
    ++ [0, 0x10, 0, 0, 0, 0, 0, 0]

theorem bootMachine_freeFrames : 23 ≤ freeFrames bootMachine := by
  refine Finset.card_le_card (s := Finset.Ico 0x2009 0x2020) fun f hf => ?_
  obtain ⟨hlo, hhi⟩ := Finset.mem_Ico.mp hf
  refine mem_freeSet.mpr ⟨by omega, hhi, by omega, ?_⟩
  rw [bootMachine_bit hhi]
  simpa using hlo

/-- Two bytes, and a tail of zeroes that reaches into a second page. -/
def smallFile : ElfFile := fileOf (ehdrBytes 1 ++ phdrBytes 120 0 2 0x18 ++ [0xF3, 0x90])

/-- A file that is loaded. -/
theorem elf64_load_image_small :
    ∃ as m t m', AddressSpace.new (x86Mm none) bootMachine = some (as, m)
      ∧ elf64_load none smallFile ⟨as, 0⟩ m = some ((true, t), m')
      ∧ ShowsImage smallFile smallFile.segments t.addr_space m' := by
  have hruns : (AddressSpace.new (x86Mm none) bootMachine).isSome = true := by decide +kernel
  obtain ⟨⟨as, m⟩, hnew⟩ := Option.isSome_iff_exists.mp hruns
  have hframes : imageFrames smallFile.segments < 23 := by decide +kernel
  have hfree := Nat.lt_of_lt_of_le hframes bootMachine_freeFrames
  obtain ⟨t, m', hload, himage⟩ := (elf64_load_image none bootMachine bootMachine_booted [] trivial
    (System.init bootMachine) rfl as m hnew smallFile (by decide +kernel) (by decide +kernel) hfree
    0).mpr (by decide +kernel)
  exact ⟨as, m, t, m', hnew, hload, himage⟩

/-- Two pages, with a byte each, in the order of the headers given. -/
def twoPages (first second : BitVec 8) : ElfFile :=
  fileOf (ehdrBytes 2 ++ phdrBytes 176 first 1 0x10 ++ phdrBytes 177 second 1 0x10
    ++ [0xF3, 0x90])

/-- **Two segments on neighbouring pages** cannot be loaded in the order of their addresses.
Frames are not the problem: in the other order they can. -/
theorem elf64_load_touching :
    ∃ as m, AddressSpace.new (x86Mm none) bootMachine = some (as, m)
      ∧ elf64_check (twoPages 0 0x10).ehdr = true ∧ Loadable (twoPages 0 0x10).segments
      ∧ elf64_load none (twoPages 0 0x10) ⟨as, 0⟩ m = none
      ∧ ∃ t m', elf64_load none (twoPages 0x10 0) ⟨as, 0⟩ m = some ((true, t), m') := by
  have hruns : (AddressSpace.new (x86Mm none) bootMachine).map (fun p =>
      ((elf64_load none (twoPages 0 0x10) ⟨p.1, 0⟩ p.2).isSome,
        (elf64_load none (twoPages 0x10 0) ⟨p.1, 0⟩ p.2).map fun q => q.1.1))
      = some (false, some true) := by
    decide +kernel
  obtain ⟨⟨as, m⟩, hnew, hloads⟩ := Option.map_eq_some_iff.mp hruns
  simp only [Prod.mk.injEq] at hloads
  obtain ⟨⟨⟨b, t⟩, m'⟩, hload, hb⟩ := Option.map_eq_some_iff.mp hloads.2
  refine ⟨as, m, hnew, by decide +kernel, by decide +kernel,
    Option.isSome_eq_false_iff.mp hloads.1 |> Option.isNone_iff_eq_none.mp, t, m', ?_⟩
  rw [hload, show b = true from hb]

end Quack.Loader
