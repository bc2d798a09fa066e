/-
  Quack.Sys.CopyBounds
  **WHERE `load` AND `store` REACH.**

  `ensure_load_store` counts the pages to touch from the size alone, and returns
  `false` also when the range leaves the region; the copy is made either way, over
  all pages of the region, and a page without a frame is in the window as frame 0.

  `copyStart` is the state in which the copy of a call begins.  What is said
  here is about that state; `Quack.Sys.CopyDemand` says it about the state before
  the call.
-/
import Quack.Sys.System

namespace Quack.Sys

open Lib Mm Arch

/-! ## §1. The copy of a call. -/

def copyStart (ehdr : Option (List Elf64Phdr)) (as : AddressSpace) (address size : U64)
    (m : Machine) : Option (MemoryMapping × U64 × Machine) := do
  let c ← as.region_for_address address
  let ((_, reg), m) ← c.elem.ensure_load_store (x86Mm ehdr) (address - c.elem.base) size m
  let (_, m) ← windowMap copy_base reg.backing_pages m
  pure (reg, copy_base + (address - c.elem.base), m)

/-- The physical bytes that `load` writes, until it ends or faults. -/
def loadTrace (ehdr : Option (List Elf64Phdr)) (as : AddressSpace) (address : U64)
    (data : List (BitVec 8)) (m : Machine) : List Nat :=
  match copyStart ehdr as address (BitVec.ofNat 64 data.length) m with
  | none => []
  | some (_, dst, m) => copyInTrace dst data m

/-- The physical bytes that `store` reads, until it ends or faults. -/
def storeTrace (ehdr : Option (List Elf64Phdr)) (as : AddressSpace) (address size : U64)
    (m : Machine) : List Nat :=
  match copyStart ehdr as address size m with
  | none => []
  | some (_, src, m) => copyOutTrace src size.toNat m

/-- The range is inside the region. -/
def Inside (reg : MemoryMapping) (address : U64) (n : Nat) : Prop :=
  reg.base.toNat ≤ address.toNat ∧ address.toNat + n ≤ reg.base.toNat + 4096 * reg.size.toNat

instance (reg : MemoryMapping) (address : U64) (n : Nat) : Decidable (Inside reg address n) :=
  inferInstanceAs (Decidable (_ ∧ _))

/-- Every page of the range has a frame. -/
def Backed (reg : MemoryMapping) (address : U64) (n : Nat) : Prop :=
  ∀ (i : Nat) (page : BackingPage), reg.backing_pages[i]? = some page →
    reg.base.toNat + 4096 * i < address.toNat + n →
    address.toNat < reg.base.toNat + 4096 * i + 4096 → page.exists_ = true

/-- **The copy is confined**: it touches bytes of frames that back pages of the
region only, none of page 0, and none at all if the range is not inside. -/
structure ConfinedCopy (reg : MemoryMapping) (address : U64) (n : Nat) (trace : List Nat) :
    Prop where
  bytes : ∀ p ∈ trace, ∃ page ∈ reg.backing_pages,
    page.exists_ = true ∧ p / 4096 = frameOf page.ptr
  page_zero : ∀ p ∈ trace, 4096 ≤ p
  inside : ¬ Inside reg address n → trace = []

/-! ## §2. The window at the start of the copy. -/

section Start

variable {Q : Nat → Prop} {k : Nat} {ehdr : Option (List Elf64Phdr)} {as : AddressSpace}
  {m m2 : Machine} {G : Ledger Owner} {address size virt : U64} {reg : MemoryMapping}

/-- What is known when the copy begins. -/
structure Started (Q : Nat → Prop) (k : Nat) (as : AddressSpace) (address : U64)
    (reg : MemoryMapping) (virt : U64) (m : Machine) (G : Ledger Owner) : Prop where
  shown : Shown k m G reg.backing_pages
  ok : PagesOk Q G (root as) (pageOf reg.base) reg.backing_pages
  low : reg.base.toNat ≤ address.toNat
  high : address.toNat ≤ reg.base.toNat + 4096 * reg.size.toNat
  start : virt.toNat = copy_base.toNat + (address.toNat - reg.base.toNat)

theorem copyStart_eq_some (h : copyStart ehdr as address size m = some (reg, virt, m2)) :
    ∃ c b m1 u, as.region_for_address address = some c
      ∧ c.elem.ensure_load_store (x86Mm ehdr) (address - c.elem.base) size m = some ((b, reg), m1)
      ∧ windowMap copy_base reg.backing_pages m1 = some (u, m2)
      ∧ virt = copy_base + (address - c.elem.base) := by
  unfold copyStart at h
  simp only [Option.bind_eq_bind, Option.bind_eq_some_iff, Option.pure_def, Option.some.injEq,
    Prod.mk.injEq, Prod.exists] at h
  obtain ⟨c, hc, b, reg', m1, hensure, u, m2', hmap, rfl, rfl, rfl⟩ := h
  exact ⟨c, b, m1, u, hc, hensure, hmap, rfl⟩

theorem SpaceInv.of_copyStart (h : SpaceInv Q k as m G) (hg : Ground k m G)
    (hstart : copyStart ehdr as address size m = some (reg, virt, m2)) :
    ∃ c b m1 G1 G2, as.region_for_address address = some c
      ∧ Fills Q (root as) k b m G c.elem m1 G1 reg ∧ Ground k m1 G1
      ∧ Touches k m1 G1 m2 G2 ∧ Started Q k as address reg virt m2 G2 := by
  obtain ⟨c, b, m1, u, hfind, hensure, hmap, rfl⟩ := copyStart_eq_some hstart
  obtain ⟨hl, hlo, hhi⟩ := AddressSpace.region_for_address_some hfind
  obtain ⟨G1, hf⟩ := ensure_load_store_fills hg.accounted (h.pages_of hl) hensure
  have hg1 := hg.effect hf.effect
  have hfits : Fits c.elem.shape := h.tiled.fits_regions _ (Cursor.elem_mem hl)
  have hend : (c.elem.base + c.elem.size * vm_page_size).toNat
      = c.elem.base.toNat + 4096 * c.elem.size.toNat := hfits.toNat_end
  have hbase : reg.base = c.elem.base := congrArg MemoryHole.base hf.grown.shape
  have hsize : reg.size = c.elem.size := congrArg MemoryHole.size hf.grown.shape
  obtain ⟨G2, hshown, ht⟩ := windowMap_shown hg1.accounted hg1.kernel hg1.window hmap
  refine ⟨c, b, m1, G1, G2, hfind, hf, hg1, ht, hshown, hf.ok.mono fun f i _ hd => ht.ext f _ hd,
    ?_, ?_, ?_⟩
  · rw [hbase]
    exact BitVec.le_def.mp hlo
  · rw [hbase, hsize, ← hend]
    exact BitVec.le_def.mp hhi
  · have hfit := hshown.fits
    have hlen := reg.backing_length
    have hpage : pageOf copy_base = 0x700000000 := rfl
    have hcopy : copy_base.toNat = 4096 * 0x700000000 := rfl
    rw [BitVec.le_def] at hlo hhi
    rw [hsize] at hlen
    rw [BitVec.toNat_add, BitVec.toNat_sub_of_le (BitVec.le_def.mpr hlo), hbase,
      Nat.mod_eq_of_lt (by omega)]

theorem Started.frame_ne_zero (h : Started Q k as address reg virt m G) {page : BackingPage}
    (hmem : page ∈ reg.backing_pages) (ha : page.allocated = true) (he : page.exists_ = true) :
    1 ≤ frameOf page.ptr := by
  obtain ⟨i, hi⟩ := List.getElem?_of_mem hmem
  have hok := h.ok i page hi
  obtain ⟨f, hptr, hf⟩ := hok.backed he ha
  have hlow := (h.shown.accounted.managed f _ hf).low
  have hframe := hok.frameOf_ptr_eq h.shown.accounted he
  omega

theorem Started.confined_iff (h : Started Q k as address reg virt m G)
    (hall : ∀ page ∈ reg.backing_pages, page.allocated = true) (n : Nat) :
    ConfinedCopy reg address n (windowBytes reg.backing_pages (address.toNat - reg.base.toNat) n)
      ↔ n = 0 ∨ address.toNat = reg.base.toNat + 4096 * reg.size.toNat
        ∨ (Inside reg address n ∧ Backed reg address n) := by
  have hlen := reg.backing_length
  have hlow := h.low
  have hhigh := h.high
  constructor
  · intro hc
    by_cases hzero : n = 0
    · exact Or.inl hzero
    by_cases hend : address.toNat = reg.base.toNat + 4096 * reg.size.toNat
    · exact Or.inr (Or.inl hend)
    -- the first byte is copied
    have hinside : Inside reg address n := by
      by_contra hno
      have hfirst : windowAddr reg.backing_pages (address.toNat - reg.base.toNat)
          ∈ windowBytes reg.backing_pages (address.toNat - reg.base.toNat) n :=
        mem_windowBytes.mpr ⟨_, Nat.le_refl _, by omega, by omega, rfl⟩
      rw [hc.inside hno] at hfirst
      exact absurd hfirst List.not_mem_nil
    refine Or.inr (Or.inr ⟨hinside, ?_⟩)
    intro i page hi hstart hstop
    by_contra he
    rw [Bool.not_eq_true] at he
    -- a byte of the page is copied, and it is one of page 0
    obtain ⟨o, ho⟩ : ∃ o, o = max (address.toNat - reg.base.toNat) (4096 * i) := ⟨_, rfl⟩
    have hilt : i < reg.backing_pages.length := (List.getElem?_eq_some_iff.mp hi).1
    have hdiv : o / 4096 = i := by omega
    have hbyte := hc.page_zero (windowAddr reg.backing_pages o)
      (mem_windowBytes.mpr ⟨o, by omega, by omega, by omega, rfl⟩)
    have hframe : frameOf page.ptr = 0 := by
      rw [(h.ok i page hi).empty he]
      rfl
    rw [windowAddr_of_page (by rw [hdiv]; exact hi), hframe] at hbyte
    omega
  · intro hfits
    rcases hfits with rfl | hend | ⟨hinside, hbacked⟩
    · rw [windowBytes_zero]
      exact ⟨by simp, by simp, fun _ => rfl⟩
    · rw [windowBytes_end (by omega)]
      exact ⟨by simp, by simp, fun _ => rfl⟩
    · have hpage : ∀ p ∈ windowBytes reg.backing_pages (address.toNat - reg.base.toNat) n,
          ∃ page ∈ reg.backing_pages, page.exists_ = true ∧ p / 4096 = frameOf page.ptr := by
        intro p hp
        obtain ⟨o, ho1, ho2, ho3, rfl⟩ := mem_windowBytes.mp hp
        have hi : o / 4096 < reg.backing_pages.length := by omega
        have hget := List.getElem?_eq_getElem hi
        have he := hbacked _ _ hget (by omega) (by omega)
        refine ⟨_, List.getElem_mem hi, he, ?_⟩
        rw [windowAddr_of_page hget]
        omega
      refine ⟨hpage, ?_, fun hno => absurd hinside hno⟩
      intro p hp
      obtain ⟨page, hmem, he, hframe⟩ := hpage p hp
      have := h.frame_ne_zero hmem (hall page hmem) he
      omega

end Start

/-! ## §3. The traces of the calls. -/

/-- The copy of a call is confined to the region it is made in. -/
def CallConfined (ehdr : Option (List Elf64Phdr)) (as : AddressSpace) (address size : U64)
    (m : Machine) (n : Nat) (trace : List Nat) : Prop :=
  ∀ reg virt m', copyStart ehdr as address size m = some (reg, virt, m') →
    ConfinedCopy reg address n trace

def LoadConfined (ehdr : Option (List Elf64Phdr)) (as : AddressSpace) (address : U64)
    (data : List (BitVec 8)) (m : Machine) : Prop :=
  CallConfined ehdr as address (BitVec.ofNat 64 data.length) m data.length
    (loadTrace ehdr as address data m)

def StoreConfined (ehdr : Option (List Elf64Phdr)) (as : AddressSpace) (address size : U64)
    (m : Machine) : Prop :=
  CallConfined ehdr as address size m size.toNat (storeTrace ehdr as address size m)

section Calls

variable {Q : Nat → Prop} {k : Nat} {ehdr : Option (List Elf64Phdr)} {as : AddressSpace}
  {m m' : Machine} {G : Ledger Owner} {address virt : U64} {c : Cursor MemoryMapping}
  {reg : MemoryMapping}

theorem Fills.allocated {r : Nat} {b : Bool} {G' : Ledger Owner} {reg' : MemoryMapping}
    (hf : Fills Q r k b m G reg m' G' reg')
    (hall : ∀ page ∈ reg.backing_pages, page.allocated = true) :
    ∀ page ∈ reg'.backing_pages, page.allocated = true := by
  intro page hmem
  by_contra ha
  rw [Bool.not_eq_true] at ha
  obtain ⟨i, hi⟩ := List.getElem?_of_mem hmem
  have hold := hall page (List.mem_of_getElem? (hf.grown.foreign i page hi ha))
  rw [ha] at hold
  exact Bool.false_ne_true hold

theorem SpaceInv.loadTrace_eq {data : List (BitVec 8)} (h : SpaceInv Q k as m G)
    (hg : Ground k m G) (hfind : as.region_for_address address = some c)
    (hall : ∀ page ∈ c.elem.backing_pages, page.allocated = true)
    (hstart : copyStart ehdr as address (BitVec.ofNat 64 data.length) m = some (reg, virt, m')) :
    loadTrace ehdr as address data m
      = windowBytes reg.backing_pages (address.toNat - reg.base.toNat) data.length := by
  obtain ⟨c', b, m1, G1, G2, hfind', hf, hg1, -, hs⟩ := h.of_copyStart hg hstart
  obtain rfl : c = c' := Option.some.inj (hfind.symm.trans hfind')
  have hplain : ∀ f, framesOf reg.backing_pages f → Plain m' G2 f := by
    rintro f ⟨page, hmem, rfl⟩
    obtain ⟨i, hi⟩ := List.getElem?_of_mem hmem
    refine ((hs.ok i page hi).plain hs.shown.accounted fun _ ha => ?_).1
    rw [hf.allocated hall page hmem] at ha
    exact absurd ha nofun
  have hlen := reg.backing_length
  have hhigh := hs.high
  unfold loadTrace
  rw [hstart]
  exact copyInTrace_eq data m' _ virt hs.shown hplain hs.start (by omega)

theorem SpaceInv.storeTrace_eq {size : U64} (h : SpaceInv Q k as m G) (hg : Ground k m G)
    (hstart : copyStart ehdr as address size m = some (reg, virt, m')) :
    storeTrace ehdr as address size m
      = windowBytes reg.backing_pages (address.toNat - reg.base.toNat) size.toNat := by
  obtain ⟨c', b, m1, G1, G2, -, -, -, -, hs⟩ := h.of_copyStart hg hstart
  have hlen := reg.backing_length
  have hhigh := hs.high
  unfold storeTrace
  rw [hstart]
  exact copyOutTrace_eq hs.shown _ _ virt hs.start (by omega)

end Calls

end Quack.Sys
