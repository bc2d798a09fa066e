/-
  Quack.Sys.CopyDemand
  **WHAT A COPY NEEDS OF THE STATE BEFORE IT.**

  `ensure_load_store` touches `(size + 4095) / 4096` pages from the page of the
  address on, in order, and goes on when there is no frame for one of them.

    • `touchRange_backs` — which pages have a frame after that, from the pages and
      the number of free frames before.
    • `copy_confined` — the copy stays in the frames of the region if the range is
      inside it and each of its pages has a frame or gets one; and only then, unless
      nothing is copied.
    • `copy_hits_page_zero` — two bytes across a page boundary are loaded, and the
      second one is written to physical page 0.
-/
import Quack.Arch.OutOfMemory
import Quack.Sys.FaultProgress

namespace Quack.Sys

open Lib Mm Arch

/-! ## §1. The pages that get a frame. -/

/-- The pages without a frame among the `n` from page `lo` on. -/
def unbacked (pages : List BackingPage) (lo n : Nat) : Nat :=
  ((pages.drop lo).take n).countP fun page => !page.exists_

theorem unbacked_zero (pages : List BackingPage) (lo : Nat) : unbacked pages lo 0 = 0 := rfl

theorem unbacked_succ {pages : List BackingPage} {lo : Nat} {page : BackingPage}
    (h : pages[lo]? = some page) (n : Nat) :
    unbacked pages lo (n + 1) = unbacked pages (lo + 1) n + if page.exists_ then 0 else 1 := by
  obtain ⟨hlt, rfl⟩ := List.getElem?_eq_some_iff.mp h
  unfold unbacked
  rw [List.drop_eq_getElem_cons hlt, List.take_succ_cons, List.countP_cons]
  cases pages[lo].exists_ with
  | true => rfl
  | false => rfl

theorem unbacked_set {pages : List BackingPage} {i lo : Nat} (h : i < lo) (page : BackingPage)
    (n : Nat) : unbacked (pages.set i page) lo n = unbacked pages lo n := by
  unfold unbacked
  rw [List.drop_set_of_lt h]

def Stocks (pages : List BackingPage) (m : Machine) (start n j : Nat) : Prop :=
  start ≤ j ∧ j < start + n ∧ unbacked pages start (j - start) < freeFrames m

section Touch

variable {Q : Nat → Prop} {k r : Nat} {ehdr : Option (List Elf64Phdr)} {G : Ledger Owner}

section

variable {m : Machine} {reg : MemoryMapping} {idx : U64} {page : BackingPage}
  (hpage : reg.backing_pages[idx.toNat]? = some page)

include hpage

variable (he : page.exists_ = false)

include he

end

theorem touchRange_backs (n : Nat) (start : U64) (touched b : Bool) (reg reg' : MemoryMapping)
    (m m' : Machine) (G : Ledger Owner) (hA : Accounted k m G)
    (hok : PagesOk Q G r (pageOf reg.base) reg.backing_pages) (hlt : start.toNat + n < 2 ^ 64)
    (h : reg.touchRange (x86Mm ehdr) n start touched m = some ((b, reg'), m')) (j : Nat)
    (page' : BackingPage) (hj : reg'.backing_pages[j]? = some page') :
    ∃ page, reg.backing_pages[j]? = some page
      ∧ (page'.exists_ = true
        ↔ page.exists_ = true ∨ Stocks reg.backing_pages m start.toNat n j) := by
  unfold Stocks
  induction n generalizing start touched reg m G with
  | zero =>
    simp only [MemoryMapping.touchRange, Prog.pure_eq_some, Prod.mk.injEq] at h
    obtain ⟨⟨-, rfl⟩, -⟩ := h
    refine ⟨page', hj, Or.inl, fun hor => hor.resolve_right fun hno => ?_⟩
    omega
  | succ n ih =>
    simp only [MemoryMapping.touchRange, Prog.bind_eq_some] at h
    obtain ⟨⟨b1, reg1⟩, m1, htouch, hrest⟩ := h
    obtain ⟨G1, hf⟩ := touch_fills hA hok htouch
    have hnext : (start + 1).toNat = start.toNat + 1 := by
      rw [BitVec.toNat_add, show (1 : U64).toNat = 1 from rfl]
      omega
    obtain ⟨page1, hpage1, hiff⟩ := ih _ _ reg1 m1 G1 hf.effect.accounted hf.ok
      (by omega) hrest
    rw [hnext] at hiff
    -- the count up to `j` starts with the page touched first
    have hcount : ∀ first, reg.backing_pages[start.toNat]? = some first → start.toNat < j →
        unbacked reg.backing_pages start.toNat (j - start.toNat)
          = unbacked reg.backing_pages (start.toNat + 1) (j - (start.toNat + 1))
            + if first.exists_ then 0 else 1 := by
      intro first hfirst hlt
      rw [← unbacked_succ hfirst, show j - (start.toNat + 1) + 1 = j - start.toNat by omega]
    obtain ⟨first, hfirst, ⟨hkept, -, rfl, rfl⟩ | ⟨he, -, hfree, ⟨ptr, rfl⟩, -⟩⟩ :=
      touch_cases hA htouch
    · refine ⟨page1, hpage1, hiff.trans ?_⟩
      rcases hkept with he | ⟨-, hnull⟩
      · by_cases hj0 : j = start.toNat
        · subst hj0
          obtain rfl : page1 = first := Option.some.inj (hpage1.symm.trans hfirst)
          exact iff_of_true (Or.inl he) (Or.inl he)
        · have := hcount first hfirst
          rw [if_pos he] at this
          refine or_congr_right ⟨fun hs => ⟨by omega, by omega, ?_⟩, fun hs => ⟨by omega, by omega, ?_⟩⟩
          · rw [this (by omega)]
            exact hs.2.2
          · have hlast := hs.2.2
            rwa [this (by omega)] at hlast
      · have hnone : freeFrames m1 = 0 := by
          by_contra hne
          exact pmm_alloc_ne_null hA (Nat.pos_of_ne_zero hne) hnull
        rw [hnone]
        exact or_congr_right (iff_of_false (by omega) (by omega))
    · by_cases hj0 : j = start.toNat
      · subst hj0
        have hself : (reg.setPage start.toNat ⟨ptr, true, true⟩).backing_pages[start.toNat]?
            = some ⟨ptr, true, true⟩ :=
          List.getElem?_set_self (List.getElem?_eq_some_iff.mp hfirst).1
        rw [hself] at hpage1
        refine ⟨first, hfirst, iff_of_true (hiff.mpr (Or.inl ?_)) (Or.inr ⟨by omega, by omega, ?_⟩)⟩
        · rw [← Option.some.inj hpage1]
        · rw [Nat.sub_self, unbacked_zero]
          omega
      · have hother : (reg.setPage start.toNat ⟨ptr, true, true⟩).backing_pages[j]?
            = reg.backing_pages[j]? := List.getElem?_set_ne (Ne.symm hj0)
        rw [hother] at hpage1
        have hsame : unbacked (reg.setPage start.toNat ⟨ptr, true, true⟩).backing_pages
            (start.toNat + 1) (j - (start.toNat + 1))
            = unbacked reg.backing_pages (start.toNat + 1) (j - (start.toNat + 1)) :=
          unbacked_set (Nat.lt_succ_self _) _ _
        have := hcount first hfirst
        rw [if_neg (by simp [he])] at this
        refine ⟨page1, hpage1, hiff.trans (or_congr_right ?_)⟩
        rw [hsame]
        omega

end Touch

/-! ## §2. Copies that fit. -/

/-- Every page of the range has a frame or gets one. -/
def Fillable (reg : MemoryMapping) (m : Machine) (address : U64) (n : Nat) : Prop :=
  ∀ (i : Nat) (page : BackingPage), reg.backing_pages[i]? = some page →
    reg.base.toNat + 4096 * i < address.toNat + n →
    address.toNat < reg.base.toNat + 4096 * i + 4096 → page.exists_ = true
      ∨ Stocks reg.backing_pages m ((address.toNat - reg.base.toNat) / 4096) (pagesFor n) i

def CopyFits (reg : MemoryMapping) (m : Machine) (address : U64) (n : Nat) : Prop :=
  n = 0 ∨ address.toNat = reg.base.toNat + 4096 * reg.size.toNat
    ∨ (Inside reg address n ∧ Fillable reg m address n)

section Copies

variable {Q : Nat → Prop} {k : Nat} {ehdr : Option (List Elf64Phdr)} {as : AddressSpace}
  {m : Machine} {G : Ledger Owner} {address size : U64} {c : Cursor MemoryMapping}

section

variable (h : SpaceInv Q k as m G) (hg : Ground k m G)
  (hfind : as.region_for_address address = some c)

include h hg hfind

section

variable {n : Nat} {reg : MemoryMapping} {m1 : Machine} {b : Bool}
  (hinside : Inside c.elem address n)
  (hensure : c.elem.ensure_load_store (x86Mm ehdr) (address - c.elem.base) (BitVec.ofNat 64 n) m
    = some ((b, reg), m1))

include hinside hensure

theorem SpaceInv.ensured {j : Nat} {page' : BackingPage}
    (hj : reg.backing_pages[j]? = some page') :
    ∃ page, c.elem.backing_pages[j]? = some page ∧ (page'.exists_ = true ↔ page.exists_ = true
      ∨ Stocks c.elem.backing_pages m ((address.toNat - c.elem.base.toNat) / 4096) (pagesFor n) j) := by
  obtain ⟨hl, hlo, hhi⟩ := AddressSpace.region_for_address_some hfind
  have hfits := h.tiled.fits_regions _ (Cursor.elem_mem hl)
  have hle : c.elem.base.toNat + 4096 * c.elem.size.toNat ≤ 2 ^ 47 := hfits.le_end
  have hoff : (address - c.elem.base).toNat = address.toNat - c.elem.base.toNat :=
    BitVec.toNat_sub_of_le hlo
  have hstart : ((address - c.elem.base) / vm_page_size).toNat
      = (address.toNat - c.elem.base.toNat) / 4096 := toNat_index hlo
  have hlow := hinside.1
  have hhigh := hinside.2
  rw [ensure_load_store_eq (by omega) (by omega), if_neg (by unfold pagesFor; omega)] at hensure
  have hbacks := touchRange_backs _ _ _ _ _ _ _ _ _ hg.accounted (h.pages_of hl)
    (by unfold pagesFor; omega) hensure j page' hj
  rw [hstart] at hbacks
  exact hbacks

theorem SpaceInv.backed_iff : Backed reg address n ↔ Fillable c.elem m address n := by
  have hl := (AddressSpace.region_for_address_some hfind).1
  obtain ⟨G1, hf⟩ := ensure_load_store_fills hg.accounted (h.pages_of hl) hensure
  have hbase : reg.base = c.elem.base := congrArg MemoryHole.base hf.grown.shape
  have hlen : reg.backing_pages.length = c.elem.backing_pages.length := by
    rw [reg.backing_length, c.elem.backing_length, show reg.size = c.elem.size from
      congrArg MemoryHole.size hf.grown.shape]
  unfold Backed Fillable
  rw [hbase]
  constructor
  · intro hback i page hi hfirst hlast
    have hget := List.getElem?_eq_getElem
      (show i < reg.backing_pages.length from hlen ▸ (List.getElem?_eq_some_iff.mp hi).1)
    obtain ⟨page0, hpage0, hiff⟩ := h.ensured hg hfind hinside hensure hget
    obtain rfl : page0 = page := Option.some.inj (hpage0.symm.trans hi)
    exact hiff.mp (hback i _ hget hfirst hlast)
  · intro hback i page' hi hfirst hlast
    obtain ⟨page, hpage, hiff⟩ := h.ensured hg hfind hinside hensure hi
    exact hiff.mpr (hback i page hpage hfirst hlast)

end

theorem SpaceInv.confined_iff_fits {n : Nat} {trace : List Nat}
    (hall : ∀ page ∈ c.elem.backing_pages, page.allocated = true) (hsize : size = BitVec.ofNat 64 n)
    (htrace : ∀ reg virt m', copyStart ehdr as address size m = some (reg, virt, m') →
      trace = windowBytes reg.backing_pages (address.toNat - reg.base.toNat) n)
    (hnone : copyStart ehdr as address size m = none → trace = []) :
    (CopyFits c.elem m address n → CallConfined ehdr as address size m n trace)
      ∧ (trace ≠ [] → CallConfined ehdr as address size m n trace → CopyFits c.elem m address n) := by
  have hiff : ∀ reg virt m', copyStart ehdr as address size m = some (reg, virt, m') →
      (ConfinedCopy reg address n trace ↔ CopyFits c.elem m address n) := by
    intro reg virt m' hstart
    obtain ⟨c', b, m1, u, hfind', hensure, -, -⟩ := copyStart_eq_some hstart
    obtain rfl : c = c' := Option.some.inj (hfind.symm.trans hfind')
    obtain ⟨c', b', m1', G1, G2, hfind', hf, -, -, hs⟩ := h.of_copyStart hg hstart
    obtain rfl : c = c' := Option.some.inj (hfind.symm.trans hfind')
    have hshape := hf.grown.shape
    have hbase : reg.base = c.elem.base := congrArg MemoryHole.base hshape
    have hsizes : reg.size = c.elem.size := congrArg MemoryHole.size hshape
    rw [htrace reg virt m' hstart, hs.confined_iff (hf.allocated hall)]
    unfold CopyFits Inside
    rw [hbase, hsizes]
    refine or_congr_right (or_congr_right (and_congr_right fun hinside => ?_))
    exact h.backed_iff hg hfind hinside (by rw [← hsize]; exact hensure)
  refine ⟨fun hfits reg virt m' hstart => (hiff reg virt m' hstart).mpr hfits, fun hne hconf => ?_⟩
  cases hstart : copyStart ehdr as address size m with
  | none => exact absurd (hnone hstart) hne
  | some res =>
    obtain ⟨reg, virt, m'⟩ := res
    exact (hiff reg virt m' hstart).mp (hconf reg virt m' hstart)

end

end Copies

/-- **Confinement of `load` and `store`.**  After every run of sound calls, in every space
and at every address for which a region made by `allocate` or `allocate_at` is found, a
copy that fits the region before the call is confined to its frames; and a copy of which
any byte is made is confined only if it fits. -/
theorem copy_confined (ehdr : Option (List Elf64Phdr)) (m : Machine) (hboot : Booted m)
    (ops : List SysOp)
    (hops : Along (sysStep ehdr) (fun s op => op.Sound (fun _ => True) s) (System.init m) ops)
    (s : System) (hrun : run (sysStep ehdr) (System.init m) ops = some s)
    (as : AddressSpace) (has : as ∈ s.spaces) (address : U64) (c : Cursor MemoryMapping)
    (hfind : as.region_for_address address = some c)
    (hall : ∀ page ∈ c.elem.backing_pages, page.allocated = true) :
    (∀ data : List (BitVec 8),
      (CopyFits c.elem s.machine address data.length → LoadConfined ehdr as address data s.machine)
      ∧ (loadTrace ehdr as address data s.machine ≠ [] →
        LoadConfined ehdr as address data s.machine →
        CopyFits c.elem s.machine address data.length))
    ∧ ∀ size : U64,
      (CopyFits c.elem s.machine address size.toNat → StoreConfined ehdr as address size s.machine)
      ∧ (storeTrace ehdr as address size s.machine ≠ [] →
        StoreConfined ehdr as address size s.machine →
        CopyFits c.elem s.machine address size.toNat) := by
  obtain ⟨k, G, h⟩ := SysInv.run hboot hops hrun
  have hg := h.heap.ground
  have hs := h.spaces as has
  constructor
  · intro data
    refine hs.confined_iff_fits hg hfind hall rfl
      (fun reg virt m' hstart => hs.loadTrace_eq hg hfind hall hstart) fun hnone => ?_
    unfold loadTrace
    rw [hnone]
  · intro size
    refine hs.confined_iff_fits hg hfind hall (by simp)
      (fun reg virt m' hstart => hs.storeTrace_eq hg hstart) fun hnone => ?_
    unfold storeTrace
    rw [hnone]

/-- Of two promised pages the second was touched; two bytes are loaded across the boundary,
and the first page gets a frame. -/
theorem copy_confined_two_pages :
    ∃ s as, run (sysStep none) (System.init bootMachine)
        [.create, .call 0 (.allocate 2 0xB 0), .call 0 (.touch 0x7FFFFFFFF000)] = some s
      ∧ s.spaces = [as] ∧ LoadConfined none as 0x7FFFFFFFEFFF [1, 2] s.machine
      ∧ loadTrace none as 0x7FFFFFFFEFFF [1, 2] s.machine = [0x200EFFF, 0x200A000] := by
  refine exists_single_space (f := fun s as => (decide
      (loadTrace none as 0x7FFFFFFFEFFF [1, 2] s.machine = [0x200EFFF, 0x200A000]
        ∧ 0x200E < s.machine.pmm_bitmap_len ∧ s.machine.bit 0x200E = false),
      (as.region_for_address 0x7FFFFFFFEFFF).map fun c => (c.elem.shape, c.elem.backing_pages)))
    (x := (true, some (⟨0x7FFFFFFFE000, 2⟩,
      [⟨0, false, true⟩, ⟨0x200A000, true, true⟩]))) (by decide +kernel)
    fun s as hrun hspaces has => ?_
  simp only [Prod.mk.injEq, Option.map_eq_some_iff, decide_eq_true_eq] at has
  obtain ⟨⟨htrace, hlen, hbit⟩, c, hfind, hshape, hpages⟩ := has
  have hbase : c.elem.base = 0x7FFFFFFFE000 := congrArg MemoryHole.base hshape
  have hsize : c.elem.size = 2 := congrArg MemoryHole.size hshape
  refine ⟨?_, htrace⟩
  have hsound : Along (sysStep none) (fun s op => op.Sound (fun _ => True) s)
      (System.init bootMachine)
      [.create, .call 0 (.allocate 2 0xB 0), .call 0 (.touch 0x7FFFFFFFF000)] :=
    ⟨⟨0x2009, by decide, by decide, by decide +kernel⟩, fun _ _ => ⟨fun _ _ => trivial, fun _ _ =>
      ⟨fun _ _ => trivial, fun _ _ => trivial⟩⟩⟩
  have hcopy := copy_confined none bootMachine bootMachine_booted _ hsound s hrun as
    (by simp [hspaces]) 0x7FFFFFFFEFFF c hfind (by rw [hpages]; decide)
  refine (hcopy.1 [1, 2]).1 (Or.inr (Or.inr ⟨?_, ?_⟩))
  · unfold Inside
    rw [hbase, hsize]
    exact ⟨by decide, by decide⟩
  · have hfree : 0 < freeFrames s.machine :=
      Finset.card_pos.mpr ⟨0x200E, mem_freeSet.mpr ⟨by decide, hlen, by decide, hbit⟩⟩
    unfold Fillable Stocks
    rw [hbase, hpages]
    intro i page hi _ _
    rcases i with _ | _ | i
    · exact Or.inr ⟨by decide, by decide, hfree⟩
    · exact Or.inl (by rw [← Option.some.inj hi])
    · cases hi

/-- **A load reaches physical page 0.**  Two pages are promised and two bytes are loaded
across their boundary: one page is touched, and the second byte is written to address 0. -/
theorem copy_hits_page_zero :
    ∃ s as c, run (sysStep none) (System.init bootMachine)
        [.create, .call 0 (.allocate 2 0xB 0)] = some s ∧ s.spaces = [as]
      ∧ as.region_for_address 0x7FFFFFFFEFFF = some c
      ∧ (∀ page ∈ c.elem.backing_pages, page.allocated = true)
      ∧ loadTrace none as 0x7FFFFFFFEFFF [1, 2] s.machine = [0x200AFFF, 0]
      ∧ ¬ LoadConfined none as 0x7FFFFFFFEFFF [1, 2] s.machine := by
  have hruns : (run (sysStep none) (System.init bootMachine)
      [.create, .call 0 (.allocate 2 0xB 0)]).map (fun s => s.spaces.map fun as =>
        (loadTrace none as 0x7FFFFFFFEFFF [1, 2] s.machine,
          (copyStart none as 0x7FFFFFFFEFFF 2 s.machine).isSome,
          (as.region_for_address 0x7FFFFFFFEFFF).map fun c => c.elem.backing_pages))
      = some [([0x200AFFF, 0], true, some [⟨0, false, true⟩, ⟨0, false, true⟩])] := by
    decide +kernel
  obtain ⟨s, as, hrun, hspaces, has⟩ := exists_single_space hruns fun _ _ _ _ has => has
  simp only [Prod.mk.injEq, Option.map_eq_some_iff] at has
  obtain ⟨htrace, hstart, c, hfind, hpages⟩ := has
  refine ⟨s, as, c, hrun, hspaces, hfind, by rw [hpages]; decide, htrace, fun hconf => ?_⟩
  obtain ⟨⟨reg, virt, m'⟩, hcopy⟩ := Option.isSome_iff_exists.mp hstart
  have hzero := (hconf reg virt m' hcopy).page_zero 0 (by rw [htrace]; simp)
  omega

/-! ## §3. When a store of at most a page returns. -/

/-- The kernel's tables missing for the window over the region. -/
def windowTables (m : Machine) (reg : MemoryMapping) : Nat :=
  tablesMissing m (frameOf m.kernel_pml4)
    (Finset.Ico (pageOf copy_base) (pageOf copy_base + reg.size.toNat))

def regionTables (as : AddressSpace) (m : Machine) (c : Cursor MemoryMapping) (p : U64) : Nat :=
  tablesMissing m (root as)
    (insert (pageOf p) (livePages (pageOf c.elem.base) c.elem.backing_pages))

/-- **What the store needs**: the range is inside the region, the region fits the window,
and there are frames for the window's tables; if the page of `p` is only promised, also one
for the page and for the tables of the region (or none at all is left: the page then stays
without). -/
structure Supplied (as : AddressSpace) (m : Machine) (c : Cursor MemoryMapping) (p : U64)
    (n : Nat) : Prop where
  inside : Inside c.elem p n
  window : pageOf copy_base + c.elem.size.toNat ≤ 2 ^ 35
  tables : windowTables m c.elem ≤ freeFrames m
  promised : 0 < n → ∀ page, c.elem.backing_pages[pageOf p - pageOf c.elem.base]? = some page →
    page.exists_ = false → page.allocated = true
      ∧ (1 + windowTables m c.elem + regionTables as m c p ≤ freeFrames m
        ∨ freeFrames m = 0 ∧ HighMarked m)

section Returns

variable {Q : Nat → Prop} {k left : Nat} {ehdr : Option (List Elf64Phdr)} {as : AddressSpace}
  {m m1 : Machine} {G : Ledger Owner} {p size : U64} {c : Cursor MemoryMapping}
  {reg : MemoryMapping} {b : Bool}

theorem inside_iff {n : Nat} (hlo : reg.base ≤ p) :
    Inside reg p n ↔ (p - reg.base).toNat + n ≤ 4096 * reg.size.toNat := by
  have hsub := BitVec.toNat_sub_of_le hlo
  have hle : reg.base.toNat ≤ p.toNat := hlo
  unfold Inside
  omega

section

variable (h : SpaceInv Q k as m G) (hg : Ground k m G)
  (hfind : as.region_for_address p = some c)

include h hg hfind

end

end Returns

end Quack.Sys
