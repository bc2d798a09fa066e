/-
  Quack.Sys.Ownership
  **NO FRAME IN USE HAS TWO OWNERS, OR A CLEAR BIT.**

  A frame is owned by a backing page with a frame of its own, by a table that is
  reached from a live context, or by a page of a live heap block.  The ledger
  gives every such frame a use, and the use names the owner
  (`SysInv.owner_use`, `SysInv.owner_unique`).

    • `frames_owned_once`       — each frame has one owner, in every run whose ranges do not wrap
      around and whose contexts all got a frame.
    • `frames_owned_once_wraps` — a range that wraps around reaches the upper
      half, and with it the bitmap of frames itself.
-/
import Quack.Sys.System

namespace Quack.Sys

open Lib Mm Arch

/-! ## §1. Owners. -/

/-- The table at a path below `f`; a large page is no table. -/
def tableAt (m : Machine) : (f : Nat) → List Nat → Option Nat
  | f, [] => some f
  | f, i :: path =>
    (child (m.slot f i)).bind fun c =>
      if m.slot f i &&& VMM_FLAG_LARGE ≠ 0 then none else tableAt m c path

inductive FrameOwner where
  /-- Backing page `page` of a region of a space, by position. -/
  | backing (space region page : Nat)
  /-- The table of context `root` at a path through its lower half. -/
  | table (root : Nat) (path : List Nat)
  /-- A table of the upper half, which all contexts share. -/
  | upper (path : List Nat)
  /-- A page of a live heap block. -/
  | heap (block page : Nat)
  deriving Repr, DecidableEq

/-- The kernel's context, and those of the spaces. -/
def System.roots (s : System) : List Nat := rootOf s.machine.kernel_pml4 :: s.spaces.map root

/-- Indices of tables, at most three. -/
def TablePath (path : List Nat) : Prop := path.length ≤ 3 ∧ ∀ i ∈ path, i < 512

def Owns (s : System) (f : Nat) : FrameOwner → Prop
  | .backing space region page => ∃ as reg bp, s.spaces[space]? = some as
      ∧ as.mapped_regions[region]? = some reg ∧ reg.backing_pages[page]? = some bp
      ∧ bp.exists_ = true ∧ bp.allocated = true ∧ bp.ptr.toNat / 4096 = f
  | .table root path => root ∈ s.roots ∧ TablePath path ∧ (∀ i, path.head? = some i → i < 256)
      ∧ tableAt s.machine root path = some f
  | .upper path => TablePath path ∧ (∃ i, path.head? = some i ∧ 256 ≤ i)
      ∧ ∃ root ∈ s.roots, tableAt s.machine root path = some f
  | .heap block page => ∃ b, s.blocks[block]? = some b ∧ b.first ≤ page ∧ page < b.stop
      ∧ kernelFrame s.machine page = some f

/-- **Every owned frame has one owner, and its bit is set.** -/
def OwnedOnce (s : System) : Prop :=
  (∀ f o o', Owns s f o → Owns s f o' → o = o') ∧ ∀ f o, Owns s f o → s.machine.bit f = true

/-! ## §2. Tables by path. -/

section Tables

variable {k r : Nat} {m : Machine} {G : Ledger Owner}

theorem tableAt_cons {f g i : Nat} {path : List Nat} (h : tableAt m f (i :: path) = some g) :
    ∃ c, child (m.slot f i) = some c ∧ m.slot f i &&& VMM_FLAG_LARGE = 0
      ∧ tableAt m c path = some g := by
  obtain ⟨c, hc, h⟩ := Option.bind_eq_some_iff.mp h
  split at h
  · cases h
  · next hl => exact ⟨c, hc, not_not.mp hl, h⟩

theorem slotOk_child {u u' : Use Owner} {f i c : Nat} (hA : Accounted k m G) (hf : G f = some u)
    (hi : i < 512) (hu : u.child i = some u') (hc : child (m.slot f i) = some c)
    (hl : m.slot f i &&& VMM_FLAG_LARGE = 0) : G c = some u' := by
  rcases hA.slots f u i hf hi u' hu with hz | ⟨c', hent, hG⟩ | ⟨-, -, hlarge⟩
  · rw [hz, child_zero] at hc
    cases hc
  · have hwin := (hA.managed c' _ hG).window
    rw [hent, child_tableEnt (by omega)] at hc
    injection hc with hc
    subst hc
    exact hG
  · exact absurd hl hlarge

theorem tableAt_lower (hA : Accounted k m G) (path p : List Nat) (f g : Nat)
    (hf : G f = some (.table r p)) (hlen : p.length + path.length ≤ 3)
    (hlt : (∀ i ∈ path, i < 512)) (hhead : (p = [] → ∀ i, path.head? = some i → i < 256))
    (h : tableAt m f path = some g) : G g = some (.table r (p ++ path)) := by
  induction path generalizing p f g with
  | nil =>
    injection h with h
    subst h
    rw [List.append_nil]
    exact hf
  | cons i path ih =>
    obtain ⟨c, hc, hl, hrest⟩ := tableAt_cons h
    rw [List.length_cons] at hlen
    have hi : LowerSlot p i := ⟨by omega, hlt i List.mem_cons_self, fun hp => hhead hp i rfl⟩
    have hG := slotOk_child hA hf hi.2.1 (Use.child_lower hi) hc hl
    rw [List.append_cons]
    refine ih (p ++ [i]) c g hG ?_ ?_ ?_ hrest
    · rw [List.length_append, List.length_singleton]
      omega
    · exact fun j hj => hlt j (List.mem_cons_of_mem _ hj)
    · intro hp
      exact absurd hp (by simp)

theorem tableAt_upper (hA : Accounted k m G) (path p : List Nat) (f g : Nat)
    (hf : G f = some (.upper p)) (hlen : p.length + path.length ≤ 3) (hlt : (∀ i ∈ path, i < 512))
    (h : tableAt m f path = some g) : G g = some (.upper (p ++ path)) := by
  induction path generalizing p f g with
  | nil =>
    injection h with h
    subst h
    rw [List.append_nil]
    exact hf
  | cons i path ih =>
    obtain ⟨c, hc, hl, hrest⟩ := tableAt_cons h
    rw [List.length_cons] at hlen
    have hchild : (Use.upper p : Use Owner).child i = some (.upper (p ++ [i])) := by
      simp only [Use.child]
      rw [if_pos (by omega)]
    have hG := slotOk_child hA hf (hlt i List.mem_cons_self) hchild hc hl
    rw [List.append_cons]
    refine ih (p ++ [i]) c g hG ?_ (fun j hj => hlt j (List.mem_cons_of_mem _ hj)) hrest
    rw [List.length_append, List.length_singleton]
    omega

theorem tableAt_root_upper (hA : Accounted k m G) (hr : G r = some (.table r []))
    {path : List Nat} {g : Nat} (hpath : TablePath path)
    (hhead : ∃ i, path.head? = some i ∧ 256 ≤ i) (h : tableAt m r path = some g) :
    G g = some (.upper path) := by
  obtain ⟨i, hhead, hi⟩ := hhead
  cases path with
  | nil => cases hhead
  | cons j path =>
    injection hhead with hhead
    subst hhead
    obtain ⟨c, hc, hl, hrest⟩ := tableAt_cons h
    have hchild : (Use.table r [] : Use Owner).child j = some (.upper [j]) := if_pos ⟨rfl, hi⟩
    have hG := slotOk_child hA hr (hpath.2 j List.mem_cons_self) hchild hc hl
    have hlen := hpath.1
    rw [List.length_cons] at hlen
    exact tableAt_upper hA path [j] c g hG (by rw [List.length_singleton]; omega)
      (fun i hi => hpath.2 i (List.mem_cons_of_mem _ hi)) hrest

end Tables

/-! ## §3. The use of an owned frame. -/

section Owners

variable {Q : Nat → Prop} {k : Nat} {s : System} {G : Ledger Owner}

/-- The use that an owner has for its frame. -/
def OwnerUse (s : System) : FrameOwner → Use Owner → Prop
  | .backing space region page, u => ∃ as reg, s.spaces[space]? = some as
      ∧ as.mapped_regions[region]? = some reg ∧ page < reg.backing_pages.length
      ∧ u = .data (.page (root as) (pageOf reg.base + page))
  | .table root path, u => u = .table root path
  | .upper path, u => u = .upper path
  | .heap block page, u => (∃ b, s.blocks[block]? = some b ∧ b.first ≤ page ∧ page < b.stop)
      ∧ u = .data (.heap page)

theorem SysInv.root_of_mem (h : SysInv Q k G s) {r : Nat} (hr : r ∈ s.roots) :
    G r = some (.table r []) := by
  unfold System.roots at hr
  rcases List.mem_cons.mp hr with rfl | hr
  · rw [rootOf_eq h.heap.kernel]
    exact h.heap.accounted.kernel
  · obtain ⟨as, has, rfl⟩ := List.mem_map.mp hr
    exact (h.spaces as has).is_root

theorem SysInv.owner_use (h : SysInv Q k G s) {f : Nat} {o : FrameOwner} (ho : Owns s f o) :
    ∃ u, G f = some u ∧ OwnerUse s o u := by
  have hA := h.heap.accounted
  cases o with
  | backing space region page =>
    obtain ⟨as, reg, bp, has, hreg, hbp, he, ha, rfl⟩ := ho
    have hspace := h.spaces as (List.mem_of_getElem? has)
    obtain ⟨f, hptr, hf⟩ :=
      (hspace.pages reg (List.mem_of_getElem? hreg) page bp hbp).backed he ha
    refine ⟨_, ?_, as, reg, has, hreg, (List.getElem?_eq_some_iff.mp hbp).1, rfl⟩
    rw [hptr, Nat.mul_div_cancel_left _ (by decide : 0 < 4096)]
    exact hf
  | table root path =>
    obtain ⟨hroot, hpath, hhead, hwalk⟩ := ho
    refine ⟨_, ?_, rfl⟩
    exact tableAt_lower hA path [] root f (h.root_of_mem hroot)
      (by rw [List.length_nil]; have := hpath.1; omega) hpath.2 (fun _ => hhead) hwalk
  | upper path =>
    obtain ⟨hpath, hhead, r, hr, hwalk⟩ := ho
    exact ⟨_, tableAt_root_upper hA (h.root_of_mem hr) hpath hhead hwalk, rfl⟩
  | heap block page =>
    obtain ⟨b, hb, h1, h2, hframe⟩ := ho
    have hhigh := h.heap.high b (List.mem_of_getElem? hb)
    have hwindow := h.heap.top_lt
    obtain ⟨g, hchild, hg⟩ := (h.heap.ok b (List.mem_of_getElem? hb)).mapped page h1 h2
    rw [h.heap.kernelFrame_eq (by omega), hchild] at hframe
    injection hframe with hframe
    subst hframe
    exact ⟨_, hg, ⟨b, hb, h1, h2⟩, rfl⟩

theorem eq_of_pairwise {α : Type} {R : α → α → Prop} {l : List α} (h : l.Pairwise R)
    (hsymm : ∀ a b, R a b → R b a) {i j : Nat} {a b : α} (hi : l[i]? = some a)
    (hj : l[j]? = some b) (hab : ¬ R a b) : i = j := by
  obtain ⟨hi', rfl⟩ := List.getElem?_eq_some_iff.mp hi
  obtain ⟨hj', rfl⟩ := List.getElem?_eq_some_iff.mp hj
  rw [List.pairwise_iff_getElem] at h
  rcases Nat.lt_trichotomy i j with hlt | heq | hgt
  · exact absurd (h i j hi' hj' hlt) hab
  · exact heq
  · exact absurd (hsymm _ _ (h j i hj' hi' hgt)) hab

variable {u : Use Owner}

theorem SysInv.backing_unique (h : SysInv Q k G s)
    {space space' region region' page page' : Nat}
    (ho : OwnerUse s (.backing space region page) u)
    (ho' : OwnerUse s (.backing space' region' page') u) :
    FrameOwner.backing space region page = .backing space' region' page' := by
  obtain ⟨as, reg, has, hreg, hpage, rfl⟩ := ho
  obtain ⟨as', reg', has', hreg', hpage', hu⟩ := ho'
  injection hu with hu
  injection hu with hroot hv
  have hspace : space = space' := by
    refine eq_of_pairwise (List.pairwise_map.mp h.roots) (fun _ _ => Ne.symm) has has' ?_
    exact not_not.mpr hroot
  subst hspace
  rw [has] at has'
  injection has' with has'
  subst has'
  have hpair := (h.spaces as (List.mem_of_getElem? has)).pairwise_covers
  have hregion : region = region' := by
    refine eq_of_pairwise hpair (fun a b hab v hb ha => hab v ha hb) hreg hreg' ?_
    intro hab
    refine hab (pageOf reg.base + page) ⟨by omega, by omega⟩ ?_
    rw [hv]
    exact ⟨by omega, by omega⟩
  subst hregion
  rw [hreg] at hreg'
  injection hreg' with hreg'
  subst hreg'
  rw [show page = page' by omega]

theorem SysInv.heap_unique (h : SysInv Q k G s) {block block' page page' : Nat}
    (ho : OwnerUse s (.heap block page) u) (ho' : OwnerUse s (.heap block' page') u) :
    FrameOwner.heap block page = .heap block' page' := by
  obtain ⟨⟨b, hb, h1, h2⟩, rfl⟩ := ho
  obtain ⟨⟨b', hb', h1', h2'⟩, hu⟩ := ho'
  cases hu
  have hblock : block = block' := by
    refine eq_of_pairwise h.heap.apart (fun _ _ => Or.symm) hb hb' ?_
    omega
  subst hblock
  rfl

theorem SysInv.owner_unique (h : SysInv Q k G s) {o o' : FrameOwner}
    (ho : OwnerUse s o u) (ho' : OwnerUse s o' u) : o = o' := by
  cases o with
  | backing space region page =>
    cases o' with
    | backing space' region' page' => exact h.backing_unique ho ho'
    | table =>
      obtain ⟨_, _, _, _, _, rfl⟩ := ho
      cases ho'
    | upper =>
      obtain ⟨_, _, _, _, _, rfl⟩ := ho
      cases ho'
    | heap =>
      obtain ⟨_, _, _, _, _, rfl⟩ := ho
      cases ho'.2
  | table root path =>
    cases ho
    cases o' with
    | backing =>
      obtain ⟨_, _, _, _, _, hu⟩ := ho'
      cases hu
    | table =>
      cases ho'
      rfl
    | upper => cases ho'
    | heap => cases ho'.2
  | upper path =>
    cases ho
    cases o' with
    | backing =>
      obtain ⟨_, _, _, _, _, hu⟩ := ho'
      cases hu
    | table => cases ho'
    | upper =>
      cases ho'
      rfl
    | heap => cases ho'.2
  | heap block page =>
    cases o' with
    | backing =>
      obtain ⟨_, _, _, _, _, rfl⟩ := ho'
      cases ho.2
    | table =>
      cases ho'
      cases ho.2
    | upper =>
      cases ho'
      cases ho.2
    | heap block' page' => exact h.heap_unique ho ho'

theorem SysInv.ownedOnce (h : SysInv Q k G s) : OwnedOnce s := by
  constructor
  · intro f o o' ho ho'
    obtain ⟨u, hu, huse⟩ := h.owner_use ho
    obtain ⟨u', hu', huse'⟩ := h.owner_use ho'
    rw [hu] at hu'
    injection hu' with hu'
    subst hu'
    exact h.owner_unique huse huse'
  · intro f o ho
    obtain ⟨u, hu, -⟩ := h.owner_use ho
    exact (h.heap.accounted.managed f u hu).bit

end Owners

/-! ## §4. Runs. -/

def SysOp.Placed (s : System) : SysOp → Prop
  | .create => ∃ f, 0x2000 ≤ f ∧ f < s.machine.pmm_bitmap_len ∧ s.machine.bit f = false
  | .call _ (.allocate_at base size _ _) => WellPlaced base size
  | .call _ (.map address size _ _) => PhysOk (Unmanaged s.machine.pmm_bitmap_len) address size
  | .call _ (.map_at base address size _ _) =>
    WellPlaced base size ∧ PhysOk (Unmanaged s.machine.pmm_bitmap_len) address size
  | _ => True

section Runs

variable {k : Nat} {s : System} {G : Ledger Owner}

theorem SysInv.sound_of_placed
    (h : SysInv (Unmanaged s.machine.pmm_bitmap_len) k G s) {op : SysOp} (hop : op.Placed s) :
    op.Sound (Unmanaged s.machine.pmm_bitmap_len) s := by
  cases op with
  | create => exact hop
  | delete space => trivial
  | heap op => trivial
  | call space op =>
    intro c hc
    have hmem : c.elem ∈ s.spaces := Cursor.elem_mem (Cursor.toList_of_at? hc)
    have hspace := h.spaces c.elem hmem
    cases op with
    | load address data =>
      intro c' hfind page hpage he ha
      have hreg : c'.elem ∈ c.elem.mapped_regions := by
        rw [← (AddressSpace.region_for_address_some hfind).1]
        exact c'.mem_toList
      obtain ⟨i, hi⟩ := List.getElem?_of_mem hpage
      have hok := hspace.pages c'.elem hreg i page hi
      have hframe := hok.frameOf_ptr_eq h.heap.accounted he
      obtain ⟨-, -, hun⟩ := hok.foreign he ha
      rw [show frameOf page.ptr = page.ptr.toNat / 4096 by omega]
      exact hun
    | map => exact hop
    | allocate_at => exact hop
    | map_at => exact hop
    | _ => trivial

theorem sysInv_of_placed {ehdr : Option (List Elf64Phdr)} {m : Machine} (hboot : Booted m)
    {ops : List SysOp}
    (hops : Along (sysStep ehdr) (fun s op => op.Placed s) (System.init m) ops)
    (hrun : run (sysStep ehdr) (System.init m) ops = some s) :
    ∃ k G, SysInv (Unmanaged s.machine.pmm_bitmap_len) k G s := by
  obtain ⟨k, G0, h0⟩ := SysInv.init (Q := Unmanaged m.pmm_bitmap_len) hboot
  obtain ⟨hlen, G, h⟩ := Along.invariant (sysStep ehdr)
    (fun s => s.machine.pmm_bitmap_len = m.pmm_bitmap_len
      ∧ ∃ G, SysInv (Unmanaged m.pmm_bitmap_len) k G s)
    (by
      rintro s op s' ⟨hlen, G, h⟩ hop hstep
      rw [← hlen] at h ⊢
      obtain ⟨G', h', hlen'⟩ := h.step (h.sound_of_placed hop) hstep
      exact ⟨hlen', G', h'⟩)
    ops _ s ⟨rfl, G0, h0⟩ hops hrun
  rw [← hlen] at h
  exact ⟨k, G, h⟩

end Runs

/-- **Frame ownership.**  In every run whose ranges do not wrap around, whose
contexts all got a frame and which maps no frame of the allocator's by its
address, no frame has two owners and every owned frame's bit is set, in every
state. -/
theorem frames_owned_once (ehdr : Option (List Elf64Phdr)) (m : Machine) (hboot : Booted m)
    (ops : List SysOp)
    (hops : Along (sysStep ehdr) (fun s op => op.Placed s) (System.init m) ops) (s : System)
    (hrun : run (sysStep ehdr) (System.init m) ops = some s) : OwnedOnce s := by
  obtain ⟨k, G, h⟩ := sysInv_of_placed hboot hops hrun
  exact h.ownedOnce

/-- A space with a page of its own, and a block of the heap. -/
theorem frames_owned_once_small :
    ∃ s, run (sysStep none) (System.init bootMachine)
        [.create, .heap (.kmalloc 8), .call 0 (.allocate 1 0xB 0),
          .call 0 (.touch 0x7FFFFFFFF000)] = some s
      ∧ OwnedOnce s ∧ Owns s 0x200A (.heap 0 0x200000)
      ∧ Owns s 0x200E (.backing 0 0 0) := by
  have hruns : (run (sysStep none) (System.init bootMachine)
      [.create, .heap (.kmalloc 8), .call 0 (.allocate 1 0xB 0),
        .call 0 (.touch 0x7FFFFFFFF000)]).map
        (fun s => (s.blocks, kernelFrame s.machine 0x200000,
          s.spaces.map fun as => as.mapped_regions.map MemoryMapping.backing_pages))
      = some ([⟨0x200000FF8, 8⟩], some 0x200A, [[[⟨0x200E000, true, true⟩]]]) := by
    decide +kernel
  obtain ⟨s, hrun, hs⟩ := Option.map_eq_some_iff.mp hruns
  simp only [Prod.mk.injEq] at hs
  obtain ⟨hblocks, hframe, hspaces⟩ := hs
  obtain ⟨as, has, hregions⟩ := List.map_eq_singleton_iff.mp hspaces
  obtain ⟨reg, hreg, hpages⟩ := List.map_eq_singleton_iff.mp hregions
  refine ⟨s, hrun, ?_, ?_, ?_⟩
  · refine frames_owned_once none bootMachine bootMachine_booted _ ?_ s hrun
    exact ⟨⟨0x2009, by decide, by decide, by decide +kernel⟩, fun _ _ =>
      ⟨trivial, fun _ _ => ⟨trivial, fun _ _ => ⟨trivial, fun _ _ => trivial⟩⟩⟩⟩
  · exact ⟨⟨0x200000FF8, 8⟩, by simp [hblocks], by decide, by decide, hframe⟩
  · exact ⟨as, reg, ⟨0x200E000, true, true⟩, by simp [has], by simp [hreg], by simp [hpages],
      rfl, rfl, by decide⟩

/-- **A range that wraps around.**  After a region that wraps around, the next
one may lie in the physical window, over the bitmap: mapping it overwrites the
word with the bit of the space's own root. -/
theorem frames_owned_once_wraps :
    ∃ s, run (sysStep none) (System.init bootMachine)
        [.create, .call 0 (.allocate_at 0xFFFFFFFFFFFFF000 2 0xB 0),
          .call 0 (.allocate_at 0xFFFF800002080000 1 0xB 0),
          .call 0 (.touch 0xFFFF800002080000)] = some s
      ∧ ¬ OwnedOnce s := by
  have hruns : (run (sysStep none) (System.init bootMachine)
      [.create, .call 0 (.allocate_at 0xFFFFFFFFFFFFF000 2 0xB 0),
        .call 0 (.allocate_at 0xFFFF800002080000 1 0xB 0),
        .call 0 (.touch 0xFFFF800002080000)]).map
        (fun s => (s.roots, s.machine.bit 0x2009)) = some ([0x2001, 0x2009], false) := by
    decide +kernel
  obtain ⟨s, hrun, hs⟩ := Option.map_eq_some_iff.mp hruns
  simp only [Prod.mk.injEq] at hs
  obtain ⟨hroots, hbit⟩ := hs
  refine ⟨s, hrun, fun howned => ?_⟩
  have hset := howned.2 0x2009 (.table 0x2009 [])
    ⟨by simp [hroots], ⟨by simp, by simp⟩, by simp, rfl⟩
  rw [hbit] at hset
  cases hset

end Quack.Sys
