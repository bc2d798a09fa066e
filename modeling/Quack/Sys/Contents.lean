/-
  Quack.Sys.Contents
  **THE BYTES A SPACE SEES.**

  A byte of a region is that of the page's frame; a page that was not touched yet
  reads as zero (`byteSeen`).
-/
import Quack.Sys.Ownership
import Quack.Sys.CopyBounds

namespace Quack.Sys

open Lib Mm Arch

/-! ## §1. Bytes of a space. -/

/-- Byte `o` of a page. -/
def pageByte (m : Machine) (page : BackingPage) (o : Nat) : BitVec 8 :=
  if page.exists_ then m.byte (4096 * frameOf page.ptr + o) else 0

/-- The backing page of page `v`, if a region covers it. -/
def pageAt (as : AddressSpace) (v : Nat) : Option BackingPage :=
  as.mapped_regions.findSome? fun reg =>
    if pageOf reg.base ≤ v then reg.backing_pages[v - pageOf reg.base]? else none

/-- The byte at address `a`; none if no region covers it. -/
def byteSeen (as : AddressSpace) (m : Machine) (a : Nat) : Option (BitVec 8) :=
  (pageAt as (a / 4096)).map fun page => pageByte m page (a % 4096)

section Pages

variable {as : AddressSpace} {v : Nat} {page : BackingPage}

theorem exists_of_pageAt (h : pageAt as v = some page) :
    ∃ reg ∈ as.mapped_regions, ∃ i, reg.backing_pages[i]? = some page
      ∧ pageOf reg.base + i = v := by
  obtain ⟨reg, hreg, hpage⟩ := List.exists_of_findSome?_eq_some h
  split at hpage
  · next hle => exact ⟨reg, hreg, _, hpage, by omega⟩
  · cases hpage

theorem pageAt_eq_some (h : Tiled as) :
    pageAt as v = some page ↔ ∃ reg ∈ as.mapped_regions, ∃ i,
      reg.backing_pages[i]? = some page ∧ pageOf reg.base + i = v := by
  refine ⟨exists_of_pageAt, ?_⟩
  rintro ⟨reg, hreg, i, hi, rfl⟩
  have hsome : (pageAt as (pageOf reg.base + i)).isSome := by
    refine List.findSome?_isSome_iff.mpr ⟨reg, hreg, ?_⟩
    rw [if_pos (by omega), Nat.add_sub_cancel_left, hi]
    rfl
  obtain ⟨page', hpage'⟩ := Option.isSome_iff_exists.mp hsome
  obtain ⟨reg', hreg', i', hi', he⟩ := exists_of_pageAt hpage'
  obtain ⟨c, hc, rfl⟩ := Cursor.exists_cursor_of_mem hreg
  have hl := Cursor.toList_of_mem hc
  rw [← hl] at hreg'
  rcases List.mem_cons.mp (c.toList_perm.mem_iff.mp hreg') with rfl | hother
  · obtain rfl : i' = i := by omega
    rw [hpage', ← hi', hi]
  · have hcovers := covers_of_getElem? hi'
    rw [he] at hcovers
    exact absurd hcovers (apart_of_tiled h hl hother (covers_of_getElem? hi))

end Pages

/-! ## §2. Touching. -/

def SameView (m : Machine) (reg : MemoryMapping) (m' : Machine) (reg' : MemoryMapping) : Prop :=
  ∀ (i : Nat) (page' : BackingPage), reg'.backing_pages[i]? = some page' →
    ∃ page, reg.backing_pages[i]? = some page ∧ (page.exists_ = true → page' = page)
      ∧ ∀ o, o < 4096 → pageByte m' page' o = pageByte m page o

theorem SameView.refl (m : Machine) (reg : MemoryMapping) : SameView m reg m reg :=
  fun _ page hi => ⟨page, hi, fun _ => rfl, fun _ _ => rfl⟩

theorem SameView.trans {m m' m'' : Machine} {reg reg' reg'' : MemoryMapping}
    (h1 : SameView m reg m' reg') (h2 : SameView m' reg' m'' reg'') :
    SameView m reg m'' reg'' := by
  intro i page'' hi''
  obtain ⟨page', hi', hkeep', hbyte'⟩ := h2 i page'' hi''
  obtain ⟨page, hi, hkeep, hbyte⟩ := h1 i page' hi'
  refine ⟨page, hi, fun he => ?_, fun o ho => (hbyte' o ho).trans (hbyte o ho)⟩
  obtain rfl := hkeep he
  exact hkeep' he

section Touch

variable {k r v : Nat} {ehdr : Option (List Elf64Phdr)} {m m' : Machine} {G : Ledger Owner}
  {page : BackingPage} {reg reg' : MemoryMapping} {b : Bool}

theorem PageOk.plain_frame (h : PageOk (Unmanaged m.pmm_bitmap_len) G r v page)
    (hA : Accounted k m G) : Plain m G (frameOf page.ptr) := by
  refine (h.plain hA fun he ha => ?_).1
  have hframe := h.frameOf_ptr_eq hA he
  obtain ⟨-, -, hun⟩ := h.foreign he ha
  rw [show frameOf page.ptr = page.ptr.toNat / 4096 by omega]
  exact hun

theorem keepsPlain_pageByte (h : KeepsPlain m G m') (hA : Accounted k m G)
    (hok : PageOk (Unmanaged m.pmm_bitmap_len) G r v page) {o : Nat} (ho : o < 4096) :
    pageByte m' page o = pageByte m page o := by
  unfold pageByte
  rw [h.byte]
  rw [show (4096 * frameOf page.ptr + o) / 4096 = frameOf page.ptr by omega]
  exact hok.plain_frame hA

theorem keepsPlain_view (h : KeepsPlain m G m') (hA : Accounted k m G)
    (hok : PagesOk (Unmanaged m.pmm_bitmap_len) G r v reg.backing_pages) :
    SameView m reg m' reg :=
  fun i page hi => ⟨page, hi, fun _ => rfl, fun _ ho => keepsPlain_pageByte h hA (hok i page hi) ho⟩

theorem Fills.plain {Q : Nat → Prop} {G' : Ledger Owner} {f : Nat}
    (hf : Fills Q r k b m G reg m' G' reg') (h : Plain m G f) : Plain m' G' f := by
  rcases h with hlow | hhigh | ⟨d, hd⟩
  · exact Or.inl hlow
  · exact Or.inr (Or.inl (by rw [hf.effect.len]; exact hhigh))
  · exact Or.inr (Or.inr ⟨d, hf.ext f _ hd⟩)

theorem take_byte (m : Machine) {f o : Nat} (ho : o < 4096) :
    (m.take f).byte (4096 * f + o) = 0 := by
  have hslot := m.take_slot_self (f := f) (j := o / 8) (by omega)
  unfold Machine.slot at hslot
  unfold Machine.byte
  rw [show (4096 * f + o) / 8 = 512 * f + o / 8 by omega, hslot]
  exact BitVec.eq_of_getLsbD_eq fun i _ => by simp

theorem touch_view {idx : U64} (hA : Accounted k m G)
    (hok : PagesOk (Unmanaged m.pmm_bitmap_len) G r (pageOf reg.base) reg.backing_pages)
    (h : reg.touch (x86Mm ehdr) idx m = some ((b, reg'), m')) :
    SameView m reg m' reg' ∧ KeepsPlain m G m' := by
  obtain ⟨page, hpage, ⟨-, -, rfl, rfl⟩ | ⟨he, -, f, hlow, hlen, hwin, hbit, rfl, rfl⟩⟩ :=
    touch_spec hA h
  · exact ⟨SameView.refl _ _, KeepsPlain.refl _ G⟩
  · have hkeep := take_plain hA hlow hlen hbit
    refine ⟨fun i page' hi => ?_, hkeep⟩
    rcases setPage_getElem? hi with ⟨rfl, rfl⟩ | hold
    · have hne : ¬ page.exists_ = true := by simp [he]
      refine ⟨page, hpage, fun hex => absurd hex hne, fun o ho => ?_⟩
      have hzero := take_byte m (f := f) ho
      unfold pageByte
      rw [if_neg hne, if_pos rfl, frameOf_addr hwin, hzero]
    · exact keepsPlain_view hkeep hA hok i page' hold

theorem touchRange_view (n : Nat) (start : U64) (touched b : Bool) (reg reg' : MemoryMapping)
    (m m' : Machine) (G : Ledger Owner) (hA : Accounted k m G)
    (hok : PagesOk (Unmanaged m.pmm_bitmap_len) G r (pageOf reg.base) reg.backing_pages)
    (h : reg.touchRange (x86Mm ehdr) n start touched m = some ((b, reg'), m')) :
    SameView m reg m' reg' ∧ KeepsPlain m G m' := by
  induction n generalizing start touched b reg reg' m m' G with
  | zero =>
    simp only [MemoryMapping.touchRange, Prog.pure_eq_some, Prod.mk.injEq] at h
    obtain ⟨⟨rfl, rfl⟩, rfl⟩ := h
    exact ⟨SameView.refl m reg, KeepsPlain.refl m G⟩
  | succ n ih =>
    simp only [MemoryMapping.touchRange, Prog.bind_eq_some] at h
    obtain ⟨⟨touched_i, reg1⟩, m1, htouch, hrest⟩ := h
    obtain ⟨G1, hf⟩ := touch_fills hA hok htouch
    obtain ⟨hview, hkeep⟩ := touch_view hA hok htouch
    have hok1 := hf.ok
    rw [← hf.effect.len] at hok1
    obtain ⟨hview', hkeep'⟩ := ih _ _ _ reg1 reg' m1 m' G1 hf.effect.accounted hok1 hrest
    exact ⟨hview.trans hview', hkeep.trans hkeep' fun f => hf.plain⟩

end Touch

/-! ## §3. What `store` reads. -/

section Store

variable {k : Nat} {ehdr : Option (List Elf64Phdr)} {as as' : AddressSpace} {m m' : Machine}
  {G : Ledger Owner} {address size : U64} {out : List (BitVec 8)} {c : Cursor MemoryMapping}

section

variable (h : SpaceInv (Unmanaged m.pmm_bitmap_len) k as m G) (hg : Ground k m G)
  (hfind : as.region_for_address address = some c)

include h hg hfind

end

end Store

end Quack.Sys
