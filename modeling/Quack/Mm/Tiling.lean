/-
  Quack.Mm.Tiling
  **NO USER PAGE IS LOST OR DUPLICATED.**

  The holes and the regions of an address space together tile the user range.
  The order of the two lists plays no part in this: each operation replaces
  some entries by others that cover the same addresses, so the count of
  entries over each address stays what it was.  Holes may be stored out of
  order and empty entries may occur; pages are conserved all the same.
-/
import Quack.Mm.Facts
import Quack.Lib.Spans

namespace Quack.Mm

open Lib

/-! ## §1. Entries as ranges of addresses. -/

/-- The addresses of an entry. -/
def MemoryHole.span (h : MemoryHole) : Span := ⟨h.base.toNat, 4096 * h.size.toNat⟩

/-- The entries of both lists, holes first. -/
def AddressSpace.entries (as : AddressSpace) : List MemoryHole :=
  as.memory_holes ++ as.mapped_regions.map MemoryMapping.shape

/-- Their ranges. -/
def AddressSpace.spans (as : AddressSpace) : List Span := as.entries.map MemoryHole.span

/-- An entry starts on a page and ends inside the user range. -/
structure Fits (h : MemoryHole) : Prop where
  aligned : h.base.toNat % 4096 = 0
  le_end : h.base.toNat + 4096 * h.size.toNat ≤ vm_user_end.toNat

theorem toNat_user_end : vm_user_end.toNat = 2 ^ 47 := rfl

variable {h a b : MemoryHole} {n k base size r : U64} {c hole : Cursor MemoryHole}
  {as as' : AddressSpace} {mem region : Cursor MemoryMapping} {m : MemoryMapping}
  {init : MemoryMapping → Option MemoryMapping}

theorem Fits.toNat_end (hf : Fits h) :
    (h.base + h.size * vm_page_size).toNat = h.base.toNat + 4096 * h.size.toNat := by
  have := hf.le_end
  rw [toNat_user_end] at this
  exact toNat_add_pages (by omega)

theorem Fits.distance_eq_zero (ha : Fits a) (b : U64) :
    distance_between a.base a.size b = 0 ↔ a.base.toNat + 4096 * a.size.toNat = b.toNat := by
  unfold distance_between
  have h0 : (0 : U64) + b = b := BitVec.zero_add b
  rw [BitVec.sub_eq_iff_eq_add, h0, ← BitVec.toNat_inj, ha.toNat_end]

/-! ## §2. Cutting and joining entries. -/

theorem join_touching (ha : Fits a) (hb : Fits b)
    (hd : distance_between a.base a.size b.base = 0) :
    Fits ⟨a.base, a.size + b.size⟩
    ∧ MemoryHole.span ⟨a.base, a.size + b.size⟩ = ⟨a.span.lo, a.span.len + b.span.len⟩
    ∧ a.span.hi = b.span.lo := by
  rw [ha.distance_eq_zero] at hd
  have hend := hb.le_end
  rw [toNat_user_end] at hend
  have hsum : (a.size + b.size).toNat = a.size.toNat + b.size.toNat := by
    rw [BitVec.toNat_add]
    omega
  refine ⟨⟨ha.aligned, ?_⟩, ?_, hd⟩
  · simp only [hsum, toNat_user_end]
    omega
  · simp only [MemoryHole.span, hsum, Nat.mul_add]

theorem cover_join (ha : Fits a) (hb : Fits b)
    (hd : distance_between a.base a.size b.base = 0) (l : List Span) (x : Nat) :
    cover (MemoryHole.span ⟨a.base, a.size + b.size⟩ :: l) x
      = cover (a.span :: b.span :: l) x := by
  obtain ⟨-, hspan, htouch⟩ := join_touching ha hb hd
  rw [hspan, cover_cut]
  rw [Span.hi] at htouch
  rw [htouch]

theorem cut_at (hf : Fits h) (hn : n ≤ h.size) :
    Fits ⟨h.base, n⟩ ∧ Fits ⟨h.base + n * vm_page_size, h.size - n⟩
    ∧ ∀ l x,
        cover (h.span :: l) x
          = cover (MemoryHole.span ⟨h.base, n⟩
              :: MemoryHole.span ⟨h.base + n * vm_page_size, h.size - n⟩ :: l) x := by
  have hend := hf.le_end
  rw [toNat_user_end] at hend
  have hle : n.toNat ≤ h.size.toNat := hn
  have hmid : (h.base + n * vm_page_size).toNat = h.base.toNat + 4096 * n.toNat :=
    toNat_add_pages (by omega)
  have hrest : (h.size - n).toNat = h.size.toNat - n.toNat := BitVec.toNat_sub_of_le hn
  have haligned := hf.aligned
  refine ⟨⟨haligned, ?_⟩, ⟨?_, ?_⟩, fun l x => ?_⟩
  · simp only [toNat_user_end]
    omega
  · simp only [hmid]
    omega
  · simp only [hmid, hrest, toNat_user_end]
    omega
  · have hspan : h.span
        = ⟨h.base.toNat, 4096 * n.toNat + 4096 * (h.size.toNat - n.toNat)⟩ := by
      simp only [MemoryHole.span, Span.mk.injEq, true_and]
      omega
    rw [hspan, cover_cut]
    simp only [MemoryHole.span, hmid, hrest]

/-! ## §3. Merging. -/

theorem mergeLoop_rule {P : List MemoryHole → List MemoryHole → Prop}
    (hmove : ∀ before hole rest,
      (∀ prev, before.head? = some prev → distance_between prev.base prev.size hole.base ≠ 0) →
      P before (hole :: rest) → P (hole :: before) rest)
    (hjoin : ∀ before a b rest, distance_between a.base a.size b.base = 0 →
      P (a :: before) (b :: rest) → P (⟨a.base, a.size + b.size⟩ :: before) rest) :
    ∀ rest before, P before rest → P (mergeLoop before rest).reverse []
  | [], before, h => by
    rw [mergeLoop, List.reverse_reverse]
    exact h
  | hole :: rest, before, h => by
    -- the first half of the round
    have hprev : P ((absorbPrev before hole).2 :: (absorbPrev before hole).1) rest := by
      cases before with
      | nil => exact hmove [] hole rest (by simp) h
      | cons prev before =>
        simp only [absorbPrev]
        split
        · next hd =>
            rw [BitVec.add_comm hole.size prev.size]
            exact hjoin before prev hole rest hd h
        · next hd => exact hmove _ hole rest (fun _ he => Option.some.inj he ▸ hd) h
    cases rest with
    | nil =>
      simp only [mergeLoop, List.reverse_reverse]
      exact hprev
    | cons next rest =>
      simp only [mergeLoop]
      split
      · next hd => exact mergeLoop_rule hmove hjoin rest _ (hjoin _ _ next rest hd hprev)
      · exact mergeLoop_rule hmove hjoin (next :: rest) _ hprev
  termination_by rest => rest.length

theorem mergeLoop_spec {l : List MemoryHole} (h : ∀ x ∈ l, Fits x) :
    (∀ x ∈ mergeLoop [] l, Fits x)
    ∧ ∀ x, cover ((mergeLoop [] l).map MemoryHole.span) x = cover (l.map MemoryHole.span) x := by
  obtain ⟨hfits, -, hcover⟩ := mergeLoop_rule (P := fun before rest =>
    (∀ x ∈ before, Fits x) ∧ (∀ x ∈ rest, Fits x) ∧ ∀ x, cover (before.map MemoryHole.span) x
      + cover (rest.map MemoryHole.span) x = cover (l.map MemoryHole.span) x)
    (by
      rintro before hole rest - ⟨hb, hr, hc⟩
      obtain ⟨hh, hr⟩ := List.forall_mem_cons.mp hr
      refine ⟨List.forall_mem_cons.mpr ⟨hh, hb⟩, hr, fun x => ?_⟩
      rw [← hc x]
      simp only [List.map_cons, cover_cons]
      omega)
    (by
      rintro before a b rest hd ⟨hb, hr, hc⟩
      obtain ⟨ha, hb⟩ := List.forall_mem_cons.mp hb
      obtain ⟨hh, hr⟩ := List.forall_mem_cons.mp hr
      refine ⟨List.forall_mem_cons.mpr ⟨(join_touching ha hh hd).1, hb⟩, hr, fun x => ?_⟩
      rw [← hc x, List.map_cons, cover_join ha hh hd]
      simp only [List.map_cons, cover_cons]
      omega)
    l [] ⟨by simp, h, fun x => by simp⟩
  refine ⟨fun x hx => hfits x (List.mem_reverse.mpr hx), fun x => ?_⟩
  rw [← hcover x, List.map_reverse, cover_perm (List.reverse_perm _)]
  simp

/-! ## §4. Taking pages out of a hole. -/

def WellPlaced (base size : U64) : Prop :=
  base.toNat % 4096 = 0 ∧ base.toNat + 4096 * size.toNat < 2 ^ 64

instance (base size : U64) : Decidable (WellPlaced base size) :=
  inferInstanceAs (Decidable (_ ∧ _))

/-- `holes'` is `holes` without the pages of `[base, base + size)`. -/
structure Taken (holes holes' : List MemoryHole) (base size : U64) : Prop where
  fits : Fits ⟨base, size⟩
  holes_fit : ∀ h ∈ holes', Fits h
  conserved : ∀ x, cover (MemoryHole.span ⟨base, size⟩ :: holes'.map MemoryHole.span) x
    = cover (holes.map MemoryHole.span) x

theorem cover_map_cursor (c : Cursor MemoryHole) (x : Nat) :
    cover (c.toList.map MemoryHole.span) x
      = cover (c.elem.span :: c.erase.map MemoryHole.span) x :=
  cover_perm (c.toList_perm.map MemoryHole.span) x

theorem fits_erase (h : ∀ x ∈ c.toList, Fits x) :
    ∀ x ∈ c.erase, Fits x :=
  fun x hx => h x (c.toList_perm.mem_iff.mpr (List.mem_cons_of_mem _ hx))

theorem fits_set (h : ∀ x ∈ c.toList, Fits x) {y : MemoryHole}
    (hy : Fits y) : ∀ x ∈ (c.set y).toList, Fits x := by
  intro x hx
  rcases List.mem_cons.mp ((c.set_perm y).mem_iff.mp hx) with rfl | hx
  · exact hy
  · exact fits_erase h x hx

theorem taken_erase (h : ∀ x ∈ c.toList, Fits x) :
    Taken c.toList c.erase c.elem.base c.elem.size :=
  ⟨h c.elem c.mem_toList, fits_erase h, fun x => (cover_map_cursor c x).symm⟩

theorem taken_leading (h : ∀ x ∈ c.toList, Fits x)
    (hn : n ≤ c.elem.size) :
    Taken c.toList (c.set ⟨c.elem.base + n * vm_page_size, c.elem.size - n⟩).toList
      c.elem.base n := by
  obtain ⟨hfst, hsnd, hcut⟩ := cut_at (h c.elem c.mem_toList) hn
  refine ⟨hfst, fits_set h hsnd, fun x => ?_⟩
  rw [cover_map_cursor c, hcut, cover_cons, cover_map_cursor, cover_cons _ (_ :: _)]
  rfl

theorem taken_trailing (h : ∀ x ∈ c.toList, Fits x)
    (hn : n ≤ c.elem.size) :
    Taken c.toList (c.set ⟨c.elem.base, n⟩).toList
      (c.elem.base + n * vm_page_size) (c.elem.size - n) := by
  obtain ⟨hfst, hsnd, hcut⟩ := cut_at (h c.elem c.mem_toList) hn
  refine ⟨hsnd, fits_set h hfst, fun x => ?_⟩
  rw [cover_map_cursor c, hcut, cover_cons, cover_map_cursor]
  simp only [cover_cons, Cursor.set_elem, Cursor.set_erase]
  omega

theorem taken_middle (h : ∀ x ∈ c.toList, Fits x)
    (hk : k ≤ c.elem.size) (hn : n ≤ c.elem.size - k) :
    Taken c.toList
      ((c.set ⟨c.elem.base + k * vm_page_size + n * vm_page_size,
          c.elem.size - k - n⟩).insert ⟨c.elem.base, k⟩).toList
      (c.elem.base + k * vm_page_size) n := by
  obtain ⟨hfst, hsnd, hcut⟩ := cut_at (h c.elem c.mem_toList) hk
  obtain ⟨hmid, hlast, hcut'⟩ := cut_at hsnd hn
  refine ⟨hmid, fun y hy => ?_, fun x => ?_⟩
  · rcases List.mem_cons.mp ((Cursor.insert_perm _ _).mem_iff.mp hy) with rfl | hy
    · exact hfst
    · exact fits_set h hlast y hy
  · rw [cover_map_cursor c, hcut]
    have hins := cover_perm ((Cursor.insert_perm
      (c.set ⟨c.elem.base + k * vm_page_size + n * vm_page_size, c.elem.size - k - n⟩)
      ⟨c.elem.base, k⟩).map MemoryHole.span) x
    have hsplit := hcut' (c.erase.map MemoryHole.span) x
    rw [cover_cons, hins, List.map_cons, cover_cons, cover_map_cursor]
    simp only [cover_cons, Cursor.set_elem, Cursor.set_erase] at hsplit ⊢
    omega

theorem holeContains_spec {hole : MemoryHole} (hf : Fits hole)
    (hp : WellPlaced base size) (hc : AddressSpace.holeContains base size hole = true)
    (hkdef : k = (base - hole.base) / vm_page_size) :
    hole.base + k * vm_page_size = base
    ∧ base.toNat = hole.base.toNat + 4096 * k.toNat
    ∧ k.toNat + size.toNat ≤ hole.size.toNat := by
  unfold AddressSpace.holeContains at hc
  simp only [Bool.and_eq_true, decide_eq_true_eq, ge_iff_le, BitVec.le_def] at hc
  rw [hf.toNat_end, toNat_add_pages hp.2] at hc
  obtain ⟨hlo, hhi⟩ := hc
  have haligned := hf.aligned
  have hplaced := hp.1
  have hend := hf.le_end
  rw [toNat_user_end] at hend
  have hk : k.toNat = (base.toNat - hole.base.toNat) / 4096 := by
    rw [hkdef, BitVec.toNat_udiv, BitVec.toNat_sub_of_le hlo, toNat_page_size]
  have hbase : base.toNat = hole.base.toNat + 4096 * k.toNat := by omega
  refine ⟨?_, hbase, by omega⟩
  apply BitVec.eq_of_toNat_eq
  rw [toNat_add_pages (by omega), hbase]

theorem carve_taken (h : ∀ x ∈ c.toList, Fits x)
    (hp : WellPlaced base size) (hc : AddressSpace.holeContains base size c.elem = true) :
    Taken c.toList (AddressSpace.carve c base size) base size := by
  have hfit := h c.elem c.mem_toList
  unfold AddressSpace.carve
  simp only
  generalize hkdef : (base - c.elem.base) / vm_page_size = k
  obtain ⟨hbase, hbaseNat, hle⟩ := holeContains_spec hfit hp hc hkdef.symm
  have hk : k ≤ c.elem.size := by
    rw [BitVec.le_def]
    omega
  have hsub : (c.elem.size - k).toNat = c.elem.size.toNat - k.toNat := BitVec.toNat_sub_of_le hk
  have hsize : size ≤ c.elem.size := by
    rw [BitVec.le_def]
    omega
  split
  · next he =>
      obtain ⟨rfl, rfl⟩ := he
      exact taken_erase h
  · split
    · next he =>
        subst he
        exact taken_leading h hsize
    · split
      · next he =>
          -- the hole keeps its first `k` pages
          have hsum : k.toNat + size.toNat = c.elem.size.toNat := by
            have hends := congrArg BitVec.toNat he
            rw [hfit.toNat_end, toNat_add_pages hp.2] at hends
            omega
          have hkeq : c.elem.size - size = k := by
            apply BitVec.eq_of_toNat_eq
            rw [BitVec.toNat_sub_of_le hsize]
            omega
          have hsz : c.elem.size - k = size := by
            apply BitVec.eq_of_toNat_eq
            rw [hsub]
            omega
          have ht := taken_trailing h hk
          rw [hbase, hsz] at ht
          rw [hkeq]
          exact ht
      · have hn : size ≤ c.elem.size - k := by
          rw [BitVec.le_def, hsub]
          omega
        have ht := taken_middle h hk hn
        have hcomm : c.elem.size - k - size = c.elem.size - size - k := by bv_omega
        rw [hbase, hcomm] at ht
        exact ht

theorem bind_hole_taken (h : ∀ x ∈ hole.toList, Fits x)
    (hbind : as.bind_hole hole size = some (as', mem)) :
    ∃ base, Taken hole.toList as'.memory_holes base size ∧ as.Bound as' mem base size := by
  obtain ⟨hle, ⟨rfl, hholes, hb⟩ | ⟨-, hholes, hb⟩⟩ := AddressSpace.bind_hole_cases hbind
  · refine ⟨_, ?_, hb⟩
    rw [hholes]
    exact taken_erase h
  · refine ⟨_, ?_, hb⟩
    have hrest : hole.elem.size - size ≤ hole.elem.size := by
      rw [BitVec.le_def, BitVec.toNat_sub_of_le hle]
      omega
    have hback : hole.elem.size - (hole.elem.size - size) = size := by bv_omega
    have ht := taken_trailing h hrest
    rw [hback] at ht
    rw [hholes]
    exact ht

/-! ## §5. The invariant. -/

/-- All entries are proper ranges and together they tile the user range. -/
structure Tiled (as : AddressSpace) : Prop where
  fits : ∀ h ∈ as.entries, Fits h
  tiles : Tiles as.spans vm_user_base.toNat vm_user_end.toNat

theorem Tiled.congr (h : Tiled as) (he : as'.entries = as.entries) :
    Tiled as' := by
  refine ⟨?_, ?_⟩
  · rw [he]
    exact h.fits
  · unfold AddressSpace.spans
    rw [he]
    exact h.tiles

theorem Tiled.fits_holes (h : Tiled as) : ∀ x ∈ as.memory_holes, Fits x :=
  fun x hx => h.fits x (List.mem_append_left _ hx)

theorem Tiled.fits_regions (h : Tiled as) :
    ∀ m ∈ as.mapped_regions, Fits m.shape :=
  fun _ hm => h.fits _ (List.mem_append_right _ (List.mem_map_of_mem hm))

theorem Tiled.test_iff (h : Tiled as)
    (hm : m ∈ as.mapped_regions) (address : U64) :
    (decide (address ≥ m.base) && decide (address ≤ m.base + m.size * vm_page_size)) = true
      ↔ m.shape.span.lo ≤ address.toNat ∧ address.toNat ≤ m.shape.span.hi := by
  have hend : (m.base + m.size * vm_page_size).toNat = m.base.toNat + 4096 * m.size.toNat :=
    (h.fits_regions m hm).toNat_end
  rw [Bool.and_eq_true, decide_eq_true_eq, decide_eq_true_eq, ge_iff_le, BitVec.le_def,
    BitVec.le_def, hend]
  rfl

theorem cover_spans (as : AddressSpace) (x : Nat) :
    cover as.spans x = cover (as.memory_holes.map MemoryHole.span) x
      + cover ((as.mapped_regions.map MemoryMapping.shape).map MemoryHole.span) x := by
  unfold AddressSpace.spans AddressSpace.entries
  rw [List.map_append, cover_append]

theorem Tiled.merge (h : Tiled as) : Tiled as.merge_holes := by
  obtain ⟨hfits, hcover⟩ := mergeLoop_spec h.fits_holes
  refine ⟨fun x hx => ?_, h.tiles.congr fun x => ?_⟩
  · rcases List.mem_append.mp hx with hx | hx
    · exact hfits x hx
    · exact h.fits x (List.mem_append_right _ hx)
  · rw [cover_spans, cover_spans]
    simp only [AddressSpace.merge_holes, hcover x]

theorem Tiled.region_unique (h : Tiled as) {c : Cursor MemoryMapping}
    (hl : c.toList = as.mapped_regions) {x : Nat} (hc : c.elem.shape.span.Covers x)
    (hm : m ∈ c.erase) : ¬ m.shape.span.Covers x := by
  intro hx
  have hle := h.tiles.cover_le_one x
  rw [cover_spans, ← hl, List.map_map, cover_perm (c.toList_perm.map _), List.map_cons,
    cover_cons, Function.comp_apply, if_pos hc] at hle
  have hpos : 0 < cover (c.erase.map (MemoryHole.span ∘ MemoryMapping.shape)) x :=
    cover_pos_iff.mpr ⟨m.shape.span, List.mem_map_of_mem hm, hx⟩
  omega

theorem AddressSpace.Bound.regions_perm (hb : as.Bound as' mem base size) :
    (as'.mapped_regions.map MemoryMapping.shape).Perm
      (⟨base, size⟩ :: as.mapped_regions.map MemoryMapping.shape) := by
  rw [hb.regions, ← hb.others]
  have hp := mem.toList_perm.map MemoryMapping.shape
  rw [List.map_cons, hb.elem, new_shape] at hp
  exact hp

theorem Tiled.bound (h : Tiled as) (ht : Taken as.memory_holes as'.memory_holes base size)
    (hb : as.Bound as' mem base size) : Tiled as' := by
  have hperm := hb.regions_perm
  refine ⟨fun x hx => ?_, h.tiles.congr fun x => ?_⟩
  · rcases List.mem_append.mp hx with hx | hx
    · exact ht.holes_fit x hx
    · rcases List.mem_cons.mp (hperm.mem_iff.mp hx) with rfl | hx
      · exact ht.fits
      · exact h.fits x (List.mem_append_right _ hx)
  · have hc := ht.conserved x
    rw [cover_spans, cover_spans, cover_perm (hperm.map MemoryHole.span), ← hc, List.map_cons]
    simp only [cover_cons]
    omega

theorem entries_withRegion
    (hl : region.toList = as.mapped_regions) (hs : m.shape = region.elem.shape) :
    (as.withRegion region m).entries = as.entries := by
  unfold AddressSpace.entries
  rw [AddressSpace.withRegion_regions, Cursor.map_set_toList MemoryMapping.shape hs, hl]
  rfl

variable {σ : Type} {arch : ArchMm σ} {s s' : σ}

theorem Tiled.finish (h : Tiled as)
    (hl : mem.toList = as.mapped_regions)
    (hinit : ∀ m m', init m = some m' → m'.shape = m.shape)
    (hfin : as.finish arch mem init s = some ((r, as'), s')) : Tiled as' := by
  obtain ⟨m, m', hm, hmap, -, rfl⟩ := AddressSpace.finish_cases hfin
  obtain ⟨rfl, -⟩ := AddressSpace.map_region_cases hmap
  have hs : m.shape = mem.elem.shape := hinit _ _ hm
  exact h.congr (entries_withRegion hl hs)

theorem Tiled.bind_hole (h : Tiled as) (hf : as.find_free_hole size = some hole)
    (hb : as.bind_hole hole size = some (as', mem)) :
    ∃ base, Tiled as' ∧ as.Bound as' mem base size := by
  obtain ⟨hl, -⟩ := AddressSpace.find_free_hole_some hf
  have hfits : ∀ x ∈ hole.toList, Fits x := by
    rw [hl]
    exact h.fits_holes
  obtain ⟨base, ht, hbound⟩ := bind_hole_taken hfits hb
  rw [hl] at ht
  exact ⟨base, h.bound ht hbound, hbound⟩

theorem Tiled.bind_exact (h : Tiled as) (hplaced : WellPlaced base size)
    (hb : as.bind_exact base size = some (as', some mem)) :
    Tiled as' ∧ as.Bound as' mem base size := by
  obtain ⟨-, -, ⟨he, -⟩ | ⟨target, m, he, htarget, hc, hholes, hbound⟩⟩ :=
    AddressSpace.bind_exact_cases hb
  · cases he
  · injection he with he
    subst he
    have hl := Cursor.toList_of_mem htarget
    have hfits : ∀ x ∈ target.toList, Fits x := by
      rw [hl]
      exact h.merge.fits_holes
    have ht := carve_taken hfits hplaced hc
    rw [hl, ← hholes] at ht
    have hbound' : as.merge_holes.Bound as' mem base size :=
      ⟨hbound.elem, hbound.others, hbound.regions, hbound.ctx⟩
    exact ⟨h.merge.bound ht hbound', hbound⟩

theorem Tiled.placeAnywhere (h : Tiled as)
    (hinit : ∀ m m', init m = some m' → m'.shape = m.shape)
    (hp : as.placeAnywhere arch size init s = some ((r, as'), s')) : Tiled as' := by
  rcases AddressSpace.placeAnywhere_cases hp with ⟨-, -, rfl, -⟩ | ⟨hole, as1, mem, hf, hb, hfin⟩
  · exact h
  · obtain ⟨base, ht, hbound⟩ := h.bind_hole hf hb
    exact ht.finish hbound.regions.symm hinit hfin

theorem Tiled.placeAt (h : Tiled as)
    (hplaced : WellPlaced base size)
    (hinit : ∀ m m', init m = some m' → m'.shape = m.shape)
    (hp : as.placeAt arch base size init s = some ((r, as'), s')) : Tiled as' := by
  rcases AddressSpace.placeAt_cases hp with ⟨hb, -, -⟩ | ⟨as1, mem, hb, hfin⟩
  · obtain ⟨-, -, ⟨-, rfl, -⟩ | ⟨_, _, he, -⟩⟩ := AddressSpace.bind_exact_cases hb
    · exact h.merge
    · cases he
  · obtain ⟨ht, hbound⟩ := h.bind_exact hplaced hb
    exact ht.finish hbound.regions.symm hinit hfin

theorem Tiled.unbind (h : Tiled as)
    (hl : region.toList = as.mapped_regions) : Tiled (as.unbind_region region) := by
  have hperm : ({ as.putHole region.elem.shape with
      mapped_regions := region.erase } : AddressSpace).entries.Perm as.entries := by
    unfold AddressSpace.entries
    rw [← hl]
    have hregions := region.toList_perm.map MemoryMapping.shape
    rw [List.map_cons] at hregions
    have hholes := as.putHole_perm region.elem.shape
    refine ((hholes.append_right _).trans ?_).trans (hregions.symm.append_left _)
    rw [List.cons_append]
    exact List.perm_middle.symm
  refine Tiled.merge ⟨fun x hx => h.fits x (hperm.mem_iff.mp hx), h.tiles.congr fun x => ?_⟩
  exact cover_perm (hperm.map MemoryHole.span) x

theorem Tiled.destroy (h : Tiled as) (hl : region.toList = as.mapped_regions)
    (hd : as.destroy arch region s = some (as', s')) : Tiled as' := by
  obtain ⟨-, rfl, -⟩ := AddressSpace.destroy_cases hd
  exact h.unbind hl

/-! ## §6. Runs. -/

/-- The placement a call asks for is a proper one. -/
def VmOp.Placed : VmOp → Prop
  | .allocate_at base size _ _ => WellPlaced base size
  | .map_at base _ size _ _ => WellPlaced base size
  | _ => True

/-- A request is for at least one page, at a proper place. -/
def VmOp.Proper : VmOp → Prop
  | .allocate size _ _ => size ≠ 0
  | .map _ size _ _ => size ≠ 0
  | op => op.Placed

theorem vmStep_cases {s s' : AddressSpace × σ} {op : VmOp} (hs : vmStep arch s op = some s') :
    (∃ size init r, (∀ m m', init m = some m' → m'.shape = m.shape) ∧ (op.Proper → size ≠ 0)
      ∧ s.1.placeAnywhere arch size init s.2 = some ((r, s'.1), s'.2))
    ∨ (∃ base size init r, (∀ m m', init m = some m' → m'.shape = m.shape)
      ∧ (op.Placed → WellPlaced base size)
      ∧ s.1.placeAt arch base size init s.2 = some ((r, s'.1), s'.2))
    ∨ ∃ region c, op = .destroy region ∧ Cursor.at? s.1.mapped_regions region = some c
      ∧ s.1.destroy arch c s.2 = some s' := by
  cases op with
  | allocate size perms cache =>
    obtain ⟨⟨⟨r, as'⟩, t⟩, hcall, rfl⟩ := Option.map_eq_some_iff.mp hs
    exact Or.inl ⟨size, _, r, fun _ _ => MemoryMapping.allocate_shape, id, hcall⟩
  | map address size perms cache =>
    obtain ⟨⟨⟨r, as'⟩, t⟩, hcall, rfl⟩ := Option.map_eq_some_iff.mp hs
    exact Or.inl ⟨size, _, r, fun _ _ => MemoryMapping.map_to_shape, id, hcall⟩
  | allocate_at base size perms cache =>
    obtain ⟨⟨⟨r, as'⟩, t⟩, hcall, rfl⟩ := Option.map_eq_some_iff.mp hs
    exact Or.inr (Or.inl ⟨base, size, _, r, fun _ _ => MemoryMapping.allocate_shape, id, hcall⟩)
  | map_at base address size perms cache =>
    obtain ⟨⟨⟨r, as'⟩, t⟩, hcall, rfl⟩ := Option.map_eq_some_iff.mp hs
    exact Or.inr (Or.inl ⟨base, size, _, r, fun _ _ => MemoryMapping.map_to_shape, id, hcall⟩)
  | destroy region =>
    obtain ⟨c, hc, hcall⟩ := Option.bind_eq_some_iff.mp hs
    exact Or.inr (Or.inr ⟨region, c, rfl, hc, hcall⟩)

theorem Tiled.step {s s' : AddressSpace × σ} {op : VmOp} (h : Tiled s.1) (hop : op.Placed)
    (hs : vmStep arch s op = some s') : Tiled s'.1 := by
  rcases vmStep_cases hs with ⟨_, _, _, hinit, -, hcall⟩ | ⟨_, _, _, _, hinit, hplaced, hcall⟩
    | ⟨_, c, -, hc, hcall⟩
  · exact h.placeAnywhere hinit hcall
  · exact h.placeAt (hplaced hop) hinit hcall
  · exact h.destroy (Cursor.toList_of_at? hc) hcall

theorem Tiled.new (h : AddressSpace.new arch s = some (as, s')) : Tiled as := by
  simp only [AddressSpace.new, Prog.bind_eq_some, Prog.pure_eq_some] at h
  obtain ⟨ctx, t, -, rfl, -⟩ := h
  refine ⟨fun x hx => ?_, ?_⟩
  · obtain rfl := List.mem_singleton.mp hx
    exact ⟨by decide, by decide⟩
  · exact tiles_singleton _ _

/-- **No user page is lost, duplicated, or both free and mapped.**  In every
state a run of a fresh address space reaches, whatever the architecture does,
the ranges of its holes and regions are pairwise disjoint and their union is
the user range. -/
theorem user_pages_tiled (arch : ArchMm σ) (s0 s1 : σ) (as0 : AddressSpace)
    (hnew : AddressSpace.new arch s0 = some (as0, s1)) (ops : List VmOp)
    (hops : ∀ op ∈ ops, op.Placed) (s : AddressSpace × σ)
    (hrun : run (vmStep arch) (as0, s1) ops = some s) :
    s.1.spans.Pairwise (fun a b => Disjoint a.toSet b.toSet)
    ∧ ⋃ a ∈ s.1.spans, a.toSet = Set.Ico vm_user_base.toNat vm_user_end.toNat := by
  have hplaced : Along (vmStep arch) (fun _ op => op.Placed) (as0, s1) ops :=
    along_of_forall (vmStep arch) ops (as0, s1) (fun op hop _ => hops op hop)
  have htiled : Tiled s.1 :=
    Along.invariant (vmStep arch) (fun s => Tiled s.1) (fun _ _ _ h hop hs => h.step hop hs)
      ops (as0, s1) s (Tiled.new hnew) hplaced hrun
  exact ⟨htiled.tiles.pairwise_disjoint, htiled.tiles.iUnion_eq⟩

def bumpArch : ArchMm U64 where
  arch_mm_create_context := pure 0
  arch_mm_destroy_context := fun _ => pure ()
  arch_mm_map := fun _ _ _ _ _ _ => pure 1
  arch_mm_unmap := fun _ _ _ => pure 1
  arch_mm_alloc_phys := fun _ s => some (s + vm_page_size, s + vm_page_size)
  arch_mm_free_phys := fun _ _ => pure 1
  arch_mm_mapping_load := fun _ _ _ => pure ()
  arch_mm_mapping_store := fun _ _ _ => pure []

/-- The fresh space of `bumpArch`. -/
def bumpSpace : AddressSpace :=
  ⟨[], [⟨vm_user_base, (vm_user_end - vm_user_base) / vm_page_size⟩], 0⟩

theorem user_pages_tiled_bump :
    ∃ s, run (vmStep bumpArch) (bumpSpace, 0)
        [.allocate 2 3 0, .map_at 0x5000 0xB8000 1 3 0, .allocate 1 3 0, .destroy 1] = some s
      ∧ s.1.spans.length = 5
      ∧ s.1.spans.Pairwise (fun a b => Disjoint a.toSet b.toSet)
      ∧ ⋃ a ∈ s.1.spans, a.toSet = Set.Ico vm_user_base.toNat vm_user_end.toNat := by
  have heval : (run (vmStep bumpArch) (bumpSpace, 0)
      [.allocate 2 3 0, .map_at 0x5000 0xB8000 1 3 0, .allocate 1 3 0, .destroy 1]).map
      (fun s => s.1.spans.length) = some 5 := by decide +kernel
  obtain ⟨s, hrun, hlen⟩ := Option.map_eq_some_iff.mp heval
  refine ⟨s, hrun, hlen, user_pages_tiled bumpArch 0 0 bumpSpace rfl _ ?_ s hrun⟩
  intro op hop
  simp only [List.mem_cons, List.not_mem_nil, or_false] at hop
  rcases hop with rfl | rfl | rfl | rfl
  · trivial
  · exact ⟨by decide, by decide⟩
  · trivial
  · trivial

end Quack.Mm
