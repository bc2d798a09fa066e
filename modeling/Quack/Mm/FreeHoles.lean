/-
  Quack.Mm.FreeHoles
  **WHEN EVERY FREE RANGE IS ONE HOLE.**

  `allocate` and `allocate_at` look at single holes, so they find a free range
  only if it lies inside one.  That is the case while the hole list is
  COALESCED: in address order, with a gap between neighbours.

  So in runs whose `destroy` calls are of the first kind a request is refused
  only if it has to be.  With one of the other kind, the last page of the user
  range and everything below it can both be free and never be found together.
-/
import Quack.Mm.Tiling

namespace Quack.Mm

open Lib

/-! ## §1. Coalesced and ordered lists of holes. -/

/-- In address order, with gaps, and no hole is empty. -/
structure Coalesced (l : List MemoryHole) : Prop where
  nonempty : ∀ h ∈ l, h.span.lo < h.span.hi
  gaps : l.Pairwise (fun a b => a.span.hi < b.span.lo)

/-- In address order, without overlap, and no hole is empty. -/
structure Ordered (l : List MemoryHole) : Prop where
  nonempty : ∀ h ∈ l, h.span.lo < h.span.hi
  order : l.Pairwise (fun a b => a.span.hi ≤ b.span.lo)

variable {l : List MemoryHole} {h hole y : MemoryHole} {c : Cursor MemoryHole}
  {as as' : AddressSpace} {mem : Cursor MemoryMapping} {size base r : U64} {α : Type}
  {init : MemoryMapping → Option MemoryMapping}

theorem Coalesced.ordered (h : Coalesced l) : Ordered l :=
  ⟨h.nonempty, h.gaps.imp Nat.le_of_lt⟩

theorem Coalesced.separated (h : Coalesced l) :
    Separated (l.map MemoryHole.span) :=
  List.pairwise_map.mpr h.gaps

theorem span_lo_lt_hi (hne : h.size ≠ 0) : h.span.lo < h.span.hi := by
  have hpos : h.size.toNat ≠ 0 := fun he => hne (BitVec.eq_of_toNat_eq he)
  simp only [MemoryHole.span, Span.hi]
  omega

/-! ## §2. Merging. -/

theorem Ordered.merge (h : Ordered l) (hfits : ∀ x ∈ l, Fits x) : Coalesced (mergeLoop [] l) := by
  -- what has been visited has gaps
  obtain ⟨-, -, hord, hgaps⟩ := mergeLoop_rule (P := fun before rest =>
    (∀ x ∈ before, Fits x) ∧ (∀ x ∈ rest, Fits x) ∧ Ordered (before.reverse ++ rest)
      ∧ before.Pairwise (fun a b => b.span.hi < a.span.lo))
    (by
      rintro before hole rest htouch ⟨hfb, hfr, hord, hgaps⟩
      obtain ⟨hfh, hfr⟩ := List.forall_mem_cons.mp hfr
      obtain ⟨-, -, hcross⟩ := List.pairwise_append.mp hord.order
      refine ⟨List.forall_mem_cons.mpr ⟨hfh, hfb⟩, hfr, by simpa using hord,
        List.pairwise_cons.mpr ⟨fun x hx => ?_, hgaps⟩⟩
      cases before with
      | nil => cases hx
      | cons prev before =>
        have hle := hcross prev (by simp) hole List.mem_cons_self
        have hpos := hord.nonempty prev (by simp)
        have hne : prev.span.hi ≠ hole.span.lo := fun he => htouch prev rfl
          (((hfb prev List.mem_cons_self).distance_eq_zero _).mpr he)
        rcases List.mem_cons.mp hx with rfl | hx
        · omega
        · have := (List.pairwise_cons.mp hgaps).1 x hx
          omega)
    (by
      rintro before a b rest hd ⟨hfb, hfr, hord, hgaps⟩
      obtain ⟨hfa, hfb⟩ := List.forall_mem_cons.mp hfb
      obtain ⟨hfh, hfr⟩ := List.forall_mem_cons.mp hfr
      obtain ⟨hfit, hspan, htouch⟩ := join_touching hfa hfh hd
      obtain ⟨hbefore, hgaps⟩ := List.pairwise_cons.mp hgaps
      rw [List.reverse_cons, List.append_assoc, List.singleton_append] at hord
      obtain ⟨hb, hr, hcross⟩ := List.pairwise_append.mp hord.order
      obtain ⟨-, hr⟩ := List.pairwise_cons.mp hr
      obtain ⟨hafter, hr⟩ := List.pairwise_cons.mp hr
      have hlo : (MemoryHole.mk a.base (a.size + b.size)).span.lo = a.span.lo := by rw [hspan]
      have hhi : (MemoryHole.mk a.base (a.size + b.size)).span.hi = b.span.hi := by
        rw [hspan]
        simp only [Span.hi] at htouch ⊢
        omega
      have hposa := hord.nonempty a (by simp)
      have hposb := hord.nonempty b (by simp)
      refine ⟨List.forall_mem_cons.mpr ⟨hfit, hfb⟩, hfr, ?_,
        List.pairwise_cons.mpr ⟨fun x hx => hlo ▸ hbefore x hx, hgaps⟩⟩
      rw [List.reverse_cons, List.append_assoc, List.singleton_append]
      refine ⟨fun x hx => ?_, List.pairwise_append.mpr ⟨hb, List.pairwise_cons.mpr
        ⟨fun y hy => hhi ▸ hafter y hy, hr⟩, fun x hx y hy => ?_⟩⟩
      · rcases List.mem_append.mp hx with hx | hx
        · exact hord.nonempty x (List.mem_append_left _ hx)
        · rcases List.mem_cons.mp hx with rfl | hx
          · omega
          · exact hord.nonempty x (by simp [hx])
      · rcases List.mem_cons.mp hy with rfl | hy
        · exact hlo ▸ hcross x hx a List.mem_cons_self
        · exact hcross x hx y (by simp [hy]))
    l [] ⟨by simp, hfits, h, List.Pairwise.nil⟩
  refine ⟨fun x hx => hord.nonempty x (by simpa using hx), ?_⟩
  rw [← List.reverse_reverse (mergeLoop [] l)]
  exact List.pairwise_reverse.mpr hgaps

/-! ## §3. Taking pages out of a hole. -/

theorem Coalesced.replace (h : Coalesced c.toList) (l : List MemoryHole) (hl : Coalesced l)
    (hin : ∀ y ∈ l, c.elem.span.lo ≤ y.span.lo ∧ y.span.hi ≤ c.elem.span.hi) :
    Coalesced (c.before ++ (l ++ c.after)) := by
  obtain ⟨hbefore, hrest, hcross⟩ := List.pairwise_append.mp h.gaps
  obtain ⟨helem, hafter⟩ := List.pairwise_cons.mp hrest
  refine ⟨fun x hx => ?_, List.pairwise_append.mpr ⟨hbefore, List.pairwise_append.mpr
    ⟨hl.gaps, hafter, fun y hy b hb => Nat.lt_of_le_of_lt (hin y hy).2 (helem b hb)⟩,
    fun a ha b hb => ?_⟩⟩
  · rcases List.mem_append.mp hx with hx | hx
    · exact h.nonempty x (List.mem_append_left _ hx)
    · rcases List.mem_append.mp hx with hx | hx
      · exact hl.nonempty x hx
      · exact h.nonempty x (List.mem_append_right _ (List.mem_cons_of_mem _ hx))
  · rcases List.mem_append.mp hb with hb | hb
    · exact Nat.lt_of_lt_of_le (hcross a ha c.elem List.mem_cons_self) (hin b hb).1
    · exact hcross a ha b (List.mem_cons_of_mem _ hb)

theorem Coalesced.erase (h : Coalesced c.toList) : Coalesced c.erase :=
  h.replace [] ⟨by simp, List.Pairwise.nil⟩ (by simp)

theorem Coalesced.split {z : MemoryHole} (h : Coalesced c.toList)
    (hy : y.span.lo < y.span.hi) (hz : z.span.lo < z.span.hi) (hyz : y.span.hi < z.span.lo)
    (hlo : c.elem.span.lo ≤ y.span.lo) (hhi : z.span.hi ≤ c.elem.span.hi) :
    Coalesced ((c.set z).insert y).toList := by
  refine h.replace [y, z] ⟨by simp [hy, hz], by simpa using hyz⟩ fun x hx => ?_
  rcases List.mem_pair.mp hx with rfl | rfl
  · exact ⟨hlo, by omega⟩
  · exact ⟨by omega, hhi⟩

theorem Coalesced.shrink (h : Coalesced c.toList)
    (hy : y.span.lo < y.span.hi) (hlo : c.elem.span.lo ≤ y.span.lo)
    (hhi : y.span.hi ≤ c.elem.span.hi) : Coalesced (c.set y).toList :=
  h.replace [y] ⟨by simpa using hy, List.pairwise_singleton _ _⟩ (by simpa using ⟨hlo, hhi⟩)

theorem bind_hole_coalesced {hole : Cursor MemoryHole}
    (h : Coalesced hole.toList)
    (hbind : as.bind_hole hole size = some (as', mem)) : Coalesced as'.memory_holes := by
  obtain ⟨hle, ⟨-, hholes, -⟩ | ⟨hne, hholes, -⟩⟩ := AddressSpace.bind_hole_cases hbind
  · rw [hholes]
    exact h.erase
  · rw [hholes]
    have hrest : (hole.elem.size - size).toNat = hole.elem.size.toNat - size.toNat :=
      BitVec.toNat_sub_of_le hle
    have hlt : size.toNat < hole.elem.size.toNat :=
      Nat.lt_of_le_of_ne hle fun he => hne (BitVec.eq_of_toNat_eq he).symm
    refine h.shrink ?_ (Nat.le_refl _) ?_ <;> simp only [MemoryHole.span, Span.hi, hrest] <;> omega

theorem carve_coalesced (h : Coalesced c.toList)
    (hfits : ∀ x ∈ c.toList, Fits x) (hp : WellPlaced base size) (hsize : size ≠ 0)
    (hc : AddressSpace.holeContains base size c.elem = true) :
    Coalesced (AddressSpace.carve c base size) := by
  have hfit := hfits c.elem c.mem_toList
  have hpos : size.toNat ≠ 0 := fun he => hsize (BitVec.eq_of_toNat_eq he)
  unfold AddressSpace.carve
  simp only
  generalize hkdef : (base - c.elem.base) / vm_page_size = k
  obtain ⟨-, hbase, hle⟩ := holeContains_spec hfit hp hc hkdef.symm
  have hend : (base + size * vm_page_size).toNat = base.toNat + 4096 * size.toNat :=
    toNat_add_pages hp.2
  have hrest : (c.elem.size - size).toNat = c.elem.size.toNat - size.toNat :=
    BitVec.toNat_sub_of_le (by rw [BitVec.le_def]; omega)
  split
  · exact h.erase
  · next hexact =>
      split
      · next he =>
          -- the hole is longer than the request
          subst he
          have hne : size.toNat ≠ c.elem.size.toNat :=
            fun he => hexact ⟨rfl, BitVec.eq_of_toNat_eq he⟩
          refine h.shrink ?_ ?_ ?_ <;> simp only [MemoryHole.span, Span.hi, hrest, hend] <;> omega
      · next hlead =>
          have hk : k.toNat ≠ 0 := fun he => hlead (BitVec.eq_of_toNat_eq (by omega))
          split
          · refine h.shrink ?_ ?_ ?_ <;> simp only [MemoryHole.span, Span.hi, hrest] <;> omega
          · next htrail =>
              have hne : k.toNat + size.toNat ≠ c.elem.size.toNat := fun he =>
                htrail (BitVec.eq_of_toNat_eq (by rw [hend, hfit.toNat_end]; omega))
              have hupper : (c.elem.size - size - k).toNat
                  = c.elem.size.toNat - size.toNat - k.toNat := by
                rw [BitVec.toNat_sub_of_le (by rw [BitVec.le_def, hrest]; omega), hrest]
              refine h.split ?_ ?_ ?_ ?_ ?_ <;>
                simp only [MemoryHole.span, Span.hi, hupper, hend] <;> omega

/-! ## §4. Putting a hole back. -/

theorem findSucc_fold_stays (base size : α → U64) (in_base : U64) (c : Cursor α)
    (d : Int) : ∀ (cs : List (Cursor α)),
      (∀ e ∈ cs, in_base ≤ base e.elem →
        d ≤ (distance_between (base e.elem) (size e.elem) in_base).toInt) →
      cs.foldl (findSuccStep base size in_base) (some c, d) = (some c, d)
  | [], _ => rfl
  | e :: cs, h => by
    have hstep : findSuccStep base size in_base (some c, d) e = (some c, d) := by
      unfold findSuccStep
      split
      · rfl
      · next hge =>
          have := h e List.mem_cons_self (BitVec.not_lt.mp hge)
          simp only
          rw [if_neg (by omega)]
    rw [List.foldl_cons, hstep]
    exact findSucc_fold_stays base size in_base c d cs
      (fun e' he' => h e' (List.mem_cons_of_mem e he'))

theorem findSucc_fold_first (base size : α → U64) (in_base : U64) :
    ∀ (cs : List (Cursor α)),
      cs.Pairwise (fun a b => in_base ≤ base a.elem → in_base ≤ base b.elem →
        (distance_between (base a.elem) (size a.elem) in_base).toInt
          ≤ (distance_between (base b.elem) (size b.elem) in_base).toInt) →
      (∀ e ∈ cs, in_base ≤ base e.elem →
        (distance_between (base e.elem) (size e.elem) in_base).toInt < 2 ^ 63 - 1) →
      (cs.foldl (findSuccStep base size in_base) (none, 2 ^ 63 - 1)).1
        = cs.find? (fun e => decide (in_base ≤ base e.elem))
  | [], _, _ => rfl
  | e :: cs, hmono, hmax => by
    obtain ⟨hfirst, hrest⟩ := List.pairwise_cons.mp hmono
    rw [List.foldl_cons, List.find?_cons]
    by_cases hge : in_base ≤ base e.elem
    · have hlt := hmax e List.mem_cons_self hge
      have hstep : findSuccStep base size in_base (none, 2 ^ 63 - 1) e
          = (some e, (distance_between (base e.elem) (size e.elem) in_base).toInt) := by
        unfold findSuccStep
        rw [if_neg (BitVec.not_lt.mpr hge)]
        simp only
        rw [if_pos hlt]
      rw [hstep, findSucc_fold_stays base size in_base e _ cs
        (fun e' he' => hfirst e' he' hge)]
      simp [hge]
    · have hstep : findSuccStep base size in_base (none, 2 ^ 63 - 1) e
          = (none, 2 ^ 63 - 1) := by
        unfold findSuccStep
        rw [if_pos (BitVec.not_le.mp hge)]
      rw [hstep, findSucc_fold_first base size in_base cs hrest
        (fun e' he' => hmax e' (List.mem_cons_of_mem e he'))]
      simp [hge]

theorem Fits.distance_toInt (hf : Fits h) {b : U64} (hle : b ≤ h.base) :
    (distance_between h.base h.size b).toInt = (h.span.hi : Int) - b.toNat := by
  have hend := hf.le_end
  rw [toNat_user_end] at hend
  have hleNat : b.toNat ≤ h.base.toNat := hle
  have hsub : (distance_between h.base h.size b).toNat
      = h.base.toNat + 4096 * h.size.toNat - b.toNat := by
    unfold distance_between
    rw [BitVec.toNat_sub_of_le, hf.toNat_end]
    rw [BitVec.le_def, hf.toNat_end]
    omega
  rw [BitVec.toInt_eq_toNat_of_lt (by rw [hsub]; omega), hsub]
  simp only [MemoryHole.span, Span.hi]
  omega

theorem findSucc_first (shape : α → MemoryHole) {l : List α}
    (hord : Ordered (l.map shape)) (hfits : ∀ x ∈ l, Fits (shape x)) (in_base : U64) :
    findSucc (fun x => (shape x).base) (fun x => (shape x).size) in_base l
      = (Cursor.cursors l).find? (fun c => decide (in_base ≤ (shape c.elem).base)) := by
  have hmem : ∀ c ∈ Cursor.cursors l, c.elem ∈ l :=
    fun c hc => Cursor.elem_mem (Cursor.toList_of_mem hc)
  have hpair : (Cursor.cursors l).Pairwise
      (fun a b => (shape a.elem).span.hi ≤ (shape b.elem).span.lo) := by
    have h := List.pairwise_map.mp hord.order
    rw [← Cursor.map_elem_cursors l, List.pairwise_map] at h
    exact h
  refine findSucc_fold_first _ _ _ _ (hpair.imp_of_mem fun {a b} ha hb hab h1 h2 => ?_)
    (fun c hc hle => ?_)
  · rw [(hfits _ (hmem a ha)).distance_toInt h1, (hfits _ (hmem b hb)).distance_toInt h2]
    have := hord.nonempty _ (List.mem_map_of_mem (hmem b hb))
    omega
  · rw [(hfits _ (hmem c hc)).distance_toInt hle]
    have := (hfits _ (hmem c hc)).le_end
    rw [toNat_user_end] at this
    simp only [MemoryHole.span, Span.hi]
    omega

theorem Ordered.insert {shape : α → MemoryHole} {l1 l2 : List α} {x : α}
    (hord : Ordered ((l1 ++ l2).map shape)) (hne : (shape x).span.lo < (shape x).span.hi)
    (hapart : ∀ y ∈ l1 ++ l2, (shape y).span.hi ≤ (shape x).span.lo
      ∨ (shape x).span.hi ≤ (shape y).span.lo)
    (hbefore : ∀ y ∈ l1, ¬ (shape x).base ≤ (shape y).base)
    (hge : ∀ y, l2.head? = some y → (shape x).base ≤ (shape y).base) :
    Ordered ((l1 ++ x :: l2).map shape) := by
  obtain ⟨hb, hr, hcross⟩ := List.pairwise_append.mp (List.pairwise_map.mp hord.order)
  have hnonempty : ∀ y ∈ l1 ++ l2, (shape y).span.lo < (shape y).span.hi :=
    fun y hy => hord.nonempty _ (List.mem_map_of_mem hy)
  -- entries after the place found start at or after the new one
  have hafter : ∀ y ∈ l2, (shape x).span.hi ≤ (shape y).span.lo := by
    intro y hy
    have hylo : (shape x).span.lo ≤ (shape y).span.lo := by
      cases l2 with
      | nil => cases hy
      | cons z l2 =>
        have hz : (shape x).span.lo ≤ (shape z).span.lo := hge z rfl
        rcases List.mem_cons.mp hy with rfl | hy'
        · exact hz
        · have h1 := (List.pairwise_cons.mp hr).1 y hy'
          have h2 := hnonempty z (by simp)
          omega
    have h4 := hnonempty y (List.mem_append_right _ hy)
    rcases hapart y (List.mem_append_right _ hy) with h | h
    · omega
    · exact h
  have hbelow : ∀ y ∈ l1, (shape y).span.hi ≤ (shape x).span.lo := by
    intro y hy
    have hylo : (shape y).span.lo < (shape x).span.lo := BitVec.not_le.mp (hbefore y hy)
    rcases hapart y (List.mem_append_left _ hy) with h | h
    · exact h
    · omega
  refine ⟨fun h hmem => ?_, List.pairwise_map.mpr (List.pairwise_append.mpr
    ⟨hb, List.pairwise_cons.mpr ⟨hafter, hr⟩, fun y hy z hz => ?_⟩)⟩
  · obtain ⟨y, hy, rfl⟩ := List.mem_map.mp hmem
    rcases List.mem_cons.mp (List.perm_middle.mem_iff.mp hy) with rfl | hy
    · exact hne
    · exact hnonempty y hy
  · rcases List.mem_cons.mp hz with rfl | hz
    · exact hbelow y hy
    · exact hcross y hy z hz

theorem putHole_ordered (hord : Ordered as.memory_holes)
    (hfits : ∀ h ∈ as.memory_holes, Fits h) (hne : hole.span.lo < hole.span.hi)
    (hapart : ∀ h ∈ as.memory_holes, h.span.hi ≤ hole.span.lo ∨ hole.span.hi ≤ h.span.lo)
    (hplace : as.memory_holes = [] ∨ ∃ h ∈ as.memory_holes, hole.base ≤ h.base) :
    Ordered (as.putHole hole).memory_holes := by
  rw [← List.map_id as.memory_holes] at hord
  have hfirst : as.find_succ_hole hole
      = (Cursor.cursors as.memory_holes).find? (fun c => decide (hole.base ≤ c.elem.base)) :=
    findSucc_first id hord hfits hole.base
  unfold AddressSpace.putHole
  rw [hfirst]
  cases hf : (Cursor.cursors as.memory_holes).find? (fun c => decide (hole.base ≤ c.elem.base)) with
  | none =>
    rcases hplace with hnil | ⟨h, hh, hle⟩
    · simp only [hnil]
      refine ⟨fun x hx => ?_, List.pairwise_singleton _ _⟩
      rw [List.mem_singleton.mp hx]
      exact hne
    · obtain ⟨c, hc, rfl⟩ := Cursor.exists_cursor_of_mem hh
      have := List.find?_eq_none.mp hf c hc
      simp only [decide_eq_true_eq] at this
      exact absurd hle this
  | some c =>
    have hl := Cursor.toList_of_mem (List.mem_of_find?_eq_some hf)
    obtain ⟨hge, hbefore⟩ := Cursor.find?_cursors
      (p := fun h : MemoryHole => decide (hole.base ≤ h.base)) hf
    simp only [decide_eq_true_eq, decide_eq_false_iff_not] at hge hbefore
    rw [← hl] at hord hapart
    have hins := hord.insert hne hapart hbefore fun _ he => Option.some.inj he ▸ hge
    rw [List.map_id] at hins
    exact hins

/-! ## §5. Free pages and holes. -/

/-- Page `v` is a user page of no region. -/
def PageFree (as : AddressSpace) (v : Nat) : Prop :=
  (vm_user_base.toNat ≤ 4096 * v ∧ 4096 * v < vm_user_end.toNat)
  ∧ ∀ m ∈ as.mapped_regions, ¬ m.shape.span.Covers (4096 * v)

/-- The `n` pages from `v` on are free. -/
def FreeRun (as : AddressSpace) (v n : Nat) : Prop := ∀ i < n, PageFree as (v + i)

theorem Tiled.pageFree_iff (h : Tiled as) (v : Nat) :
    PageFree as v ↔ 0 < cover (as.memory_holes.map MemoryHole.span) (4096 * v) := by
  have htile := h.tiles (4096 * v)
  rw [cover_spans] at htile
  have hzero : cover ((as.mapped_regions.map MemoryMapping.shape).map MemoryHole.span) (4096 * v) = 0
      ↔ ∀ m ∈ as.mapped_regions, ¬ m.shape.span.Covers (4096 * v) := by
    rw [cover_eq_zero_iff]
    simp only [List.map_map, List.mem_map, Function.comp_apply, forall_exists_index, and_imp,
      forall_apply_eq_imp_iff₂]
  unfold PageFree
  rw [← hzero]
  constructor
  · rintro ⟨hin, h0⟩
    rw [if_pos hin, h0] at htile
    omega
  · intro hpos
    by_cases hin : vm_user_base.toNat ≤ 4096 * v ∧ 4096 * v < vm_user_end.toNat
    · rw [if_pos hin] at htile
      exact ⟨hin, by omega⟩
    · rw [if_neg hin] at htile
      omega

theorem Tiled.hole_of_freeRun (h : Tiled as)
    (hcoal : Coalesced as.memory_holes) {v n : Nat} (hn : n ≠ 0) (hfree : FreeRun as v n) :
    ∃ hole ∈ as.memory_holes, hole.span.lo ≤ 4096 * v ∧ 4096 * (v + n) ≤ hole.span.hi := by
  have haligned : ∀ s ∈ as.memory_holes.map MemoryHole.span, 4096 ∣ s.lo ∧ 4096 ∣ s.hi := by
    intro s hs
    obtain ⟨hole, hmem, rfl⟩ := List.mem_map.mp hs
    have := (h.fits_holes hole hmem).aligned
    simp only [MemoryHole.span, Span.hi]
    omega
  obtain ⟨m, rfl⟩ := Nat.exists_eq_succ_of_ne_zero hn
  obtain ⟨s, hs, hlo, hhi⟩ := hcoal.separated.exists_containing haligned
    (Nat.dvd_mul_right 4096 v) m (fun i hi => by
      rw [← Nat.mul_add]
      exact (h.pageFree_iff (v + i)).mp (hfree i (by omega)))
  obtain ⟨hole, hmem, rfl⟩ := List.mem_map.mp hs
  exact ⟨hole, hmem, hlo, by rw [Nat.mul_add]; exact hhi⟩

/-! ## §6. Requests in a coalesced space. -/

theorem findFree_fold_some (size : U64) :
    ∀ (cs : List (Cursor MemoryHole)) (acc : Option (Cursor MemoryHole) × U64),
      acc.1 ≠ none → (cs.foldl (findFreeStep size) acc).1 ≠ none
  | [], _, h => h
  | c :: cs, acc, h => by
    refine findFree_fold_some size cs _ ?_
    unfold findFreeStep
    split
    · simp
    · exact h

theorem find_free_hole_none :
    as.find_free_hole size = none ↔ ∀ h ∈ as.memory_holes, h.size < size := by
  have key : ∀ cs : List (Cursor MemoryHole),
      (cs.foldl (findFreeStep size) (none, 0)).1 = none ↔ ∀ c ∈ cs, c.elem.size < size := by
    intro cs
    induction cs with
    | nil => simp
    | cons c cs ih =>
      rw [List.foldl_cons]
      have h0 : (0 : U64) ≤ c.elem.base := by simp [BitVec.le_def]
      by_cases hge : size ≤ c.elem.size
      · -- a first candidate is never given up
        have hstep : findFreeStep size (none, 0) c = (some c, c.elem.base) := if_pos ⟨hge, h0⟩
        rw [hstep]
        refine ⟨fun hn => absurd hn (findFree_fold_some size cs _ (by simp)), fun hall => ?_⟩
        exact absurd hge (BitVec.not_le.mpr (hall c List.mem_cons_self))
      · have hstep : findFreeStep size (none, 0) c = (none, 0) := if_neg fun hc => hge hc.1
        rw [hstep, ih, List.forall_mem_cons]
        exact ⟨fun hall => ⟨BitVec.not_le.mp hge, hall⟩, fun hall => hall.2⟩
  unfold AddressSpace.find_free_hole
  rw [key]
  constructor
  · intro hall h hmem
    obtain ⟨c, hc, rfl⟩ := Cursor.exists_cursor_of_mem hmem
    exact hall c hc
  · intro hall c hc
    exact hall _ (Cursor.elem_mem (Cursor.toList_of_mem hc))

variable {σ : Type} {arch : ArchMm σ} {s s' : σ}

theorem mapPages_unbacked (ctx base : U64) (perms cache : BitVec 32) (s : σ) :
    ∀ pages i, (∀ page ∈ pages, page.exists_ = false) →
      AddressSpace.mapPages arch ctx base perms cache i pages s = some ((), s)
  | [], _, _ => rfl
  | page :: pages, i, h => by
    have hpage := h page List.mem_cons_self
    simp only [AddressSpace.mapPages, hpage, Bool.false_eq_true, if_false]
    exact mapPages_unbacked ctx base perms cache s pages (i + 1)
      (fun p hp => h p (List.mem_cons_of_mem page hp))

theorem finish_allocate {as1 : AddressSpace}
    (hb : as.Bound as1 mem base size) (perms cache : BitVec 32) (s : σ) :
    ∃ as', as1.finish arch mem (fun m => m.allocate perms cache) s = some ((base, as'), s) := by
  obtain ⟨m, hinit, hbase, hpages⟩ := MemoryMapping.allocate_new base size perms cache
  rw [← hb.elem] at hinit
  have hfin : as1.finish arch mem (fun m => m.allocate perms cache) s = some ((m.base, _), s) :=
    AddressSpace.finish_apply hinit (mapPages_unbacked _ _ _ _ s m.backing_pages 0 hpages)
  rw [hbase] at hfin
  exact ⟨_, hfin⟩

theorem Taken.freeRun {holes' : List MemoryHole}
    (ht : Taken as.memory_holes holes' base size) (h : Tiled as) :
    FreeRun as (base.toNat / 4096) size.toNat := by
  intro i hi
  have haligned : base.toNat % 4096 = 0 := ht.fits.aligned
  rw [h.pageFree_iff, ← ht.conserved, cover_pos_iff]
  refine ⟨_, List.mem_cons_self, ?_, ?_⟩ <;> simp only [MemoryHole.span, Span.hi] <;> omega

theorem FreeRun.base_ne_zero {n : Nat} (hn : n ≠ 0)
    (h : FreeRun as (base.toNat / 4096) n) : base ≠ 0 := by
  rintro rfl
  have hlo := (h 0 (Nat.pos_of_ne_zero hn)).1.1
  exact absurd hlo (by decide)

/-- Answers to requests of at least one page: `allocate` refuses exactly when
no free range is long enough, `allocate_at` grants exactly the free ranges and
a refusal leaves the regions alone. -/
structure RequestsExact (arch : ArchMm σ) (as : AddressSpace) : Prop where
  allocate : ∀ (n : U64) (perms cache : BitVec 32) (s : σ), n ≠ 0 →
    ∃ r as', as.allocate arch n perms cache s = some ((r, as'), s)
      ∧ (r = 0 ↔ ¬ ∃ v, FreeRun as v n.toNat)
  allocate_at : ∀ (base n : U64) (perms cache : BitVec 32) (s : σ), n ≠ 0 → base ≠ 0 →
    WellPlaced base n →
    ∃ r as', as.allocate_at arch base n perms cache s = some ((r, as'), s)
      ∧ (r = base ↔ FreeRun as (base.toNat / 4096) n.toNat)
      ∧ (¬ FreeRun as (base.toNat / 4096) n.toNat →
          r = 0 ∧ as'.mapped_regions = as.mapped_regions)

theorem allocate_exact (h : Tiled as) (hcoal : Coalesced as.memory_holes)
    (n : U64) (perms cache : BitVec 32) (s : σ) (hn : n ≠ 0) :
    ∃ r as', as.allocate arch n perms cache s = some ((r, as'), s)
      ∧ (r = 0 ↔ ¬ ∃ v, FreeRun as v n.toNat) := by
  have hnNat : n.toNat ≠ 0 := fun he => hn (BitVec.eq_of_toNat_eq he)
  unfold AddressSpace.allocate AddressSpace.placeAnywhere
  cases hf : as.find_free_hole n with
  | none =>
    refine ⟨0, as, rfl, iff_of_true rfl ?_⟩
    rintro ⟨v, hfree⟩
    obtain ⟨hole, hmem, hlo, hhi⟩ := h.hole_of_freeRun hcoal hnNat hfree
    have hsmall := find_free_hole_none.mp hf hole hmem
    rw [BitVec.lt_def] at hsmall
    simp only [MemoryHole.span, Span.hi] at hlo hhi
    omega
  | some hole =>
    obtain ⟨hl, hge⟩ := AddressSpace.find_free_hole_some hf
    have hmem : hole.elem ∈ as.memory_holes := Cursor.elem_mem hl
    have hfits : ∀ x ∈ hole.toList, Fits x := by
      rw [hl]
      exact h.fits_holes
    obtain ⟨as1, mem, hbind⟩ : ∃ as1 mem, as.bind_hole hole n = some (as1, mem) := by
      unfold AddressSpace.bind_hole
      rw [if_pos hge]
      simp only
      split
      · exact ⟨_, _, rfl⟩
      · exact ⟨_, _, rfl⟩
    obtain ⟨base, ht, hb⟩ := bind_hole_taken hfits hbind
    obtain ⟨as', hfin⟩ : ∃ as', as1.finish arch mem (fun m => m.allocate perms cache) s
        = some ((base, as'), s) := finish_allocate hb perms cache s
    rw [hl] at ht
    have hfree := ht.freeRun h
    refine ⟨base, as', ?_, iff_of_false (hfree.base_ne_zero hnNat) ?_⟩
    · simp only [hbind]
      exact hfin
    · exact fun hno => hno ⟨_, hfree⟩

theorem allocate_at_exact (h : Tiled as) (hcoal : Coalesced as.memory_holes)
    (base n : U64) (perms cache : BitVec 32) (s : σ) (hn : n ≠ 0) (hbase : base ≠ 0)
    (hp : WellPlaced base n) :
    ∃ r as', as.allocate_at arch base n perms cache s = some ((r, as'), s)
      ∧ (r = base ↔ FreeRun as (base.toNat / 4096) n.toNat)
      ∧ (¬ FreeRun as (base.toNat / 4096) n.toNat →
          r = 0 ∧ as'.mapped_regions = as.mapped_regions) := by
  have hnNat : n.toNat ≠ 0 := fun he => hn (BitVec.eq_of_toNat_eq he)
  have hmerged : Coalesced as.merge_holes.memory_holes := hcoal.ordered.merge h.fits_holes
  obtain ⟨as1, mem, hbind⟩ : ∃ as1 mem, as.bind_exact base n = some (as1, mem) := by
    unfold AddressSpace.bind_exact
    rw [if_pos ⟨hn, hbase⟩]
    simp only
    split <;> exact ⟨_, _, rfl⟩
  unfold AddressSpace.allocate_at AddressSpace.placeAt
  rw [hbind]
  obtain ⟨-, -, ⟨rfl, rfl, hnone⟩ | ⟨target, m, rfl, htarget, hc, hholes, hb⟩⟩ :=
    AddressSpace.bind_exact_cases hbind
  · have hno : ¬ FreeRun as (base.toNat / 4096) n.toNat := by
      intro hfree
      -- the hole around the range would pass the containment test
      obtain ⟨hole, hmem, hlo, hhi⟩ := h.merge.hole_of_freeRun hmerged hnNat hfree
      have hcontains : AddressSpace.holeContains base n hole = true := by
        unfold AddressSpace.holeContains
        have haligned := hp.1
        simp only [MemoryHole.span, Span.hi] at hlo hhi
        simp only [Bool.and_eq_true, decide_eq_true_eq, ge_iff_le, BitVec.le_def,
          (h.merge.fits_holes hole hmem).toNat_end, toNat_add_pages hp.2]
        omega
      rw [hnone hole hmem] at hcontains
      cases hcontains
    exact ⟨0, as.merge_holes, rfl, iff_of_false hbase.symm hno, fun _ => ⟨rfl, rfl⟩⟩
  · have hl := Cursor.toList_of_mem htarget
    have hfits : ∀ x ∈ target.toList, Fits x := by
      rw [hl]
      exact h.merge.fits_holes
    have ht := carve_taken hfits hp hc
    rw [hl] at ht
    have hfree : FreeRun as (base.toNat / 4096) n.toNat := ht.freeRun h.merge
    obtain ⟨as', hfin⟩ : ∃ as', as1.finish arch m (fun m => m.allocate perms cache) s
        = some ((base, as'), s) := finish_allocate hb perms cache s
    exact ⟨base, as', hfin, iff_of_true rfl hfree, fun hno => absurd hfree hno⟩

theorem requestsExact_of_coalesced (h : Tiled as)
    (hcoal : Coalesced as.memory_holes) : RequestsExact arch as :=
  ⟨allocate_exact h hcoal, allocate_at_exact h hcoal⟩

/-! ## §7. Runs. -/

def KeepsOrder (s : AddressSpace × σ) : VmOp → Prop
  | .destroy region => ∀ c, Cursor.at? s.1.mapped_regions region = some c →
      c.elem.size ≠ 0
      ∧ (s.1.memory_holes = [] ∨ ∃ h ∈ s.1.memory_holes, c.elem.base ≤ h.base)
  | op => op.Placed

theorem KeepsOrder.placed {s : AddressSpace × σ} {op : VmOp} (h : KeepsOrder s op) :
    op.Placed := by
  cases op with
  | destroy region => exact trivial
  | allocate size perms cache => exact h
  | map address size perms cache => exact h
  | allocate_at base size perms cache => exact h
  | map_at base address size perms cache => exact h

theorem coalesced_finish
    (h : Coalesced as.memory_holes) (hfin : as.finish arch mem init s = some ((r, as'), s')) :
    Coalesced as'.memory_holes := by
  obtain ⟨m, m', -, -, -, rfl⟩ := AddressSpace.finish_cases hfin
  exact h

theorem coalesced_placeAnywhere (h : Coalesced as.memory_holes)
    (hp : as.placeAnywhere arch size init s = some ((r, as'), s')) :
    Coalesced as'.memory_holes := by
  rcases AddressSpace.placeAnywhere_cases hp with ⟨-, -, rfl, -⟩ | ⟨hole, as1, mem, hf, hb, hfin⟩
  · exact h
  · rw [← (AddressSpace.find_free_hole_some hf).1] at h
    exact coalesced_finish (bind_hole_coalesced h hb) hfin

theorem coalesced_placeAt (ht : Tiled as)
    (h : Coalesced as.memory_holes) (hplaced : WellPlaced base size)
    (hp : as.placeAt arch base size init s = some ((r, as'), s')) :
    Coalesced as'.memory_holes := by
  have hmerged : Coalesced as.merge_holes.memory_holes := h.ordered.merge ht.fits_holes
  rcases AddressSpace.placeAt_cases hp with ⟨hb, -, -⟩ | ⟨as1, mem, hb, hfin⟩
  · obtain ⟨-, -, ⟨-, rfl, -⟩ | ⟨_, _, he, -⟩⟩ := AddressSpace.bind_exact_cases hb
    · exact hmerged
    · cases he
  · obtain ⟨hsize, -, ⟨he, -⟩ | ⟨target, m, -, htarget, hc, hholes, -⟩⟩ :=
      AddressSpace.bind_exact_cases hb
    · cases he
    · have hl := Cursor.toList_of_mem htarget
      have hfits : ∀ x ∈ target.toList, Fits x := by
        rw [hl]
        exact ht.merge.fits_holes
      rw [← hl] at hmerged
      have hcarved := carve_coalesced hmerged hfits hplaced hsize hc
      rw [← hholes] at hcarved
      exact coalesced_finish hcarved hfin

theorem Tiled.apart (h : Tiled as) (hcoal : Coalesced as.memory_holes)
    {m : MemoryMapping} (hm : m ∈ as.mapped_regions) (hsize : m.size ≠ 0) :
    ∀ x ∈ as.memory_holes, x.span.hi ≤ m.shape.span.lo ∨ m.shape.span.hi ≤ x.span.lo := by
  intro x hx
  have hdis := h.tiles.pairwise_disjoint
  unfold AddressSpace.spans AddressSpace.entries at hdis
  rw [List.map_append, List.pairwise_append] at hdis
  refine le_or_le_of_disjoint ?_ (hcoal.nonempty x hx) (span_lo_lt_hi hsize)
  exact hdis.2.2 _ (List.mem_map_of_mem hx) _ (List.mem_map_of_mem (List.mem_map_of_mem hm))

theorem coalesced_unbind {region : Cursor MemoryMapping} (h : Tiled as)
    (hcoal : Coalesced as.memory_holes) (hl : region.toList = as.mapped_regions)
    (hsize : region.elem.size ≠ 0)
    (hplace : as.memory_holes = [] ∨ ∃ x ∈ as.memory_holes, region.elem.base ≤ x.base) :
    Coalesced (as.unbind_region region).memory_holes := by
  have hmem : region.elem ∈ as.mapped_regions := Cursor.elem_mem hl
  have hord : Ordered (as.putHole region.elem.shape).memory_holes :=
    putHole_ordered hcoal.ordered h.fits_holes (span_lo_lt_hi hsize)
      (h.apart hcoal hmem hsize) hplace
  refine hord.merge fun x hx => ?_
  rcases List.mem_cons.mp ((as.putHole_perm region.elem.shape).mem_iff.mp hx) with rfl | hx
  · exact h.fits_regions _ hmem
  · exact h.fits_holes x hx

theorem coalesced_step {s s' : AddressSpace × σ} {op : VmOp} (ht : Tiled s.1)
    (h : Coalesced s.1.memory_holes) (hop : KeepsOrder s op)
    (hs : vmStep arch s op = some s') : Coalesced s'.1.memory_holes := by
  rcases vmStep_cases hs with ⟨_, _, _, -, -, hcall⟩ | ⟨_, _, _, _, -, hplaced, hcall⟩
    | ⟨region, c, rfl, hc, hcall⟩
  · exact coalesced_placeAnywhere h hcall
  · exact coalesced_placeAt ht h (hplaced hop.placed) hcall
  · obtain ⟨hsize, hplace⟩ := hop c hc
    obtain ⟨-, he, -⟩ := AddressSpace.destroy_cases hcall
    rw [he]
    exact coalesced_unbind ht h (Cursor.toList_of_at? hc) hsize hplace

theorem coalesced_new
    (h : AddressSpace.new arch s = some (as, s')) : Coalesced as.memory_holes := by
  simp only [AddressSpace.new, Prog.bind_eq_some, Prog.pure_eq_some] at h
  obtain ⟨ctx, t, -, rfl, -⟩ := h
  refine ⟨fun x hx => ?_, List.pairwise_singleton _ _⟩
  rw [List.mem_singleton.mp hx]
  decide

/-- **Memory that is free can be had**, in every state reached by a run whose
calls all keep the holes in order: `allocate` refuses only if no free range is
long enough, and `allocate_at` grants exactly the free ranges. -/
theorem requests_exact_of_keeps_order (arch : ArchMm σ) (s0 s1 : σ) (as0 : AddressSpace)
    (hnew : AddressSpace.new arch s0 = some (as0, s1)) (ops : List VmOp)
    (hops : Along (vmStep arch) KeepsOrder (as0, s1) ops) (s : AddressSpace × σ)
    (hrun : run (vmStep arch) (as0, s1) ops = some s) : RequestsExact arch s.1 := by
  have hinv : Tiled s.1 ∧ Coalesced s.1.memory_holes :=
    Along.invariant (vmStep arch) (fun s => Tiled s.1 ∧ Coalesced s.1.memory_holes)
      (fun _ _ _ h hop hs => ⟨h.1.step hop.placed hs, coalesced_step h.1 h.2 hop hs⟩)
      ops (as0, s1) s ⟨Tiled.new hnew, coalesced_new hnew⟩ hops hrun
  exact requestsExact_of_coalesced hinv.1 hinv.2

theorem keeps_order_middle_page : Along (vmStep bumpArch) KeepsOrder (bumpSpace, 0)
    [.allocate_at 0x5000 1 3 0, .destroy 0] := by
  have hmid : (vmStep bumpArch (bumpSpace, 0) (.allocate_at 0x5000 1 3 0)).map
      (fun s => (s.1.memory_holes, s.1.mapped_regions.map MemoryMapping.shape))
      = some ([⟨0x1000, 4⟩, ⟨0x6000, 34359738362⟩], [⟨0x5000, 1⟩]) := by decide +kernel
  refine ⟨⟨by decide, by decide⟩, fun s' hs' => ⟨fun c hc => ?_, fun _ _ => trivial⟩⟩
  rw [hs'] at hmid
  simp only [Option.map_some, Option.some.injEq, Prod.mk.injEq] at hmid
  obtain ⟨hholes, hshapes⟩ := hmid
  have hc' : c.elem.shape = ⟨0x5000, 1⟩ := by
    have hmem := List.mem_map_of_mem (f := MemoryMapping.shape) c.mem_toList
    rw [Cursor.toList_of_at? hc, hshapes] at hmem
    exact List.mem_singleton.mp hmem
  have hsize : c.elem.size = 1 := congrArg MemoryHole.size hc'
  have hbase : c.elem.base = 0x5000 := congrArg MemoryHole.base hc'
  rw [hsize, hbase, hholes]
  exact ⟨by decide, Or.inr ⟨⟨0x6000, 34359738362⟩, by simp, by decide⟩⟩

/-- One page in the middle, taken and given back. -/
theorem requests_exact_of_keeps_order_middle_page :
    ∃ s, run (vmStep bumpArch) (bumpSpace, 0) [.allocate_at 0x5000 1 3 0, .destroy 0] = some s
      ∧ RequestsExact bumpArch s.1 := by
  have heval : (run (vmStep bumpArch) (bumpSpace, 0)
      [.allocate_at 0x5000 1 3 0, .destroy 0]).isSome = true := by decide +kernel
  obtain ⟨s, hrun⟩ := Option.isSome_iff_exists.mp heval
  exact ⟨s, hrun, requests_exact_of_keeps_order bumpArch 0 0 bumpSpace rfl _
    keeps_order_middle_page s hrun⟩

/-- **The top page.**  Allocate one page (the last of the user range) and
destroy it: all pages are free, but its hole stands in front of the other one,
the two never merge, and the whole range cannot be allocated. -/
theorem freed_top_page_never_merges :
    ¬ ∀ (ops : List VmOp) (s : AddressSpace × U64), (∀ op ∈ ops, op.Placed) →
        run (vmStep bumpArch) (bumpSpace, 0) ops = some s → RequestsExact bumpArch s.1 := by
  intro h
  have heval : (run (vmStep bumpArch) (bumpSpace, 0) [.allocate 1 3 0, .destroy 0]).map
      (fun s => (s.1.memory_holes, s.1.mapped_regions.length,
        (s.1.allocate bumpArch 34359738367 3 0 0).map (fun r => r.1.1)))
      = some ([⟨0x7FFFFFFFF000, 1⟩, ⟨0x1000, 34359738366⟩], 0, some 0) := by decide +kernel
  obtain ⟨s, hrun, hs⟩ := Option.map_eq_some_iff.mp heval
  simp only [Prod.mk.injEq] at hs
  obtain ⟨-, hregions, hanswer⟩ := hs
  have hplaced : ∀ op ∈ [VmOp.allocate 1 3 0, VmOp.destroy 0], op.Placed := by
    intro op hop
    simp only [List.mem_cons, List.not_mem_nil, or_false] at hop
    rcases hop with rfl | rfl <;> trivial
  obtain ⟨r, as', hcall, hiff⟩ := (h _ s hplaced hrun).allocate 34359738367 3 0 0 (by decide)
  rw [hcall] at hanswer
  simp only [Option.map_some, Option.some.injEq] at hanswer
  refine hiff.mp hanswer ⟨1, fun i hi => ⟨⟨?_, ?_⟩, ?_⟩⟩
  · have hlo : vm_user_base.toNat = 4096 := rfl
    omega
  · have hn : (34359738367 : U64).toNat = 34359738367 := rfl
    rw [toNat_user_end]
    omega
  · rw [List.length_eq_zero_iff.mp hregions]
    exact fun m hm => absurd hm List.not_mem_nil

end Quack.Mm
