/-
  Quack.Arch.TableDemand
  **HOW MANY FRAMES A MAPPING TAKES, EXACTLY.**

  `vmm_map_page` allocates a frame for each table missing on the way to its page.
  `tablesMissing` counts the tables missing on the way to a set of pages, and
  `Demands` says of a step that it took exactly those frames and left exactly
  those paths in place.  Steps that follow one another add up: a table made for
  one page is there for the next.
-/
import Quack.Arch.Supply

namespace Quack.Arch

open Lib

variable {κ : Type}

/-! ## §1. Missing tables. -/

/-- The paths of the tables on the way to page `v`. -/
def pathsTo (v : Nat) : Finset (List Nat) :=
  {(pagePath v).take 1, (pagePath v).take 2, pagePath v}

/-- The paths on which root `r` has no table yet. -/
def missingPaths (m : Machine) (r : Nat) (paths : Finset (List Nat)) : Finset (List Nat) :=
  {p ∈ paths | Forest.walk child m.slot r p = none}

/-- The number of tables missing on the way to the pages. -/
def tablesMissing (m : Machine) (r : Nat) (pages : Finset Nat) : Nat :=
  (missingPaths m r (pages.biUnion pathsTo)).card

theorem mem_missingPaths {m : Machine} {r : Nat} {paths : Finset (List Nat)} {p : List Nat} :
    p ∈ missingPaths m r paths ↔ p ∈ paths ∧ Forest.walk child m.slot r p = none := by
  unfold missingPaths
  rw [Finset.mem_filter]

theorem inner_pathsTo {v : Nat} (hv : v < 2 ^ 35) {p : List Nat} (hp : p ∈ pathsTo v) :
    Forest.Inner LowerSlot p := by
  obtain ⟨hp1, hp2, hp3⟩ := inner_levels hv
  unfold pathsTo at hp
  simp only [Finset.mem_insert, Finset.mem_singleton] at hp
  rcases hp with rfl | rfl | rfl
  · exact hp1
  · exact hp2
  · exact hp3

theorem pathsTo_eq (v : Nat) : pathsTo v = {[] ++ [v / 2 ^ 27 % 512]}
    ∪ ({([] ++ [v / 2 ^ 27 % 512]) ++ [v / 2 ^ 18 % 512]} ∪ {pagePath v}) := rfl

theorem inner_singleton {p : List Nat} (hp : Forest.Inner LowerSlot p) :
    ∀ q ∈ ({p} : Finset (List Nat)), Forest.Inner LowerSlot q := by
  intro q hq
  rw [Finset.mem_singleton.mp hq]
  exact hp

theorem inner_biUnion {pages : Finset Nat} (hpages : ∀ w ∈ pages, w < 2 ^ 35) :
    ∀ q ∈ pages.biUnion pathsTo, Forest.Inner LowerSlot q := by
  intro q hq
  obtain ⟨w, hw, hq⟩ := Finset.mem_biUnion.mp hq
  exact inner_pathsTo (hpages w hw) hq

/-- The step from `m` to `m'` makes the tables of root `r` on the given paths, one
frame for each that was missing, and takes no other. -/
structure Demands (r : Nat) (paths : Finset (List Nat)) (m m' : Machine) : Prop where
  len : m'.pmm_bitmap_len = m.pmm_bitmap_len
  frames : freeFrames m' + (missingPaths m r paths).card = freeFrames m
  walks : ∀ q, Forest.Inner LowerSlot q →
    (Forest.walk child m'.slot r q = none ↔ Forest.walk child m.slot r q = none ∧ q ∉ paths)
  keeps : ∀ q f, Forest.Inner LowerSlot q → Forest.walk child m.slot r q = some f →
    Forest.walk child m'.slot r q = some f
  taken : ∀ f, f < m.pmm_bitmap_len → m'.bit f = true →
    m.bit f = true ∨ ∃ q ∈ paths, Forest.walk child m'.slot r q = some f

section Demand

variable {r k : Nat} {m m' m'' : Machine} {G G' : Ledger κ} {P Q : Finset (List Nat)}

theorem Demands.nothing (hlen : m'.pmm_bitmap_len = m.pmm_bitmap_len)
    (hbit : ∀ f, f < m.pmm_bitmap_len → m'.bit f = m.bit f)
    (hwalk : ∀ q, Forest.Inner LowerSlot q →
      Forest.walk child m'.slot r q = Forest.walk child m.slot r q) : Demands r ∅ m m' where
  len := hlen
  frames := by rw [freeFrames_congr hlen hbit]; rfl
  walks q hq := by simp [hwalk q hq]
  keeps q f hq hf := by rw [hwalk q hq, hf]
  taken f hf hm := Or.inl (by rw [← hbit f hf, hm])

theorem Demands.missing (h : Demands r P m m') (hQ : ∀ q ∈ Q, Forest.Inner LowerSlot q) :
    missingPaths m' r Q = missingPaths m r (Q \ P) := by
  ext q
  rw [mem_missingPaths, mem_missingPaths, Finset.mem_sdiff]
  constructor
  · rintro ⟨hq, hnone⟩
    obtain ⟨hm, hP⟩ := (h.walks q (hQ q hq)).mp hnone
    exact ⟨⟨hq, hP⟩, hm⟩
  · rintro ⟨⟨hq, hP⟩, hm⟩
    exact ⟨hq, (h.walks q (hQ q hq)).mpr ⟨hm, hP⟩⟩

theorem missingPaths_union (m : Machine) (r : Nat) (P Q : Finset (List Nat)) :
    (missingPaths m r (P ∪ Q)).card
      = (missingPaths m r P).card + (missingPaths m r (Q \ P)).card := by
  rw [← Finset.card_union_of_disjoint]
  · congr 1
    ext q
    simp only [Finset.mem_union, mem_missingPaths, Finset.mem_sdiff]
    tauto
  · refine Finset.disjoint_left.mpr fun q hP hQ => ?_
    exact (Finset.mem_sdiff.mp (mem_missingPaths.mp hQ).1).2 (mem_missingPaths.mp hP).1

theorem missingPaths_le_left : (missingPaths m r P).card ≤ (missingPaths m r (P ∪ Q)).card := by
  rw [missingPaths_union]
  omega

theorem Demands.spend (h : Demands r P m m') (hQ : ∀ q ∈ Q, Forest.Inner LowerSlot q) :
    (missingPaths m r (P ∪ Q)).card + freeFrames m'
      = (missingPaths m' r Q).card + freeFrames m := by
  have hframes := h.frames
  rw [missingPaths_union, h.missing hQ]
  omega

theorem Demands.enough (h : Demands r P m m') (hQ : ∀ q ∈ Q, Forest.Inner LowerSlot q)
    (hle : (missingPaths m r (P ∪ Q)).card ≤ freeFrames m) :
    (missingPaths m' r Q).card ≤ freeFrames m' := by
  have hspend := h.spend hQ
  omega

theorem Demands.trans (h : Demands r P m m') (h' : Demands r Q m' m'')
    (hP : ∀ q ∈ P, Forest.Inner LowerSlot q) (hQ : ∀ q ∈ Q, Forest.Inner LowerSlot q) :
    Demands r (P ∪ Q) m m'' where
  len := by rw [h'.len, h.len]
  frames := by
    have hspend := h.spend hQ
    have hframes := h'.frames
    omega
  walks q hq := by
    rw [h'.walks q hq, h.walks q hq, Finset.mem_union, not_or, and_assoc]
  keeps q f hq hf := h'.keeps q f hq (h.keeps q f hq hf)
  taken f hf hbit := by
    rcases h'.taken f (by rw [h.len]; exact hf) hbit with hbit | ⟨q, hq, hw⟩
    · refine (h.taken f hf hbit).imp id fun ⟨q, hq, hw⟩ => ?_
      exact ⟨q, Finset.mem_union_left _ hq, h'.keeps q f (hP q hq) hw⟩
    · exact Or.inr ⟨q, Finset.mem_union_right _ hq, hw⟩

variable {q : List Nat}

theorem missingPaths_singleton_some {f : Nat}
    (hw : Forest.walk child m.slot r q = some f) : missingPaths m r {q} = ∅ := by
  unfold missingPaths
  rw [Finset.filter_singleton, if_neg (by rw [hw]; exact Option.some_ne_none f)]

theorem missingPaths_singleton_none
    (hw : Forest.walk child m.slot r q = none) : missingPaths m r {q} = {q} := by
  unfold missingPaths
  rw [Finset.filter_singleton, if_pos hw]

theorem Demands.present {f : Nat}
    (hw : Forest.walk child m.slot r q = some f) : Demands r {q} m m where
  len := rfl
  frames := by rw [missingPaths_singleton_some hw]; rfl
  walks q' _ := by
    refine ⟨fun hnone => ⟨hnone, ?_⟩, fun h => h.1⟩
    rw [Finset.mem_singleton]
    rintro rfl
    rw [hw] at hnone
    cases hnone
  keeps _ _ _ h := h
  taken _ _ h := Or.inl h

theorem Enter.demands {f i c : Nat} {p : List Nat} (he : Enter m f i m' c) (hA : Accounted k m G)
    (hr : G r = some (.table r [])) (hp : Forest.Inner LowerSlot (p ++ [i]))
    (hw : Forest.walk child m.slot r p = some f) : Demands r {p ++ [i]} m m' := by
  obtain ⟨hp', hslot⟩ := hp.snoc
  have hf := hA.walk_typed hr hp' hw
  have hwalk : Forest.walk child m.slot r (p ++ [i]) = child (m.slot f i) := by
    rw [Forest.walk_snoc, hw]
    rfl
  cases he with
  | present _ hc => exact Demands.present (hwalk.trans hc)
  | linked _ hnone hlow hlen hwin hbit =>
    have hbits : ∀ j, j < m.pmm_bitmap_len →
        (m.link f i c).bit j = if j = c then true else m.bit j := fun j hj =>
      m.link_bit hslot.2.1 hj (hA.managed f _ hf).bitmap (hA.not_bitmapFrame hlen hbit)
    -- the linked path itself has a walk now
    obtain ⟨G', -, -, hself, -⟩ :=
      (Enter.linked c hnone hlow hlen hwin hbit).accounted hA hr hp hw
    refine ⟨(m.link_vars f i c).len, ?_, ?_, ?_, ?_⟩
    · rw [missingPaths_singleton_none (hwalk.trans hnone), Finset.card_singleton]
      exact freeFrames_take (mem_freeSet.mpr ⟨hlow, hlen, hwin, hbit⟩) (m.link_vars f i c).len
        hbits
    · intro q hq
      rw [Finset.mem_singleton]
      rcases hA.link_walk hf hslot hnone hlen hwin hbit hr hq with hsame | ⟨-, rfl, -, hc⟩
      · rw [hsame]
        refine ⟨fun h => ⟨h, ?_⟩, fun h => h.1⟩
        rintro rfl
        rw [← hsame, hself] at h
        cases h
      · rw [hc]
        simp
    · intro q g hq hg
      rcases hA.link_walk hf hslot hnone hlen hwin hbit hr hq with hsame | ⟨-, -, hnew, -⟩
      · rw [hsame, hg]
      · rw [hnew] at hg
        cases hg
    · intro g hg hset
      rw [hbits g hg] at hset
      by_cases hgc : g = c
      · subst hgc
        exact Or.inr ⟨p ++ [i], Finset.mem_singleton_self _, hself⟩
      · rw [if_neg hgc] at hset
        exact Or.inl hset

theorem enter_returns {f i : Nat} {p : List Nat} (hA : Accounted k m G)
    (hr : G r = some (.table r [])) (hp : Forest.Inner LowerSlot (p ++ [i]))
    (hw : Forest.walk child m.slot r p = some f)
    (hfree : (missingPaths m r {p ++ [i]}).card ≤ freeFrames m) :
    ∃ m' c, vmm_get_or_alloc_ent (some (4096 * f)) i higher_perms m = some (some (4096 * c), m')
      ∧ Enter m f i m' c := by
  obtain ⟨hp', hslot⟩ := hp.snoc
  have hwin := (hA.managed f _ (hA.walk_typed hr hp' hw)).window
  have hsupply : child (m.slot f i) ≠ none ∨ 0 < freeFrames m := by
    cases hc : child (m.slot f i) with
    | some c => exact Or.inl (Option.some_ne_none c)
    | none =>
      have hnone : Forest.walk child m.slot r (p ++ [i]) = none := by
        rw [Forest.walk_snoc, hw]
        exact hc
      rw [missingPaths_singleton_none hnone, Finset.card_singleton] at hfree
      exact Or.inr hfree
  obtain ⟨t, m', hrun⟩ := vmm_get_or_alloc_ent_returns hA hwin hslot.2.1 hsupply
  obtain ⟨c, rfl, he⟩ := vmm_get_or_alloc_ent_spec hA.bitmap_len_le hrun
  exact ⟨m', c, hrun, he⟩

theorem Accounted.write_leaf_demands (hA : Accounted k m G) (hr : G r = some (.table r []))
    {v pt : Nat} (hv : v < 2 ^ 35)
    (ht : Forest.walk child m.slot r (pagePath v) = some pt) (ent : U64) :
    Demands r ∅ m (m.setWord (512 * pt + v % 512) ent) := by
  obtain ⟨-, htouch, -⟩ := hA.write_leaf hr hv ht ent
  have hpt := hA.walk_typed hr (inner_pagePath hv) ht
  refine Demands.nothing htouch.vars.len htouch.bit_eq fun q hq => ?_
  refine hA.walk_congr hr (fun f p i hf hi => ?_) hq
  rw [m.setWord_slot ent (Nat.mod_lt _ (by decide)) hi.2.1, if_neg]
  -- a leaf is below the last level of tables
  rintro ⟨rfl, -⟩
  rw [hpt] at hf
  injection hf with hf
  injection hf with _ hpath
  have hshort := hi.1
  rw [← hpath] at hshort
  simp [pagePath] at hshort

end Demand

/-! ## §2. One page. -/

section Page

variable {k r : Nat} {m m' : Machine} {G : Ledger κ} {pml4 virt phys perms : U64}

theorem vmm_map_page_demands (hA : Accounted k m G) (hr : G r = some (.table r [])) {u : Unit}
    (hpml4 : pml4.toNat = 4096 * r) (hv : pageOf virt < 2 ^ 35)
    (hrun : vmm_map_page pml4 virt phys perms m = some (u, m')) :
    Demands r (pathsTo (pageOf virt)) m m' := by
  obtain ⟨hp1, hp2, hp3⟩ := inner_levels hv
  obtain ⟨m1, c1, m2, c2, m3, c3, e1, e2, e3, rfl⟩ :=
    vmm_map_page_spec hA.bitmap_len_le hpml4 hrun
  obtain ⟨G1, hA1, ht1, w1, -⟩ := e1.accounted hA hr hp1 rfl
  obtain ⟨G2, hA2, ht2, w2, -⟩ := e2.accounted hA1 (ht1.ext r _ hr) hp2 w1
  obtain ⟨G3, hA3, ht3, w3, -⟩ := e3.accounted hA2 (ht2.ext r _ (ht1.ext r _ hr)) hp3 w2
  have hr3 := ht3.ext r _ (ht2.ext r _ (ht1.ext r _ hr))
  have d1 := e1.demands hA hr hp1 rfl
  have d2 := e2.demands hA1 (ht1.ext r _ hr) hp2 w1
  have d3 := e3.demands hA2 (ht2.ext r _ (ht1.ext r _ hr)) hp3 w2
  have d4 := hA3.write_leaf_demands hr3 hv w3 (phys ||| perms ||| VMM_FLAG_PRESENT)
  -- the four steps, from the last one up
  have h3 := d3.trans d4 (inner_singleton hp3) (fun q hq => absurd hq (Finset.notMem_empty q))
  rw [Finset.union_empty] at h3
  have h2 := d2.trans h3 (inner_singleton hp2) (inner_singleton hp3)
  exact d1.trans h2 (inner_singleton hp1) fun q hq =>
    (Finset.mem_union.mp hq).elim (inner_singleton hp2 q) (inner_singleton hp3 q)

theorem vmm_map_page_returns_iff (hA : Accounted k m G) (hr : G r = some (.table r []))
    (hpml4 : pml4.toNat = 4096 * r) (hv : pageOf virt < 2 ^ 35) :
    (∃ m', vmm_map_page pml4 virt phys perms m = some ((), m'))
      ↔ (missingPaths m r (pathsTo (pageOf virt))).card ≤ freeFrames m := by
  constructor
  · rintro ⟨m', hrun⟩
    have hframes := (vmm_map_page_demands hA hr hpml4 hv hrun).frames
    omega
  · intro hle
    obtain ⟨hp1, hp2, hp3⟩ := inner_levels hv
    rw [pathsTo_eq] at hle
    obtain ⟨m1, c1, run1, e1⟩ := enter_returns hA hr hp1 rfl (missingPaths_le_left.trans hle)
    obtain ⟨G1, hA1, ht1, w1, -⟩ := e1.accounted hA hr hp1 rfl
    have hr1 := ht1.ext r _ hr
    -- what is left is enough for the tables below
    have hle1 := (e1.demands hA hr hp1 rfl).enough (fun q hq =>
      (Finset.mem_union.mp hq).elim (inner_singleton hp2 q) (inner_singleton hp3 q)) hle
    obtain ⟨m2, c2, run2, e2⟩ := enter_returns hA1 hr1 hp2 w1 (missingPaths_le_left.trans hle1)
    obtain ⟨G2, hA2, ht2, w2, -⟩ := e2.accounted hA1 hr1 hp2 w1
    have hr2 := ht2.ext r _ hr1
    have hle2 := (e2.demands hA1 hr1 hp2 w1).enough (inner_singleton hp3) hle1
    obtain ⟨m3, c3, run3, e3⟩ := enter_returns hA2 hr2 hp3 w2 hle2
    obtain ⟨G3, hA3, ht3, w3, -⟩ := e3.accounted hA2 hr2 hp3 w2
    have hc3 := (hA3.managed c3 _ (hA3.walk_typed (ht3.ext r _ hr2) hp3 w3)).window
    simp only [vmm_map_page, vmm_virt_to_offs_eq, ctxTable, hpml4]
    rw [Prog.bind_apply run1, Prog.bind_apply run2, Prog.bind_apply run3]
    exact ⟨_, writeEnt_returns hc3 (Nat.mod_lt _ (by decide)) _⟩

theorem vmm_map_page_then_iff {P : Machine → Prop} {pages : Finset Nat} (left : Nat)
    (hA : Accounted k m G) (hr : G r = some (.table r [])) (hpml4 : pml4.toNat = 4096 * r)
    (hv : pageOf virt < 2 ^ 35) (hpages : ∀ w ∈ pages, w < 2 ^ 35)
    (hP : ∀ m' G', vmm_map_page pml4 virt phys perms m = some ((), m') → Accounted k m' G' →
      Touches r m G m' G' → (P m' ↔ tablesMissing m' r pages + left ≤ freeFrames m')) :
    (∃ m', vmm_map_page pml4 virt phys perms m = some ((), m') ∧ P m')
      ↔ tablesMissing m r (insert (pageOf virt) pages) + left ≤ freeFrames m := by
  have hafter : ∀ m', vmm_map_page pml4 virt phys perms m = some ((), m') →
      (P m' ↔ tablesMissing m r (insert (pageOf virt) pages) + left ≤ freeFrames m) := by
    intro m' hrun
    obtain ⟨G', hA', ht, -, -⟩ := vmm_map_page_touches hA hr hpml4 hv hrun
    have hspend := (vmm_map_page_demands hA hr hpml4 hv hrun).spend (inner_biUnion hpages)
    rw [hP m' G' hrun hA' ht]
    unfold tablesMissing
    rw [Finset.biUnion_insert]
    omega
  constructor
  · rintro ⟨m', hrun, hrest⟩
    exact (hafter m' hrun).mp hrest
  · intro hle
    have hone : (missingPaths m r (pathsTo (pageOf virt))).card ≤ freeFrames m := by
      unfold tablesMissing at hle
      rw [Finset.biUnion_insert, missingPaths_union] at hle
      omega
    obtain ⟨m', hrun⟩ := (vmm_map_page_returns_iff hA hr hpml4 hv).mpr hone
    exact ⟨m', hrun, (hafter m' hrun).mpr hle⟩

end Page

/-! ## §3. Pages in a row. -/

section Row

variable {k r : Nat}

theorem row_succ (v count : Nat) :
    Finset.Ico v (v + (count + 1)) = insert v (Finset.Ico (v + 1) (v + 1 + count)) := by
  ext w
  rw [Finset.mem_insert, Finset.mem_Ico, Finset.mem_Ico]
  omega

theorem row_lt {v count : Nat} (h : v + count ≤ 2 ^ 35) :
    ∀ w ∈ Finset.Ico v (v + count), w < 2 ^ 35 := by
  intro w hw
  have := Finset.mem_Ico.mp hw
  omega

theorem vmm_map_pages_returns_iff {pml4 : U64} (hpml4 : pml4.toNat = 4096 * r) (count : Nat)
    (virt phys perms : U64) (m : Machine) (G : Ledger κ) (hA : Accounted k m G)
    (hr : G r = some (.table r [])) (hrow : pageOf virt + count ≤ 2 ^ 35) :
    ((∃ m', vmm_map_pages pml4 virt phys count perms m = some (1, m'))
      ↔ tablesMissing m r (Finset.Ico (pageOf virt) (pageOf virt + count)) ≤ freeFrames m) := by
  induction count generalizing virt phys m G with
  | zero =>
    refine ⟨fun _ => ?_, fun _ => ⟨m, rfl⟩⟩
    simp [tablesMissing, missingPaths]
  | succ count ih =>
    have hv : pageOf virt < 2 ^ 35 := by omega
    have hsucc := pageOf_succ hv
    have hfirst : (∃ m', vmm_map_pages pml4 virt phys (count + 1) perms m = some (1, m'))
        ↔ ∃ m1, vmm_map_page pml4 virt phys perms m = some ((), m1)
          ∧ ∃ m', vmm_map_pages pml4 (virt + 0x1000) (phys + 0x1000) count perms m1
            = some (1, m') := by
      constructor
      · rintro ⟨m', hrun⟩
        obtain ⟨_, m1, hpage, hpages⟩ := Prog.bind_eq_some.mp hrun
        exact ⟨m1, hpage, m', hpages⟩
      · rintro ⟨m1, hpage, m', hpages⟩
        exact ⟨m', (Prog.bind_apply hpage).trans hpages⟩
    rw [hfirst, row_succ]
    refine vmm_map_page_then_iff 0 hA hr hpml4 hv (row_lt (by omega)) fun m' G' _ hA' ht => ?_
    rw [← hsucc]
    exact ih (virt + 0x1000) (phys + 0x1000) m' G' hA' (ht.ext r _ hr) (by rw [hsucc]; omega)

theorem windowMap_returns_iff {left : Nat} (pages : List Mm.BackingPage) (virt : U64) (m : Machine)
    (G : Ledger κ) (hA : Accounted k m G) (hk : m.kernel_pml4.toNat = 4096 * k)
    (hfits : pageOf virt + pages.length ≤ 2 ^ 35) :
    (∃ m', windowMap virt pages m = some ((), m') ∧ left ≤ freeFrames m')
      ↔ tablesMissing m k (Finset.Ico (pageOf virt) (pageOf virt + pages.length)) + left
        ≤ freeFrames m := by
  induction pages generalizing virt m G with
  | nil => simp [windowMap, tablesMissing, missingPaths, Prog.pure_eq_some]
  | cons page pages ih =>
    rw [List.length_cons] at hfits ⊢
    have hv : pageOf virt < 2 ^ 35 := by omega
    have hsucc := pageOf_succ hv
    have hfirst : (∃ m', windowMap virt (page :: pages) m = some ((), m') ∧ left ≤ freeFrames m')
        ↔ ∃ m1, vmm_map_page m.kernel_pml4 virt page.ptr VMM_FLAG_WRITE m = some ((), m1)
          ∧ ∃ m', windowMap (virt + 0x1000) pages m1 = some ((), m') ∧ left ≤ freeFrames m' := by
      constructor
      · rintro ⟨m', hrun, hleft⟩
        obtain ⟨_, _, ⟨rfl, rfl⟩, hrun⟩ := Prog.bind_eq_some.mp hrun
        obtain ⟨_, m1, hpage, hpages⟩ := Prog.bind_eq_some.mp hrun
        exact ⟨m1, vmm_map_pages_one hpage, m', hpages, hleft⟩
      · rintro ⟨m1, hpage, m', hpages, hleft⟩
        refine ⟨m', ?_, hleft⟩
        unfold windowMap
        rw [Prog.bind_apply (Prog.read_eq_some.mpr ⟨rfl, rfl⟩),
          Prog.bind_apply (vmm_map_pages_one_apply hpage)]
        exact hpages
    rw [hfirst, row_succ]
    refine vmm_map_page_then_iff left hA hA.kernel hk hv (row_lt (by omega))
      fun m' G' _ hA' ht => ?_
    rw [← hsucc]
    exact ih (virt + 0x1000) m' G' hA' (by rw [ht.vars.kernel]; exact hk) (by rw [hsucc]; omega)

/-- Frames for the tables of `n` pages in a row, wherever they begin. -/
def tablesFor (n : Nat) : Nat := 6 + n / 2 ^ 9 + n / 2 ^ 18 + n / 2 ^ 27

theorem tablesMissing_mono (m : Machine) (r : Nat) {pages pages' : Finset Nat}
    (h : pages ⊆ pages') : tablesMissing m r pages ≤ tablesMissing m r pages' :=
  Finset.card_le_card
    (Finset.filter_subset_filter _ (Finset.biUnion_subset_biUnion_of_subset_left _ h))

theorem tablesMissing_le (m : Machine) (r v n : Nat) :
    tablesMissing m r (Finset.Ico v (v + n)) ≤ tablesFor n := by
  -- one table for each number that the pages have when divided by 2^9, 2^18 and 2^27
  have hsub : (Finset.Ico v (v + n)).biUnion pathsTo
      ⊆ (Finset.Icc (v / 2 ^ 27) ((v + n) / 2 ^ 27)).image (fun a => [a % 512])
        ∪ ((Finset.Icc (v / 2 ^ 18) ((v + n) / 2 ^ 18)).image (fun a => [a / 2 ^ 9 % 512, a % 512])
        ∪ (Finset.Icc (v / 2 ^ 9) ((v + n) / 2 ^ 9)).image
          (fun a => [a / 2 ^ 18 % 512, a / 2 ^ 9 % 512, a % 512])) := by
    intro q hq
    obtain ⟨w, hw, hq⟩ := Finset.mem_biUnion.mp hq
    have hw := Finset.mem_Ico.mp hw
    have hmem : ∀ d, w / d ∈ Finset.Icc (v / d) ((v + n) / d) := fun d =>
      Finset.mem_Icc.mpr ⟨Nat.div_le_div_right (by omega), Nat.div_le_div_right (by omega)⟩
    simp only [pathsTo, pagePath, Finset.mem_insert, Finset.mem_singleton] at hq
    simp only [Finset.mem_union, Finset.mem_image]
    rcases hq with rfl | rfl | rfl
    · exact Or.inl ⟨_, hmem _, rfl⟩
    · exact Or.inr (Or.inl ⟨_, hmem _, by simp [Nat.div_div_eq_div_mul]⟩)
    · exact Or.inr (Or.inr ⟨_, hmem _, by simp [Nat.div_div_eq_div_mul]⟩)
  have hcard : ∀ (d : Nat) (path : Nat → List Nat), (v + n) / d + 1 - v / d ≤ n / d + 2 →
      ((Finset.Icc (v / d) ((v + n) / d)).image path).card ≤ n / d + 2 := by
    intro d path hle
    refine Finset.card_image_le.trans ?_
    rw [Nat.card_Icc]
    exact hle
  unfold tablesMissing tablesFor
  refine (Finset.card_filter_le _ _).trans ((Finset.card_le_card hsub).trans ?_)
  refine (Finset.card_union_le _ _).trans ((Nat.add_le_add (hcard _ _ (by omega))
    ((Finset.card_union_le _ _).trans (Nat.add_le_add (hcard _ _ (by omega))
      (hcard _ _ (by omega))))).trans ?_)
  omega

end Row

end Quack.Arch
