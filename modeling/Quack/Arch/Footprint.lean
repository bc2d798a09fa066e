/-
  Quack.Arch.Footprint
  **WHAT AN OPERATION ON ONE ROOT CAN TOUCH.**

  `Touches r m G m' G'` says that the step from `m` to `m'` wrote only tables
  of root `r`, below its upper half, and that every frame it took became such a
  table.  Mapping and unmapping lower-half pages are such steps, and their
  effect on the pages of `r` itself is one entry.
-/
import Quack.Arch.Ledger

namespace Quack.Arch

open Lib

variable {κ : Type}

/-! ## §1. Typed walks. -/

/-- Positions of the tables below the lower half of a root. -/
def LowerSlot (p : List Nat) (i : Nat) : Prop := p.length < 3 ∧ i < 512 ∧ (p = [] → i < 256)

/-- The tables of a ledger, by root and path. -/
def Ledger.tables (G : Ledger κ) (f : Nat) : Option (Nat × List Nat) :=
  match G f with
  | some (.table r p) => some (r, p)
  | _ => none

variable {G : Ledger κ} {f r i v k : Nat} {p : List Nat}

theorem Ledger.tables_eq_some : G.tables f = some (r, p) ↔ G f = some (.table r p) := by
  unfold Ledger.tables
  split
  · next r' p' h => simp [h]
  · next h =>
      constructor
      · intro he
        cases he
      · intro he
        exact absurd he (h r p)

theorem Use.child_lower (h : LowerSlot p i) :
    (Use.table r p : Use κ).child i = some (.table r (p ++ [i])) := by
  obtain ⟨h1, -, h3⟩ := h
  simp only [Use.child]
  rw [if_neg, if_pos h1]
  rintro ⟨hp, hi⟩
  have := h3 hp
  omega

theorem inner_pagePath (hv : v < 2 ^ 35) : Forest.Inner LowerSlot (pagePath v) := by
  intro p i rest h
  have hfirst : v / 2 ^ 27 % 512 < 256 := by omega
  unfold pagePath at h
  -- one case per position of the path
  match p, h with
  | [], h =>
    injection h with h _
    subst h
    exact ⟨by simp, slot_lt _, fun _ => hfirst⟩
  | [_], h =>
    injection h with _ h
    injection h with h _
    subst h
    exact ⟨by simp, slot_lt _, by simp⟩
  | [_, _], h =>
    injection h with _ h
    injection h with _ h
    injection h with h _
    subst h
    exact ⟨by simp, slot_lt _, by simp⟩
  | _ :: _ :: _ :: _, h =>
    have := congrArg List.length h
    simp at this

theorem inner_levels (hv : v < 2 ^ 35) :
    Forest.Inner LowerSlot ([] ++ [v / 2 ^ 27 % 512])
      ∧ Forest.Inner LowerSlot (([] ++ [v / 2 ^ 27 % 512]) ++ [v / 2 ^ 18 % 512])
      ∧ Forest.Inner LowerSlot
          ((([] ++ [v / 2 ^ 27 % 512]) ++ [v / 2 ^ 18 % 512]) ++ [v / 2 ^ 9 % 512]) := by
  have hp3 : Forest.Inner LowerSlot
      ((([] ++ [v / 2 ^ 27 % 512]) ++ [v / 2 ^ 18 % 512]) ++ [v / 2 ^ 9 % 512]) :=
    inner_pagePath hv
  exact ⟨hp3.snoc.1.snoc.1, hp3.snoc.1, hp3⟩

namespace Accounted

variable {k : Nat} {m m' : Machine} {G G' : Ledger κ}

variable {f r v : Nat}

theorem lower_slot (h : Accounted k m G) {i : Nat} {p : List Nat}
    (hf : G f = some (.table r p)) (hi : LowerSlot p i) :
    m.slot f i = 0
    ∨ ∃ c, m.slot f i = tableEnt c ∧ c < 2 ^ 51 ∧ G c = some (.table r (p ++ [i])) := by
  rcases h.slots f _ i hf hi.2.1 _ (Use.child_lower hi) with h0 | ⟨c, hent, hG⟩ | ⟨⟨q, hq, -⟩, -⟩
  · exact Or.inl h0
  · have hwin := (h.managed c _ hG).window
    exact Or.inr ⟨c, hent, by omega, hG⟩
  · cases hq

theorem typing (h : Accounted k m G) : Forest.Typing child m.slot G.tables LowerSlot := by
  intro f r p i c hf hi hc
  rw [Ledger.tables_eq_some] at hf ⊢
  rcases h.lower_slot hf hi with h0 | ⟨c', hent, hwin, hG⟩
  · rw [h0, child_zero] at hc
    cases hc
  · rw [hent, child_tableEnt hwin] at hc
    injection hc with hc
    subst hc
    exact hG

section

variable (h : Accounted k m G) (hr : G r = some (.table r []))

include h hr

theorem walk_typed (hp : Forest.Inner LowerSlot p)
    (hw : Forest.walk child m.slot r p = some f) : G f = some (.table r p) := by
  rw [← Ledger.tables_eq_some] at hr ⊢
  exact Forest.walk_typed h.typing hr p hp f hw

theorem table_typed
    (hv : v < 2 ^ 35) (ht : m.table r v = some f) : G f = some (.table r (pagePath v)) :=
  h.walk_typed hr (inner_pagePath hv) ht

theorem walk_congr
    (hslot : ∀ f p i, G f = some (.table r p) → LowerSlot p i → m'.slot f i = m.slot f i)
    {q : List Nat} (hq : Forest.Inner LowerSlot q) :
    Forest.walk child m'.slot r q = Forest.walk child m.slot r q := by
  rw [← Ledger.tables_eq_some] at hr
  apply Forest.walk_congr h.typing hr _ q hq
  intro f p i hf hi
  rw [Ledger.tables_eq_some] at hf
  exact hslot f p i hf hi

end

section

variable (h : Accounted k m G) (hr : G r = some (.table r [])) (hv : v < 2 ^ 35)
  (hslot : ∀ f p j, G f = some (.table r p) → j < 512 → m'.slot f j = m.slot f j)

include h hr hv hslot

theorem table_congr :
    m'.table r v = m.table r v := by
  apply h.walk_congr hr _ (inner_pagePath hv)
  intro f p i hf hi
  exact hslot f p i hf hi.2.1

theorem entry_congr :
    m'.entry r v = m.entry r v := by
  unfold Machine.entry
  rw [h.table_congr hr hv hslot]
  cases ht : m.table r v with
  | none => rfl
  | some f => exact hslot f _ _ (h.table_typed hr hv ht) (Nat.mod_lt _ (by omega))

end

end Accounted

/-! ## §2. Steps confined to one root. -/

/-- The step from `m` to `m'` touches the lower-half tables of `r` only. -/
structure Touches (r : Nat) (m : Machine) (G : Ledger κ) (m' : Machine) (G' : Ledger κ) :
    Prop where
  vars : m.SameVars m'
  ext : ∀ f u, G f = some u → G' f = some u
  fresh : ∀ f u, G' f = some u → G f = some u
    ∨ (f < m.pmm_bitmap_len ∧ m.bit f = false ∧ ∃ p, p ≠ [] ∧ u = .table r p)
  bits : ∀ f, f < m.pmm_bitmap_len →
    (m'.bit f = true ↔ m.bit f = true ∨ (G f = none ∧ G' f ≠ none))
  slots : ∀ f u j, G f = some u → (∀ p, u ≠ .table r p) → j < 512 → m'.slot f j = m.slot f j
  upper : ∀ i, 256 ≤ i → i < 512 → m'.slot r i = m.slot r i
  tables : ∀ v f, v < 2 ^ 35 → m.table r v = some f → m'.table r v = some f

namespace Touches

variable {r k : Nat} {m m' m'' : Machine} {G G' G'' : Ledger κ}

theorem refl (r : Nat) (m : Machine) (G : Ledger κ) : Touches r m G m G where
  vars := Machine.SameVars.refl m
  ext _ _ h := h
  fresh _ _ h := Or.inl h
  bits f _ := by
    constructor
    · intro h
      exact Or.inl h
    · rintro (h | ⟨h, h'⟩)
      · exact h
      · exact absurd h h'
  slots _ _ _ _ _ _ := rfl
  upper _ _ _ := rfl
  tables _ _ _ h := h

theorem trans (h1 : Touches r m G m' G') (h2 : Touches r m' G' m'' G'') :
    Touches r m G m'' G'' where
  vars := h1.vars.trans h2.vars
  ext f u h := h2.ext f u (h1.ext f u h)
  fresh f u h := by
    rcases h2.fresh f u h with h | ⟨hlen, hbit, hp⟩
    · exact h1.fresh f u h
    · rw [h1.vars.len] at hlen
      refine Or.inr ⟨hlen, ?_, hp⟩
      -- a bit that is clear later was clear before
      rw [← Bool.not_eq_true] at hbit ⊢
      intro hset
      exact hbit ((h1.bits f hlen).mpr (Or.inl hset))
  bits f hf := by
    rw [h2.bits f (by rw [h1.vars.len]; exact hf), h1.bits f hf]
    constructor
    · rintro ((h | ⟨h, h'⟩) | ⟨h, h'⟩)
      · exact Or.inl h
      · obtain ⟨u, hu⟩ := Option.ne_none_iff_exists'.mp h'
        exact Or.inr ⟨h, by simp [h2.ext f u hu]⟩
      · refine Or.inr ⟨?_, h'⟩
        cases hG : G f with
        | none => rfl
        | some u =>
          rw [h1.ext f u hG] at h
          cases h
    · rintro (h | ⟨h, h'⟩)
      · exact Or.inl (Or.inl h)
      · by_cases hG' : G' f = none
        · exact Or.inr ⟨hG', h'⟩
        · exact Or.inl (Or.inr ⟨h, hG'⟩)
  slots f u j hf hu hj := by
    rw [h2.slots f u j (h1.ext f u hf) hu hj, h1.slots f u j hf hu hj]
  upper i h256 hi := by rw [h2.upper i h256 hi, h1.upper i h256 hi]
  tables v f hv h := h2.tables v f hv (h1.tables v f hv h)

theorem slots_other (h : Touches r m G m' G') {r' : Nat} (hne : r' ≠ r) :
    ∀ f p j, G f = some (.table r' p) → j < 512 → m'.slot f j = m.slot f j := by
  intro f p j hf hj
  apply h.slots f _ j hf _ hj
  intro p' he
  injection he with he _
  exact hne he

theorem table_other (h : Touches r m G m' G') (hA : Accounted k m G) {r' v : Nat}
    (hr' : G r' = some (.table r' [])) (hne : r' ≠ r) (hv : v < 2 ^ 35) :
    m'.table r' v = m.table r' v :=
  hA.table_congr hr' hv (h.slots_other hne)

theorem entry_other (h : Touches r m G m' G') (hA : Accounted k m G) {r' v : Nat}
    (hr' : G r' = some (.table r' [])) (hne : r' ≠ r) (hv : v < 2 ^ 35) :
    m'.entry r' v = m.entry r' v :=
  hA.entry_congr hr' hv (h.slots_other hne)

end Touches

/-! ## §3. Linking a table. -/

section Link

variable {r k f i c : Nat} {p : List Nat} {m : Machine} {G : Ledger κ}

section

variable (h : Accounted k m G) (hf : G f = some (.table r p)) (hi : LowerSlot p i)
  (hnone : child (m.slot f i) = none) (hlen : c < m.pmm_bitmap_len) (hwin : c < 2 ^ 20)
  (hbit : m.bit c = false)

include h hf hi hnone hlen hwin hbit

theorem Accounted.link_walk {r' : Nat} (hr' : G r' = some (.table r' []))
    {q : List Nat} (hq : Forest.Inner LowerSlot q) :
    Forest.walk child (m.link f i c).slot r' q = Forest.walk child m.slot r' q
    ∨ (r' = r ∧ q = p ++ [i] ∧ Forest.walk child m.slot r' q = none
        ∧ Forest.walk child (m.link f i c).slot r' q = some c) := by
  have hfree := h.free_of_bit hbit
  have hnb := h.not_bitmapFrame hlen hbit
  have hnc : ∀ g u, G g = some u → g ≠ c := by
    rintro g u hg rfl
    rw [hfree] at hg
    cases hg
  have hfnb := (h.managed f _ hf).bitmap
  rw [← Ledger.tables_eq_some] at hr'
  refine Forest.walk_grow h.typing (Ledger.tables_eq_some.mpr hf) hnone ?_ ?_ ?_ hr' q hq
  · rw [m.link_slot hlen hi.2.1 hi.2.1 hfnb, if_neg (hnc f _ hf), if_pos ⟨rfl, rfl⟩,
      child_tableEnt (by omega)]
  · intro j hj
    rw [m.link_slot hlen hi.2.1 hj.2.1 hnb, if_pos rfl, child_zero]
  · intro g r'' q' j hg hj hne
    rw [Ledger.tables_eq_some] at hg
    rw [m.link_slot hlen hi.2.1 hj.2.1 (h.managed g _ hg).bitmap, if_neg (hnc g _ hg), if_neg hne]

theorem Accounted.link_entry {r' v : Nat} (hr' : G r' = some (.table r' []))
    (hv : v < 2 ^ 35) : (m.link f i c).entry r' v = m.entry r' v := by
  have hlast : v % 512 < 512 := Nat.mod_lt _ (by omega)
  have hfree := h.free_of_bit hbit
  unfold Machine.entry Machine.table
  rcases h.link_walk hf hi hnone hlen hwin hbit hr' (inner_pagePath hv)
    with hsame | ⟨-, -, hbefore, hafter⟩
  · rw [hsame]
    cases hw : Forest.walk child m.slot r' (pagePath v) with
    | none => rfl
    | some x =>
      have hx := h.walk_typed hr' (inner_pagePath hv) hw
      show (m.link f i c).slot x (v % 512) = m.slot x (v % 512)
      rw [m.link_slot hlen hi.2.1 hlast (h.managed x _ hx).bitmap, if_neg, if_neg]
      · -- the changed slot is above the last level
        rintro ⟨rfl, -⟩
        rw [hf] at hx
        injection hx with hx
        injection hx with _ hp
        have hshort := hi.1
        rw [hp] at hshort
        simp [pagePath] at hshort
      · rintro rfl
        rw [hfree] at hx
        cases hx
  · rw [hbefore, hafter]
    show (m.link f i c).slot c (v % 512) = 0
    rw [m.link_slot hlen hi.2.1 hlast (h.not_bitmapFrame hlen hbit), if_pos rfl]

theorem Touches.link :
    Touches r m G (m.link f i c) (Function.update G c (some (.table r (p ++ [i])))) := by
  have hfree := h.free_of_bit hbit
  have hnb := h.not_bitmapFrame hlen hbit
  have hfnb := (h.managed f _ hf).bitmap
  have hroot := h.root f r p hf
  have hnc : ∀ g u, G g = some u → g ≠ c := by
    rintro g u hg rfl
    rw [hfree] at hg
    cases hg
  constructor
  · exact m.link_vars f i c
  · intro g u hg
    rw [Function.update_of_ne (hnc g u hg)]
    exact hg
  · intro g u hg
    by_cases hgc : g = c
    · subst hgc
      rw [Function.update_self] at hg
      injection hg with hg
      exact Or.inr ⟨hlen, hbit, p ++ [i], by simp, hg.symm⟩
    · rw [Function.update_of_ne hgc] at hg
      exact Or.inl hg
  · intro g hg
    rw [m.link_bit hi.2.1 hg hfnb hnb]
    by_cases hgc : g = c
    · subst hgc
      simp [hfree]
    · rw [if_neg hgc, Function.update_of_ne hgc]
      constructor
      · intro hset
        exact Or.inl hset
      · rintro (hset | ⟨h1, h2⟩)
        · exact hset
        · exact absurd h1 h2
  · intro g u j hg hu hj
    rw [m.link_slot hlen hi.2.1 hj (h.managed g u hg).bitmap, if_neg (hnc g u hg), if_neg]
    rintro ⟨rfl, -⟩
    rw [hf] at hg
    injection hg with hg
    exact hu p hg.symm
  · intro j h256 hj
    rw [m.link_slot hlen hi.2.1 hj (h.managed r _ hroot).bitmap, if_neg (hnc r _ hroot), if_neg]
    -- a root's slot that links a lower table is in its lower half
    rintro ⟨rfl, rfl⟩
    rw [hf] at hroot
    injection hroot with hroot
    injection hroot with _ hp
    have := hi.2.2 hp
    omega
  · intro v x hv hx
    rcases h.link_walk hf hi hnone hlen hwin hbit hroot (inner_pagePath hv)
      with hsame | ⟨-, -, hbefore, -⟩
    · exact hsame.trans hx
    · unfold Machine.table at hx
      rw [hbefore] at hx
      cases hx

end

end Link

theorem Enter.accounted {c : Nat} {m m' : Machine}
    (he : Enter m f i m' c) (h : Accounted k m G) (hr : G r = some (.table r []))
    (hp : Forest.Inner LowerSlot (p ++ [i])) (hw : Forest.walk child m.slot r p = some f) :
    ∃ G', Accounted k m' G' ∧ Touches r m G m' G'
      ∧ Forest.walk child m'.slot r (p ++ [i]) = some c
      ∧ ∀ r' v, G r' = some (.table r' []) → v < 2 ^ 35 → m'.entry r' v = m.entry r' v := by
  obtain ⟨hp', hi⟩ := hp.snoc
  have hf := h.walk_typed hr hp' hw
  cases he with
  | present c hc =>
    refine ⟨G, h, Touches.refl r m G, ?_, fun _ _ _ _ => rfl⟩
    rw [Forest.walk_snoc, hw]
    exact hc
  | linked c hnone hlow hlen hwin hbit =>
    have hone : (Use.table r p : Use κ) = .table f [] → 256 ≤ i →
        ∀ r', G r' = some (.table r' []) → r' = k := by
      intro hu h256
      injection hu with _ hnil
      have := hi.2.2 hnil
      omega
    refine ⟨_, h.link hf hi.2.1 (Use.child_lower hi) hlow hlen hwin hbit hone,
      Touches.link h hf hi hnone hlen hwin hbit, ?_, ?_⟩
    · rcases h.link_walk hf hi hnone hlen hwin hbit hr hp with hsame | ⟨-, -, -, hafter⟩
      · -- the new walk cannot be the old one, which ends at the empty slot
        exfalso
        have hnew : Forest.walk child (m.link f i c).slot r p = some f := by
          rcases h.link_walk hf hi hnone hlen hwin hbit hr hp' with hs | ⟨-, -, hb, -⟩
          · exact hs.trans hw
          · rw [hw] at hb
            cases hb
        rw [Forest.walk_snoc, Forest.walk_snoc, hnew, hw] at hsame
        simp only [Option.bind_some] at hsame
        rw [hnone, m.link_slot hlen hi.2.1 hi.2.1 (h.managed f _ hf).bitmap, if_neg,
          if_pos ⟨rfl, rfl⟩, child_tableEnt (by omega)] at hsame
        · cases hsame
        · rintro rfl
          rw [h.free_of_bit hbit] at hf
          cases hf
      · exact hafter
    · intro r' v hr' hv
      exact h.link_entry hf hi hnone hlen hwin hbit hr' hv

/-! ## §4. Pages. -/

section Pages

variable {r k : Nat} {m m' : Machine} {G : Ledger κ}

section Leaf

variable {v pt : Nat} (h : Accounted k m G) (hr : G r = some (.table r [])) (hv : v < 2 ^ 35)
  (ht : m.table r v = some pt) (ent : U64)

include h hr hv ht

theorem Accounted.write_leaf_table {r' v' : Nat} (hr' : G r' = some (.table r' []))
    (hv' : v' < 2 ^ 35) :
    (m.setWord (512 * pt + v % 512) ent).table r' v' = m.table r' v' := by
  have hpt := h.table_typed hr hv ht
  apply h.walk_congr hr' _ (inner_pagePath hv')
  intro f p i hf hi
  apply m.setWord_slot_ne _ hi.2.1
  rw [show (512 * pt + v % 512) / 512 = pt by omega]
  rintro rfl
  rw [hpt] at hf
  injection hf with hf
  injection hf with _ hp
  have hshort := hi.1
  rw [← hp] at hshort
  simp [pagePath] at hshort

theorem Accounted.write_leaf_touches : Touches r m G (m.setWord (512 * pt + v % 512) ent) G := by
  have hpt := h.table_typed hr hv ht
  have hdiv : (512 * pt + v % 512) / 512 = pt := by omega
  have hother : ∀ g u j, G g = some u → u ≠ .table r (pagePath v) → j < 512 →
      (m.setWord (512 * pt + v % 512) ent).slot g j = m.slot g j := by
    intro g u j hg hu hj
    apply m.setWord_slot_ne _ hj
    rw [hdiv]
    rintro rfl
    rw [hpt] at hg
    injection hg with hg
    exact hu hg.symm
  refine ⟨⟨rfl, rfl, rfl, rfl⟩, fun _ _ hg => hg, fun _ _ hg => Or.inl hg, ?_, ?_, ?_, ?_⟩
  · intro g hg
    rw [m.setWord_bit _ hg (by rw [hdiv]; exact (h.managed pt _ hpt).bitmap)]
    constructor
    · intro hset
      exact Or.inl hset
    · rintro (hset | ⟨h1, h2⟩)
      · exact hset
      · exact absurd h1 h2
  · intro g u j hg hu hj
    exact hother g u j hg (hu _) hj
  · intro j _ hj
    refine hother r _ j hr ?_ hj
    intro hp
    injection hp with _ hp
    cases hp
  · intro v' x hv' hx
    rw [h.write_leaf_table hr hv ht ent hr hv']
    exact hx

theorem Accounted.write_leaf_entry {r' v' : Nat} (hr' : G r' = some (.table r' []))
    (hv' : v' < 2 ^ 35) :
    (m.setWord (512 * pt + v % 512) ent).entry r' v'
      = if r' = r ∧ v' = v then ent else m.entry r' v' := by
  have hpt := h.table_typed hr hv ht
  unfold Machine.entry
  rw [h.write_leaf_table hr hv ht ent hr' hv']
  cases hx : m.table r' v' with
  | none =>
    rw [if_neg]
    rintro ⟨rfl, rfl⟩
    rw [ht] at hx
    cases hx
  | some x =>
    have hxt := h.table_typed hr' hv' hx
    show (m.setWord _ ent).slot x (v' % 512) = _
    rw [m.setWord_slot ent (Nat.mod_lt _ (by omega)) (Nat.mod_lt _ (by omega))]
    by_cases he : r' = r ∧ v' = v
    · obtain ⟨rfl, rfl⟩ := he
      rw [ht] at hx
      injection hx with hx
      rw [if_pos ⟨hx.symm, rfl⟩, if_pos ⟨rfl, rfl⟩]
    · rw [if_neg he, if_neg]
      -- one table, one path: the page would be the same
      rintro ⟨rfl, hmod⟩
      rw [hpt] at hxt
      injection hxt with hxt
      injection hxt with h1 h2
      exact he ⟨h1.symm, pagePath_inj (by omega) (by omega) h2.symm hmod⟩

theorem Accounted.write_leaf :
    Accounted k (m.setWord (512 * pt + v % 512) ent) G
    ∧ Touches r m G (m.setWord (512 * pt + v % 512) ent) G
    ∧ ∀ r' v', G r' = some (.table r' []) → v' < 2 ^ 35 →
        (m.setWord (512 * pt + v % 512) ent).entry r' v'
          = if r' = r ∧ v' = v then ent else m.entry r' v' := by
  refine ⟨?_, h.write_leaf_touches hr hv ht ent,
    fun r' v' hr' hv' => h.write_leaf_entry hr hv ht ent hr' hv'⟩
  apply h.write (h.table_typed hr hv ht) (Nat.mod_lt _ (by omega))
  · intro u' hu'
    simp [Use.child, pagePath] at hu'
  · intro hu
    injection hu with _ hp
    cases hp

end Leaf

variable {pml4 virt : U64}

theorem vmm_map_page_touches (h : Accounted k m G) (hr : G r = some (.table r []))
    {phys perms : U64} {u : Unit} (hpml4 : pml4.toNat = 4096 * r)
    (hv : pageOf virt < 2 ^ 35) (hrun : vmm_map_page pml4 virt phys perms m = some (u, m')) :
    ∃ G', Accounted k m' G' ∧ Touches r m G m' G' ∧ m'.table r (pageOf virt) ≠ none
      ∧ ∀ r' v, G r' = some (.table r' []) → v < 2 ^ 35 →
          m'.entry r' v = if r' = r ∧ v = pageOf virt then phys ||| perms ||| VMM_FLAG_PRESENT
            else m.entry r' v := by
  obtain ⟨m1, c1, m2, c2, m3, c3, e1, e2, e3, rfl⟩ :=
    vmm_map_page_spec h.bitmap_len_le hpml4 hrun
  -- the three prefixes of the path
  obtain ⟨hp1, hp2, hp3⟩ := inner_levels hv
  obtain ⟨G1, h1, t1, w1, en1⟩ := e1.accounted h hr hp1 rfl
  have hr1 := t1.ext r _ hr
  obtain ⟨G2, h2, t2, w2, en2⟩ := e2.accounted h1 hr1 hp2 w1
  have hr2 := t2.ext r _ hr1
  obtain ⟨G3, h3, t3, w3, en3⟩ := e3.accounted h2 hr2 hp3 w2
  have hr3 := t3.ext r _ hr2
  obtain ⟨h4, t4, en4⟩ := h3.write_leaf hr3 hv w3 (phys ||| perms ||| VMM_FLAG_PRESENT)
  refine ⟨G3, h4, ((t1.trans t2).trans t3).trans t4, ?_, ?_⟩
  · rw [t4.tables _ _ hv w3]
    exact Option.some_ne_none c3
  · intro r' v hr' hv'
    have hr1' := t1.ext r' _ hr'
    have hr2' := t2.ext r' _ hr1'
    rw [en4 r' v (t3.ext r' _ hr2') hv', en3 r' v hr2' hv', en2 r' v hr1' hv', en1 r' v hr' hv']

theorem pageOf_succ (hv : pageOf virt < 2 ^ 35) :
    pageOf (virt + 0x1000) = pageOf virt + 1 := by
  unfold pageOf at hv ⊢
  have hstep : (0x1000 : U64).toNat = 4096 := rfl
  rw [BitVec.toNat_add, hstep, Nat.mod_eq_of_lt (by omega)]
  omega

theorem vmm_map_pages_touches (hpml4 : pml4.toNat = 4096 * r) (count : Nat) (virt phys perms : U64)
    (m m' : Machine) (G : Ledger κ) (i : Int) (h : Accounted k m G) (hr : G r = some (.table r []))
    (hv : pageOf virt + count ≤ 2 ^ 35)
    (hrun : vmm_map_pages pml4 virt phys count perms m = some (i, m')) :
    ∃ G', Accounted k m' G' ∧ Touches r m G m' G'
      ∧ (0 < count → m'.table r (pageOf virt) ≠ none) := by
  induction count generalizing virt phys perms m m' G i with
  | zero =>
    simp only [vmm_map_pages, Prog.pure_eq_some] at hrun
    obtain ⟨-, rfl⟩ := hrun
    exact ⟨G, h, Touches.refl r m G, by omega⟩
  | succ count ih =>
    simp only [vmm_map_pages, Prog.bind_eq_some] at hrun
    obtain ⟨_, m1, hpage, hrest⟩ := hrun
    have hv1 : pageOf virt < 2 ^ 35 := by omega
    obtain ⟨G1, h1, t1, htab, -⟩ := vmm_map_page_touches h hr hpml4 hv1 hpage
    have hnext : pageOf (virt + 0x1000) + count ≤ 2 ^ 35 := by
      rw [pageOf_succ hv1]
      omega
    obtain ⟨G2, h2, t2, -⟩ := ih _ _ perms m1 m' G1 i h1 (t1.ext r _ hr) hnext hrest
    refine ⟨G2, h2, t1.trans t2, fun _ => ?_⟩
    obtain ⟨pt, hpt⟩ := Option.ne_none_iff_exists'.mp htab
    rw [t2.tables _ pt hv1 hpt]
    exact Option.some_ne_none pt

theorem vmm_find_pt_cases {o : Table} {m1 : Machine}
    (hpml4 : pml4.toNat = 4096 * r) (hfind : vmm_find_pt pml4 virt m = some (o, m1)) :
    m = m1 ∧ ((o = none ∧ m.entry r (pageOf virt) = 0)
      ∨ ∃ pt, o = some (4096 * pt) ∧ m.table r (pageOf virt) = some pt) := by
  obtain ⟨rfl, rfl⟩ := vmm_find_pt_spec hpml4 hfind
  refine ⟨rfl, ?_⟩
  cases ht : m.table r (pageOf virt) with
  | none =>
    refine Or.inl ⟨rfl, ?_⟩
    unfold Machine.entry
    rw [ht]
  | some pt => exact Or.inr ⟨pt, rfl, rfl⟩

theorem writeLast_eq_some {ent : U64} {pt : Nat} {u : Unit}
    (h : writeEnt (some (4096 * pt)) (vmm_virt_to_offs virt).pt_off ent m = some (u, m')) :
    m' = m.setWord (512 * pt + pageOf virt % 512) ent := by
  obtain ⟨_, ht, -, rfl⟩ := writeEnt_eq_some h
  injection ht with ht
  subst ht
  rw [vmm_virt_to_offs_eq, entry_word]

theorem vmm_unmap_pages_touches (hpml4 : pml4.toNat = 4096 * r)
    (hr : G r = some (.table r [])) (count : Nat) (virt : U64) (m m' : Machine) (i : Int)
    (h : Accounted k m G) (hv : pageOf virt + count ≤ 2 ^ 35)
    (hrun : vmm_unmap_pages pml4 virt count m = some (i, m')) :
    Accounted k m' G ∧ Touches r m G m' G := by
  induction count generalizing virt m m' i with
  | zero =>
    simp only [vmm_unmap_pages, Prog.pure_eq_some] at hrun
    obtain ⟨-, rfl⟩ := hrun
    exact ⟨h, Touches.refl r m G⟩
  | succ count ih =>
    simp only [vmm_unmap_pages, Prog.bind_eq_some] at hrun
    obtain ⟨o, m1, hfind, hrest⟩ := hrun
    have hv1 : pageOf virt < 2 ^ 35 := by omega
    obtain ⟨rfl, ⟨rfl, -⟩ | ⟨pt, rfl, ht⟩⟩ := vmm_find_pt_cases hpml4 hfind
    · -- a missing table ends the loop
      simp only [Prog.pure_eq_some] at hrest
      obtain ⟨-, rfl⟩ := hrest
      exact ⟨h, Touches.refl r m G⟩
    · obtain ⟨h1, t1, -⟩ := h.write_leaf hr hv1 ht 0
      simp only [Prog.bind_eq_some] at hrest
      obtain ⟨_, m2, hw, hrest⟩ := hrest
      rw [writeLast_eq_some hw] at hrest
      have hnext : pageOf (virt + 0x1000) + count ≤ 2 ^ 35 := by
        rw [pageOf_succ hv1]
        omega
      obtain ⟨h2, t2⟩ := ih _ _ m' i h1 hnext hrest
      exact ⟨h2, t1.trans t2⟩

theorem vmm_unmap_page_touches (h : Accounted k m G) (hr : G r = some (.table r []))
    {i : Int} (hpml4 : pml4.toNat = 4096 * r) (hv : pageOf virt < 2 ^ 35)
    (hrun : vmm_unmap_pages pml4 virt 1 m = some (i, m')) :
    Accounted k m' G ∧ Touches r m G m' G
    ∧ ∀ r' v, G r' = some (.table r' []) → v < 2 ^ 35 →
        m'.entry r' v = if r' = r ∧ v = pageOf virt then 0 else m.entry r' v := by
  simp only [vmm_unmap_pages, Prog.bind_eq_some] at hrun
  obtain ⟨o, m1, hfind, hrest⟩ := hrun
  obtain ⟨rfl, ⟨rfl, hzero⟩ | ⟨pt, rfl, ht⟩⟩ := vmm_find_pt_cases hpml4 hfind
  · simp only [Prog.pure_eq_some] at hrest
    obtain ⟨-, rfl⟩ := hrest
    refine ⟨h, Touches.refl r m G, ?_⟩
    intro r' v _ _
    split
    · next he => rw [he.1, he.2, hzero]
    · rfl
  · simp only [Prog.bind_eq_some, Prog.pure_eq_some] at hrest
    obtain ⟨_, m2, hw, -, rfl⟩ := hrest
    rw [writeLast_eq_some hw]
    exact h.write_leaf hr hv ht 0

end Pages

/-! ## §5. Counting tables. -/

theorem pagePath_div {w : Nat} (hv : v < 2 ^ 36) (hw : w < 2 ^ 36)
    (h : pagePath v = pagePath w) : v / 512 = w / 512 := by
  unfold pagePath at h
  injection h with h1 h
  injection h with h2 h
  injection h with h3 _
  omega

theorem Accounted.last_table_count {s n : Nat} {m : Machine}
    (h : Accounted k m G) (hr : G r = some (.table r [])) (hs : 512 * (s + n) ≤ 2 ^ 35)
    (htab : ∀ i, i < n → m.table r (512 * (s + i)) ≠ none) : n ≤ 2 ^ 20 := by
  have hv : ∀ i, i < n → 512 * (s + i) < 2 ^ 35 := fun i hi => by omega
  choose! pt hpt using fun i hi => Option.ne_none_iff_exists'.mp (htab i hi)
  have htyped : ∀ i, i < n → G (pt i) = some (.table r (pagePath (512 * (s + i)))) :=
    fun i hi => h.table_typed hr (hv i hi) (hpt i hi)
  let frame : Fin n → Fin (2 ^ 20) := fun i => ⟨pt i, (h.managed _ _ (htyped i i.isLt)).window⟩
  have hinj : Function.Injective frame := by
    intro i j hij
    have heq : pt i = pt j := congrArg Fin.val hij
    have hi := htyped i i.isLt
    rw [heq, htyped j j.isLt] at hi
    injection hi with hi
    injection hi with _ hpath
    have hvi := hv i i.isLt
    have hvj := hv j j.isLt
    have := pagePath_div (by omega) (by omega) hpath
    exact Fin.ext (by omega)
  have hcard := Fintype.card_le_of_injective frame hinj
  rwa [Fintype.card_fin, Fintype.card_fin] at hcard

theorem Accounted.tables_end {m : Machine} (h : Accounted k m G)
    (hr : G r = some (.table r [])) (lo hi : Nat) (hlo : lo % 512 = 0) (hhi : hi ≤ 2 ^ 35)
    (htab : ∀ v, lo ≤ v → v < hi → m.table r v ≠ none) :
    hi < lo + 2 ^ 29 + 512 := by
  by_contra hlong
  have hn := h.last_table_count hr (s := lo / 512) (n := 2 ^ 20 + 1) (by omega)
    (fun i hi => htab _ (by omega) (by omega))
  omega

end Quack.Arch
