/-
  Quack.Lib.Spans
  **TILING A RANGE WITH SPANS.**

  A span is a half-open range of numbers.  A list of spans TILES a range when
  every number of the range is in exactly one entry and no other number is in
  any; empty spans may occur anywhere.  Tiling is kept as a count per number
  (`cover`), which does not see the order of the list: cutting a span in two,
  joining two that touch, and reordering leave every count as it is.
-/
import Mathlib

namespace Quack.Lib

/-- The numbers from `lo` on, `len` of them. -/
structure Span where
  lo : Nat
  len : Nat
  deriving Repr, DecidableEq

namespace Span

/-- The first number after the span. -/
def hi (s : Span) : Nat := s.lo + s.len

/-- `a` is in the span. -/
def Covers (s : Span) (a : Nat) : Prop := s.lo ≤ a ∧ a < s.hi

instance (s : Span) (a : Nat) : Decidable (s.Covers a) := inferInstanceAs (Decidable (_ ∧ _))

/-- The span as a set. -/
def toSet (s : Span) : Set Nat := Set.Ico s.lo s.hi

theorem mem_toSet {s : Span} {a : Nat} : a ∈ s.toSet ↔ s.Covers a := Iff.rfl

end Span

/-! ## §1. Counting. -/

/-- How many entries of the list contain `a`. -/
def cover (l : List Span) (a : Nat) : Nat := l.countP (fun s => decide (s.Covers a))

@[simp] theorem cover_nil (a : Nat) : cover [] a = 0 := rfl

theorem cover_cons (s : Span) (l : List Span) (a : Nat) :
    cover (s :: l) a = (if s.Covers a then 1 else 0) + cover l a := by
  unfold cover
  rw [List.countP_cons, Nat.add_comm]
  simp only [decide_eq_true_eq]

@[simp] theorem cover_append (l l' : List Span) (a : Nat) :
    cover (l ++ l') a = cover l a + cover l' a :=
  List.countP_append

variable {l l' : List Span} {a hi lo g : Nat}

theorem cover_perm (h : l.Perm l') (a : Nat) : cover l a = cover l' a :=
  h.countP_eq _

theorem cover_pos_iff : 0 < cover l a ↔ ∃ s ∈ l, s.Covers a := by
  unfold cover
  simp only [List.countP_pos_iff, decide_eq_true_eq]

theorem cover_eq_zero_iff : cover l a = 0 ↔ ∀ s ∈ l, ¬ s.Covers a := by
  unfold cover
  simp only [List.countP_eq_zero, decide_eq_true_eq]

theorem cover_cut (lo m n : Nat) (l : List Span) (a : Nat) :
    cover (⟨lo, m + n⟩ :: l) a = cover (⟨lo, m⟩ :: ⟨lo + m, n⟩ :: l) a := by
  have key : (if (⟨lo, m + n⟩ : Span).Covers a then 1 else 0)
      = (if (⟨lo, m⟩ : Span).Covers a then 1 else 0)
        + (if (⟨lo + m, n⟩ : Span).Covers a then 1 else 0) := by
    split <;> split <;> split <;> simp only [Span.Covers, Span.hi] at * <;> omega
  simp only [cover_cons, key]
  omega

/-! ## §2. Tilings. -/

/-- Each number of `[lo, hi)` is in one entry, any other number in none. -/
def Tiles (l : List Span) (lo hi : Nat) : Prop :=
  ∀ a, cover l a = if lo ≤ a ∧ a < hi then 1 else 0

theorem tiles_singleton (lo len : Nat) : Tiles [⟨lo, len⟩] lo (lo + len) := by
  intro a
  rw [cover_cons]
  rfl

theorem Tiles.congr (h : Tiles l lo hi)
    (hl : ∀ a, cover l' a = cover l a) : Tiles l' lo hi :=
  fun a => (hl a).trans (h a)

theorem Tiles.cover_le_one (h : Tiles l lo hi) (a : Nat) :
    cover l a ≤ 1 := by
  rw [h a]
  split <;> omega

theorem pairwise_disjoint_of_cover_le_one :
    ∀ l, (∀ a, cover l a ≤ 1) →
      l.Pairwise (fun s t => Disjoint s.toSet t.toSet)
  | [], _ => List.Pairwise.nil
  | s :: l, h => by
    refine List.Pairwise.cons ?_ (pairwise_disjoint_of_cover_le_one l fun a => ?_)
    · intro t ht
      rw [Set.disjoint_left]
      intro a hs hta
      have hpos : 0 < cover l a := cover_pos_iff.mpr ⟨t, ht, hta⟩
      have hle := h a
      rw [cover_cons, if_pos (Span.mem_toSet.mp hs)] at hle
      omega
    · have hle := h a
      rw [cover_cons] at hle
      omega

theorem cover_le_one_of_pairwise (a : Nat) {l : List Span}
    (h : l.Pairwise (fun s t => Disjoint s.toSet t.toSet)) : cover l a ≤ 1 := by
  induction l with
  | nil =>
    exact Nat.zero_le 1
  | cons s l ih =>
    obtain ⟨hs, hl⟩ := List.pairwise_cons.mp h
    rw [cover_cons]
    by_cases hcov : s.Covers a
    · have hzero : cover l a = 0 := by
        refine cover_eq_zero_iff.mpr fun t ht hta => ?_
        exact Set.disjoint_left.mp (hs t ht) (Span.mem_toSet.mpr hcov) (Span.mem_toSet.mpr hta)
      rw [if_pos hcov, hzero]
    · rw [if_neg hcov, Nat.zero_add]
      exact ih hl

theorem Tiles.pairwise_disjoint (h : Tiles l lo hi) :
    l.Pairwise (fun s t => Disjoint s.toSet t.toSet) :=
  pairwise_disjoint_of_cover_le_one l h.cover_le_one

theorem Tiles.iUnion_eq (h : Tiles l lo hi) :
    ⋃ s ∈ l, s.toSet = Set.Ico lo hi := by
  ext a
  simp only [Set.mem_iUnion, Set.mem_Ico, exists_prop, Span.mem_toSet]
  rw [← cover_pos_iff, h a]
  split
  · next hin => simp [hin]
  · next hout => simp [hout]

theorem le_or_le_of_disjoint {s t : Span} (h : Disjoint s.toSet t.toSet) (hs : s.lo < s.hi)
    (ht : t.lo < t.hi) : s.hi ≤ t.lo ∨ t.hi ≤ s.lo := by
  by_contra hno
  have hmem : max s.lo t.lo ∈ s.toSet ∧ max s.lo t.lo ∈ t.toSet := by
    refine ⟨⟨?_, ?_⟩, ⟨?_, ?_⟩⟩ <;> omega
  exact Set.disjoint_left.mp h hmem.1 hmem.2

/-! ## §3. Lists of spans in order, with gaps. -/

/-- Every span ends strictly before the later ones start. -/
def Separated (l : List Span) : Prop := l.Pairwise (fun s t => s.hi < t.lo)

theorem Separated.eq_or_apart (h : Separated l) {s t : Span} (hs : s ∈ l)
    (ht : t ∈ l) : s = t ∨ s.hi < t.lo ∨ t.hi < s.lo := by
  obtain ⟨i, hi, rfl⟩ := List.getElem_of_mem hs
  obtain ⟨j, hj, rfl⟩ := List.getElem_of_mem ht
  have hpair := List.pairwise_iff_getElem.mp h
  rcases Nat.lt_trichotomy i j with hij | hij | hij
  · exact Or.inr (Or.inl (hpair i j hi hj hij))
  · subst hij
    exact Or.inl rfl
  · exact Or.inr (Or.inr (hpair j i hj hi hij))

theorem add_le_of_dvd {b : Nat} (ha : g ∣ a) (hb : g ∣ b) (h : a < b) : a + g ≤ b := by
  obtain ⟨k, rfl⟩ := ha
  obtain ⟨m, rfl⟩ := hb
  have hkm : k < m := Nat.lt_of_mul_lt_mul_left h
  calc g * k + g = g * (k + 1) := by rw [Nat.mul_add, Nat.mul_one]
    _ ≤ g * m := Nat.mul_le_mul_left g hkm

theorem Separated.exists_containing {x : Nat} (h : Separated l)
    (hg : ∀ s ∈ l, g ∣ s.lo ∧ g ∣ s.hi) (hx : g ∣ x) :
    ∀ n, (∀ i ≤ n, 0 < cover l (x + g * i)) → ∃ s ∈ l, s.lo ≤ x ∧ x + g * (n + 1) ≤ s.hi
  | 0, hcov => by
    obtain ⟨s, hs, hlo, hhi⟩ := cover_pos_iff.mp (hcov 0 (Nat.le_refl 0))
    rw [Nat.mul_zero, Nat.add_zero] at hlo hhi
    have hstep := add_le_of_dvd hx (hg s hs).2 hhi
    exact ⟨s, hs, hlo, by rw [Nat.zero_add, Nat.mul_one]; exact hstep⟩
  | n + 1, hcov => by
    obtain ⟨s, hs, hlo, hhi⟩ := Separated.exists_containing h hg hx n
      (fun i hi => hcov i (Nat.le_succ_of_le hi))
    refine ⟨s, hs, hlo, ?_⟩
    have hnext : g ∣ x + g * (n + 1) := Nat.dvd_add hx (Nat.dvd_mul_right g (n + 1))
    rcases Nat.lt_or_ge (x + g * (n + 1)) s.hi with hlt | hge
    · have hstep := add_le_of_dvd hnext (hg s hs).2 hlt
      rw [Nat.mul_add g (n + 1) 1, Nat.mul_one, ← Nat.add_assoc]
      exact hstep
    · -- the span ends here, so another one would have to touch it
      obtain ⟨t, ht, htlo, hthi⟩ := cover_pos_iff.mp (hcov (n + 1) (Nat.le_refl _))
      rcases h.eq_or_apart hs ht with rfl | hst | hts
      · omega
      · omega
      · omega

end Quack.Lib
