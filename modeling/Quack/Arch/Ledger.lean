/-
  Quack.Arch.Ledger
  **WHO USES WHICH FRAME.**

  A LEDGER assigns to a frame its use: the table of some root at some path, a
  table of the shared upper half, or the data of some owner.  A machine is
  ACCOUNTED FOR by a ledger if the bits of all used frames are set and every
  entry of a table is empty or links the frame that the ledger has for it.

  The ledger is not part of the machine; it is what separates the tables of one
  root from everything else, and every operation of `vmm.cpp` keeps it up to
  date.
-/
import Quack.Arch.Tables

namespace Quack.Arch

/-! ## §1. Uses. -/

/-- What a frame is used for. -/
inductive Use (κ : Type) where
  /-- The table of root `r` at `path`; the root itself is at `[]`. -/
  | table (r : Nat) (path : List Nat)
  /-- A table below the upper half of every root. -/
  | upper (path : List Nat)
  /-- A frame that holds no table. -/
  | data (k : κ)
  deriving DecidableEq

abbrev Ledger (κ : Type) := Nat → Option (Use κ)

variable {κ : Type}

variable {u : Use κ}

theorem Ledger.update_keeps {G : Ledger κ} {c f : Nat} (hfree : G c = none)
    (x : Option (Use κ)) (hf : G f = some u) : Function.update G c x f = some u := by
  rw [Function.update_of_ne]
  · exact hf
  · rintro rfl
    rw [hfree] at hf
    cases hf

/-- The use of the table that slot `i` may link. -/
def Use.child : Use κ → Nat → Option (Use κ)
  | .table r p, i =>
    if p = [] ∧ 256 ≤ i then some (.upper [i])
    else if p.length < 3 then some (.table r (p ++ [i]))
    else none
  | .upper p, i => if p.length < 3 then some (.upper (p ++ [i])) else none
  | .data _, _ => none

theorem Use.child_ne_root {i : Nat} {u' : Use κ} (h : u.child i = some u') (r : Nat) :
    u' ≠ .table r [] := by
  rintro rfl
  cases u with
  | table r' p =>
    simp only [Use.child] at h
    split at h
    · cases h
    · split at h
      · injection h with h
        injection h with _ hp
        exact List.cons_ne_nil _ _ (List.append_eq_nil_iff.mp hp).2
      · cases h
  | upper p =>
    simp only [Use.child] at h
    split at h <;> cases h
  | data d => cases h

theorem Use.child_table {i r : Nat} {q : List Nat} (h : u.child i = some (.table r q)) :
    ∃ p, u = .table r p ∧ q = p ++ [i] := by
  cases u with
  | table r' p =>
    simp only [Use.child] at h
    split at h
    · cases h
    · split at h
      · injection h with h
        injection h with h1 h2
        subst h1
        exact ⟨p, rfl, h2.symm⟩
      · cases h
  | upper p =>
    simp only [Use.child] at h
    split at h <;> cases h
  | data d => cases h

def SlotOk (G : Ledger κ) (u : Use κ) (i : Nat) (ent : U64) : Prop :=
  ∀ u', u.child i = some u' →
    ent = 0 ∨ (∃ c, ent = tableEnt c ∧ G c = some u')
    ∨ ((∃ p, u = .upper p ∧ p.length = 2)
        ∧ ent &&& VMM_FLAG_PRESENT ≠ 0 ∧ ent &&& VMM_FLAG_LARGE ≠ 0)

/-- A frame that the allocator has handed out. -/
structure Managed (m : Machine) (f : Nat) : Prop where
  low : 0x2000 ≤ f
  len : f < m.pmm_bitmap_len
  window : f < 2 ^ 20
  bit : m.bit f = true
  bitmap : ¬ m.BitmapFrame f

/-- **The ledger accounts for the machine**; `k` is the root of the kernel. -/
structure Accounted (k : Nat) (m : Machine) (G : Ledger κ) : Prop where
  len : m.pmm_bitmap_len < 2 ^ 32
  bitmap : ∀ f, f < m.pmm_bitmap_len → m.BitmapFrame f → m.bit f = true
  managed : ∀ f u, G f = some u → Managed m f
  root : ∀ f r p, G f = some (.table r p) → G r = some (.table r [])
  root_self : ∀ f r, G f = some (.table r []) → f = r
  slots : ∀ f u i, G f = some u → i < 512 → SlotOk G u i (m.slot f i)
  kernel : G k = some (.table k [])
  shared : ∀ r i, G r = some (.table r []) → 256 ≤ i → i < 512 → m.slot r i = m.slot k i

namespace Accounted

variable {k : Nat} {m m' : Machine} {G G' : Ledger κ}

theorem bitmap_len_le (h : Accounted k m G) : m.pmm_bitmap_len ≤ 2 ^ 63 := by
  have := h.len
  omega

theorem congr (h : Accounted k m G) (hlen : m'.pmm_bitmap_len = m.pmm_bitmap_len)
    (hslot : ∀ f u j, G f = some u → (∀ d, u ≠ .data d) → j < 512 → m'.slot f j = m.slot f j)
    (hbit : ∀ f, f < m.pmm_bitmap_len → m.bit f = true → (G f ≠ none ∨ m.BitmapFrame f) →
      m'.bit f = true) : Accounted k m' G := by
  have hframe : ∀ f, m'.BitmapFrame f ↔ m.BitmapFrame f := by
    intro f
    unfold Machine.BitmapFrame
    rw [hlen]
  have htable : ∀ r p i, G r = some (.table r p) → i < 512 → m'.slot r i = m.slot r i := by
    intro r p i hr hi
    exact hslot r _ i hr (by simp) hi
  constructor
  · rw [hlen]
    exact h.len
  · intro f hf hb
    rw [hlen] at hf
    rw [hframe] at hb
    exact hbit f hf (h.bitmap f hf hb) (Or.inr hb)
  · intro f u hf
    obtain ⟨h1, h2, h3, h4, h5⟩ := h.managed f u hf
    refine ⟨h1, by rw [hlen]; exact h2, h3, ?_, by rw [hframe]; exact h5⟩
    exact hbit f h2 h4 (Or.inl (by simp [hf]))
  · exact h.root
  · exact h.root_self
  · intro f u i hf hi
    cases u with
    | data d =>
      intro u' hu'
      simp [Use.child] at hu'
    | table r p =>
      rw [hslot f _ i hf (by simp) hi]
      exact h.slots f _ i hf hi
    | upper p =>
      rw [hslot f _ i hf (by simp) hi]
      exact h.slots f _ i hf hi
  · exact h.kernel
  · intro r i hr h1 h2
    rw [htable r [] i hr h2, htable k [] i h.kernel h2]
    exact h.shared r i hr h1 h2

theorem restrict (h : Accounted k m G) (hsub : ∀ f u, G' f = some u → G f = some u)
    (hkernel : G' k = some (.table k []))
    (hroot : ∀ f r p, G' f = some (.table r p) → G' r = some (.table r []))
    (hchild : ∀ f u i u' c, G' f = some u → u.child i = some u' → G c = some u' →
      G' c = some u') : Accounted k m G' where
  len := h.len
  bitmap := h.bitmap
  managed f u hf := h.managed f u (hsub f u hf)
  root := hroot
  root_self f r hf := h.root_self f r (hsub f _ hf)
  slots f u i hf hi u' hu' := by
    rcases h.slots f u i (hsub f u hf) hi u' hu' with h0 | ⟨c, hc, hG⟩ | hlarge
    · exact Or.inl h0
    · exact Or.inr (Or.inl ⟨c, hc, hchild f u i u' c hf hu' hG⟩)
    · exact Or.inr (Or.inr hlarge)
  kernel := hkernel
  shared r i hr := h.shared r i (hsub r _ hr)

variable {f i : Nat}

section

variable (h : Accounted k m G)

include h

theorem free_of_bit (hbit : m.bit f = false) : G f = none := by
  cases hf : G f with
  | none => rfl
  | some u =>
    have := (h.managed f u hf).bit
    rw [hbit] at this
    cases this

theorem not_bitmapFrame (hlen : f < m.pmm_bitmap_len)
    (hbit : m.bit f = false) : ¬ m.BitmapFrame f := by
  intro hb
  have := h.bitmap f hlen hb
  rw [hbit] at this
  cases this

theorem take (hlen : f < m.pmm_bitmap_len)
    (hbit : m.bit f = false) : Accounted k (m.take f) G := by
  have hnb := h.not_bitmapFrame hlen hbit
  have hfree := h.free_of_bit hbit
  apply h.congr (m.take_pmm_bitmap_len f)
  · intro g u j hg _ hj
    apply m.take_slot hlen hj (h.managed g u hg).bitmap
    rintro rfl
    rw [hfree] at hg
    cases hg
  · intro g hg hgbit _
    rw [m.take_bit hg hnb]
    split
    · rfl
    · exact hgbit

theorem managed_take (hlow : 0x2000 ≤ f)
    (hlen : f < m.pmm_bitmap_len) (hwin : f < 2 ^ 20) (hbit : m.bit f = false) :
    Managed (m.take f) f := by
  have hnb := h.not_bitmapFrame hlen hbit
  refine ⟨hlow, by rw [m.take_pmm_bitmap_len]; exact hlen, hwin, ?_, ?_⟩
  · rw [m.take_bit hlen hnb, if_pos rfl]
  · unfold Machine.BitmapFrame at hnb ⊢
    rw [m.take_pmm_bitmap_len]
    exact hnb

theorem enroll {u : Use κ} (hfree : G f = none)
    (hman : Managed m f) (hroot : ∀ r p, u = .table r p → p = [] ∧ f = r
      ∨ p ≠ [] ∧ G r = some (.table r []))
    (hslots : ∀ i, i < 512 → SlotOk G u i (m.slot f i))
    (hshared : ∀ i, u = .table f [] → 256 ≤ i → i < 512 → m.slot f i = m.slot k i) :
    Accounted k m (Function.update G f (some u)) := by
  have hkeep : ∀ g u', G g = some u' → Function.update G f (some u) g = some u' :=
    fun g u' hg => Ledger.update_keeps hfree (some u) hg
  have hsplit : ∀ g u', Function.update G f (some u) g = some u' →
      (g = f ∧ u' = u) ∨ G g = some u' := by
    intro g u' hg
    by_cases hgf : g = f
    · subst hgf
      rw [Function.update_self] at hg
      injection hg with hg
      exact Or.inl ⟨rfl, hg.symm⟩
    · rw [Function.update_of_ne hgf] at hg
      exact Or.inr hg
  have hok : ∀ u' i ent, SlotOk G u' i ent → SlotOk (Function.update G f (some u)) u' i ent := by
    intro u' i ent hs u'' hu''
    rcases hs u'' hu'' with h0 | ⟨c, hc, hG⟩ | hlarge
    · exact Or.inl h0
    · exact Or.inr (Or.inl ⟨c, hc, hkeep c _ hG⟩)
    · exact Or.inr (Or.inr hlarge)
  constructor
  · exact h.len
  · exact h.bitmap
  · intro g u' hg
    rcases hsplit g u' hg with ⟨rfl, -⟩ | hg
    · exact hman
    · exact h.managed g u' hg
  · intro g r p hg
    rcases hsplit g _ hg with ⟨rfl, hu⟩ | hg
    · rcases hroot r p hu.symm with ⟨rfl, rfl⟩ | ⟨-, hr⟩
      · exact hg
      · exact hkeep r _ hr
    · exact hkeep r _ (h.root g r p hg)
  · intro g r hg
    rcases hsplit g _ hg with ⟨rfl, hu⟩ | hg
    · rcases hroot r [] hu.symm with ⟨-, hgr⟩ | ⟨hne, -⟩
      · exact hgr
      · exact absurd rfl hne
    · exact h.root_self g r hg
  · intro g u' i hg hi
    rcases hsplit g u' hg with ⟨rfl, rfl⟩ | hg
    · exact hok _ _ _ (hslots i hi)
    · exact hok _ _ _ (h.slots g u' i hg hi)
  · exact hkeep k _ h.kernel
  · intro r i hr h1 h2
    rcases hsplit r _ hr with ⟨rfl, hu⟩ | hr
    · exact hshared i hu.symm h1 h2
    · exact h.shared r i hr h1 h2

theorem write {u : Use κ} {ent : U64} (hf : G f = some u)
    (hi : i < 512) (hok : SlotOk G u i ent)
    (hone : u = .table f [] → 256 ≤ i → ∀ r, G r = some (.table r []) → r = k) :
    Accounted k (m.setWord (512 * f + i) ent) G := by
  have hnb := (h.managed f u hf).bitmap
  have hdiv : (512 * f + i) / 512 = f := by omega
  have hbits : ∀ g, g < m.pmm_bitmap_len → (m.setWord (512 * f + i) ent).bit g = m.bit g := by
    intro g hg
    apply m.setWord_bit _ hg
    rw [hdiv]
    exact hnb
  constructor
  · exact h.len
  · intro g hg hb
    rw [hbits g hg]
    exact h.bitmap g hg hb
  · intro g u' hg
    obtain ⟨h1, h2, h3, h4, h5⟩ := h.managed g u' hg
    exact ⟨h1, h2, h3, by rw [hbits g h2]; exact h4, h5⟩
  · exact h.root
  · exact h.root_self
  · intro g u' j hg hj
    rw [m.setWord_slot ent hi hj]
    split
    · next he =>
        obtain ⟨rfl, rfl⟩ := he
        rw [hf] at hg
        injection hg with hg
        subst hg
        exact hok
    · exact h.slots g u' j hg hj
  · exact h.kernel
  · intro r j hr h1 h2
    by_cases he : f = r ∧ i = j
    · -- the shared half of the only root
      obtain ⟨rfl, rfl⟩ := he
      rw [hf] at hr
      injection hr with hr
      rw [hone hr h1 f (hr ▸ hf)]
    · by_cases hk : f = k ∧ i = j
      · obtain ⟨rfl, rfl⟩ := hk
        have hu : u = .table f [] := by
          have := hf.symm.trans h.kernel
          injection this
        rw [hone hu h1 r hr]
      · rw [m.setWord_slot ent hi h2, m.setWord_slot ent hi h2,
          if_neg (by rintro ⟨rfl, rfl⟩; exact he ⟨rfl, rfl⟩),
          if_neg (by rintro ⟨rfl, rfl⟩; exact hk ⟨rfl, rfl⟩)]
        exact h.shared r j hr h1 h2

theorem link {c : Nat} {u u' : Use κ} (hf : G f = some u)
    (hi : i < 512) (hu' : u.child i = some u') (hlow : 0x2000 ≤ c) (hlen : c < m.pmm_bitmap_len)
    (hwin : c < 2 ^ 20) (hbit : m.bit c = false)
    (hone : u = .table f [] → 256 ≤ i → ∀ r, G r = some (.table r []) → r = k) :
    Accounted k (m.link f i c) (Function.update G c (some u')) := by
  have hfree := h.free_of_bit hbit
  have hnb := h.not_bitmapFrame hlen hbit
  have hfc : f ≠ c := by
    rintro rfl
    rw [hfree] at hf
    cases hf
  have hnb' : ¬ (m.take c).BitmapFrame c := by
    unfold Machine.BitmapFrame at hnb ⊢
    rw [m.take_pmm_bitmap_len]
    exact hnb
  -- the frame is handed out, enters the ledger, and is linked
  have h1 := h.take hlen hbit
  have h2 : Accounted k (m.take c) (Function.update G c (some u')) := by
    apply h1.enroll hfree (h.managed_take hlow hlen hwin hbit)
    · intro r p hu
      right
      subst hu
      obtain ⟨q, rfl, rfl⟩ := Use.child_table hu'
      exact ⟨by simp, h.root f r q hf⟩
    · intro j hj u'' _
      exact Or.inl (m.take_slot_self hj)
    · intro j hu
      exact absurd hu (Use.child_ne_root hu' c)
  have h3 : Accounted k ((m.take c).setWord (512 * f + i) (tableEnt c))
      (Function.update G c (some u')) := by
    have hf' : Function.update G c (some u') f = some u := by
      rw [Function.update_of_ne hfc]
      exact hf
    apply h2.write hf' hi
    · intro u'' hu''
      rw [hu'] at hu''
      injection hu'' with hu''
      subst hu''
      exact Or.inr (Or.inl ⟨c, rfl, Function.update_self ..⟩)
    · intro hu h256 r hr
      by_cases hrc : r = c
      · subst hrc
        rw [Function.update_self] at hr
        injection hr with hr
        exact absurd hr (Use.child_ne_root hu' r)
      · rw [Function.update_of_ne hrc] at hr
        exact hone hu h256 r hr
  -- clearing the table once more changes nothing
  refine h3.congr (show (m.link f i c).pmm_bitmap_len = _ from rfl) ?_ ?_
  · intro g u'' j _ _ hj
    by_cases hgc : g = c
    · subst hgc
      rw [Machine.link, Machine.zeroWords_slot_self _ hj, Machine.setWord_slot _ _ hi hj, if_neg,
        m.take_slot_self hj]
      rintro ⟨rfl, -⟩
      exact hfc rfl
    · rw [Machine.link, Machine.zeroWords_slot_ne _ hj hgc]
  · intro g hg hgbit _
    rw [Machine.link, Machine.zeroWords_bit _ hg hnb']
    exact hgbit

end

end Accounted

end Quack.Arch
