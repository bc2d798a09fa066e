/-
  Quack.Sys.Effects
  **FRAMES OF THE WHOLE KERNEL, and what one part of it may do to the others.**

  Data frames belong to a user page or to a page of the kernel's heap.
  `Confined W` is a step that keeps the ledger's uses outside `W` and what is
  in those frames; `SpaceEffect r` is a step on behalf of the address space with
  root `r`, which besides leaves the kernel's own pages alone.  Every operation
  of an address space is put together from five such steps.
-/
import Quack.Arch.Window

namespace Quack.Arch

open Lib

variable {κ : Type} {k f : Nat} {m : Machine} {G : Ledger κ}

/-! ## §1. Data frames come and go. -/

@[simp] theorem set_top_entry (m : Machine) (top : U64) (r v : Nat) :
    ({ m with top := top } : Machine).entry r v = m.entry r v := rfl

@[simp] theorem set_top_table (m : Machine) (top : U64) (r v : Nat) :
    ({ m with top := top } : Machine).table r v = m.table r v := rfl

@[simp] theorem set_top_slot (m : Machine) (top : U64) (g j : Nat) :
    ({ m with top := top } : Machine).slot g j = m.slot g j := rfl

@[simp] theorem set_top_bit (m : Machine) (top : U64) (g : Nat) :
    ({ m with top := top } : Machine).bit g = m.bit g := rfl

@[simp] theorem set_top_walk (m : Machine) (top : U64) (r : Nat) (path : List Nat) :
    Forest.walk child ({ m with top := top } : Machine).slot r path
      = Forest.walk child m.slot r path := rfl

theorem frameOf_addr (hwin : f < 2 ^ 20) : frameOf (BitVec.ofNat 64 (4096 * f)) = f := by
  unfold frameOf
  rw [BitVec.toNat_ofNat, Nat.mod_eq_of_lt (show 4096 * f < 2 ^ 64 by omega)]
  omega

namespace Accounted

section

variable (h : Accounted k m G)

include h

theorem set_top (top : U64) : Accounted k { m with top := top } G :=
  h.congr rfl (fun _ _ _ _ _ _ => rfl) (fun _ _ hset _ => hset)

theorem take_slot_eq (hlen : f < m.pmm_bitmap_len) (hbit : m.bit f = false)
    {g j : Nat} {u : Use κ} (hg : G g = some u) (hj : j < 512) :
    (m.take f).slot g j = m.slot g j := by
  apply m.take_slot hlen hj (h.managed g u hg).bitmap
  rintro rfl
  rw [h.free_of_bit hbit] at hg
  cases hg

theorem take_data (d : κ) (hlow : 0x2000 ≤ f)
    (hlen : f < m.pmm_bitmap_len) (hwin : f < 2 ^ 20) (hbit : m.bit f = false) :
    Accounted k (m.take f) (Function.update G f (some (.data d))) := by
  refine (h.take hlen hbit).enroll (h.free_of_bit hbit) (h.managed_take hlow hlen hwin hbit)
    ?_ ?_ ?_
  · intro r p hu
    cases hu
  · intro i _ u' hu'
    cases hu'
  · intro i hu
    cases hu

theorem drop_data {d : κ} (hf : G f = some (.data d)) :
    Accounted k m (Function.update G f none) := by
  -- no table is at the frame
  have hkeep : ∀ g u, G g = some u → u ≠ .data d → Function.update G f none g = some u := by
    intro g u hg hu
    rw [Function.update_of_ne]
    · exact hg
    · rintro rfl
      rw [hf] at hg
      injection hg with hg
      exact hu hg.symm
  have hsub : ∀ g u, Function.update G f none g = some u → G g = some u := by
    intro g u hg
    by_cases hgf : g = f
    · subst hgf
      rw [Function.update_self] at hg
      cases hg
    · rwa [Function.update_of_ne hgf] at hg
  refine h.restrict hsub (hkeep k _ h.kernel (by simp)) ?_ ?_
  · intro g r p hg
    exact hkeep r _ (h.root g r p (hsub g _ hg)) (by simp)
  · intro g u i u' c _ hchild hc
    apply hkeep c u' hc
    rintro rfl
    cases u with
    | table r p =>
      simp only [Use.child] at hchild
      split at hchild
      · cases hchild
      · split at hchild <;> cases hchild
    | upper p =>
      simp only [Use.child] at hchild
      split at hchild <;> cases hchild
    | data e => cases hchild

theorem give (hf : G f = none) (hlen : f < m.pmm_bitmap_len)
    (hnb : ¬ m.BitmapFrame f) : Accounted k (m.give f) G := by
  refine h.congr (show (m.give f).pmm_bitmap_len = _ from rfl) ?_ ?_
  · intro g u j hg _ hj
    exact m.give_slot hlen hj (h.managed g u hg).bitmap
  · intro g _ hset hor
    rw [m.give_bit, if_neg]
    · exact hset
    · rintro rfl
      rcases hor with hne | hb
      · exact hne hf
      · exact hnb hb

end

end Accounted

end Quack.Arch

namespace Quack.Sys

open Lib Arch

/-! ## §2. Owners of data. -/

/-- Page `v` of the space with root `r`, or of the kernel's heap. -/
inductive Owner where
  | page (r v : Nat)
  | heap (v : Nat)
  deriving DecidableEq

/-- The uses that belong to the space with root `r`. -/
def OfSpace (r : Nat) : Use Owner → Prop
  | .table r' _ => r' = r
  | .upper _ => False
  | .data (.page r' _) => r' = r
  | .data (.heap _) => False

/-! ## §3. Confined steps. -/

variable {W : Use Owner → Prop} {k r f : Nat} {m m' m'' : Machine} {G G' G'' : Ledger Owner}

/-- The step may change uses in `W`, and tables of the kernel. -/
structure Confined (W : Use Owner → Prop) (k : Nat) (m : Machine) (G : Ledger Owner)
    (m' : Machine) (G' : Ledger Owner) : Prop where
  accounted : Accounted k m' G'
  len : m'.pmm_bitmap_len = m.pmm_bitmap_len
  kernel : m'.kernel_pml4 = m.kernel_pml4
  ext : ∀ f u, G f = some u → ¬ W u → G' f = some u
  slots : ∀ f u j, G f = some u → ¬ W u → (∀ p, u ≠ .table k p) → j < 512 →
    m'.slot f j = m.slot f j

namespace Confined

theorem refl (W : Use Owner → Prop) (h : Accounted k m G) : Confined W k m G m G :=
  ⟨h, rfl, rfl, fun _ _ hf _ => hf, fun _ _ _ _ _ _ _ => rfl⟩

theorem trans (h1 : Confined W k m G m' G') (h2 : Confined W k m' G' m'' G'') :
    Confined W k m G m'' G'' where
  accounted := h2.accounted
  len := h2.len.trans h1.len
  kernel := h2.kernel.trans h1.kernel
  ext f u hf hu := h2.ext f u (h1.ext f u hf hu) hu
  slots f u j hf hu hk hj := by
    rw [h2.slots f u j (h1.ext f u hf hu) hu hk hj, h1.slots f u j hf hu hk hj]

theorem mono {W' : Use Owner → Prop} (h : Confined W k m G m' G') (hW : ∀ u, W u → W' u) :
    Confined W' k m G m' G' :=
  ⟨h.accounted, h.len, h.kernel, fun f u hf hu => h.ext f u hf (fun hw => hu (hW u hw)),
    fun f u j hf hu => h.slots f u j hf (fun hw => hu (hW u hw))⟩

theorem entry (h : Confined W k m G m' G') (hA : Accounted k m G)
    (hr : G r = some (.table r [])) (hrk : r ≠ k) (hW : ∀ p, ¬ W (.table r p)) {v : Nat}
    (hv : v < 2 ^ 35) : m'.entry r v = m.entry r v := by
  apply hA.entry_congr hr hv
  intro f p j hf hj
  apply h.slots f _ j hf (hW p) _ hj
  intro p' he
  injection he with he
  exact hrk he

end Confined

/-! ## §4. Steps of an address space. -/

/-- The kernel's own pages and its heap's end stay. -/
structure KernelKept (k : Nat) (m m' : Machine) : Prop where
  top : m'.top = m.top
  entries : ∀ v, v < 2 ^ 35 → m'.entry k v = m.entry k v
  tables : ∀ v f, v < 2 ^ 35 → m.table k v = some f → m'.table k v = some f

/-- A step of the space with root `r`. -/
structure SpaceEffect (r k : Nat) (m : Machine) (G : Ledger Owner) (m' : Machine)
    (G' : Ledger Owner) : Prop extends Confined (OfSpace r) k m G m' G', KernelKept k m m'

theorem KernelKept.of_slots (hA : Accounted k m G) (htop : m'.top = m.top)
    (hslot : ∀ f p j, G f = some (.table k p) → j < 512 → m'.slot f j = m.slot f j) :
    KernelKept k m m' where
  top := htop
  entries _ hv := hA.entry_congr hA.kernel hv hslot
  tables v f hv hf := by
    rw [hA.table_congr hA.kernel hv hslot]
    exact hf

namespace SpaceEffect

theorem refl (h : Accounted k m G) : SpaceEffect r k m G m G :=
  ⟨Confined.refl _ h, rfl, fun _ _ => rfl, fun _ _ _ hf => hf⟩

theorem trans (h1 : SpaceEffect r k m G m' G') (h2 : SpaceEffect r k m' G' m'' G'') :
    SpaceEffect r k m G m'' G'' where
  toConfined := h1.toConfined.trans h2.toConfined
  top := h2.top.trans h1.top
  entries v hv := (h2.entries v hv).trans (h1.entries v hv)
  tables v f hv hf := h2.tables v f hv (h1.tables v f hv hf)

theorem of_touches (hA : Accounted k m G) (hA' : Accounted k m' G') (hrk : r ≠ k)
    (ht : Touches r m G m' G') : SpaceEffect r k m G m' G' where
  accounted := hA'
  len := ht.vars.len
  kernel := ht.vars.kernel
  ext f u hf _ := ht.ext f u hf
  slots f u j hf hu _ hj := by
    apply ht.slots f u j hf _ hj
    rintro p rfl
    exact hu rfl
  top := ht.vars.top
  entries _ hv := ht.entry_other hA hA.kernel hrk.symm hv
  tables v f hv hf := by
    rw [ht.table_other hA hA.kernel hrk.symm hv]
    exact hf

theorem of_copied {P : Nat → Prop} (hc : Copied P k m G m' G')
    (hP : ∀ f u, P f → G f = some u → OfSpace r u) : SpaceEffect r k m G m' G' where
  accounted := hc.accounted
  len := hc.vars.len
  kernel := hc.vars.kernel
  ext f u hf _ := hc.ext f u hf
  slots f u j hf hu hk hj := hc.slots f u j hf hk (fun hp => hu (hP f u hp hf)) hj
  top := hc.vars.top
  entries := hc.entries
  tables := hc.tables

theorem take_page (hA : Accounted k m G) (v : Nat) (hlow : 0x2000 ≤ f)
    (hlen : f < m.pmm_bitmap_len) (hwin : f < 2 ^ 20) (hbit : m.bit f = false) :
    SpaceEffect r k m G (m.take f) (Function.update G f (some (.data (.page r v)))) := by
  have hfree := hA.free_of_bit hbit
  have hslot : ∀ g u j, G g = some u → j < 512 → (m.take f).slot g j = m.slot g j :=
    fun g u j hg hj => hA.take_slot_eq hlen hbit hg hj
  have hvars := m.take_vars f
  refine ⟨⟨hA.take_data _ hlow hlen hwin hbit, hvars.len, hvars.kernel, ?_, ?_⟩, ?_⟩
  · intro g u hg _
    exact Ledger.update_keeps hfree _ hg
  · intro g u j hg _ _ hj
    exact hslot g u j hg hj
  · exact KernelKept.of_slots hA hvars.top (fun g p j hg hj => hslot g _ j hg hj)

theorem give_page (hA : Accounted k m G) {v : Nat} (hf : G f = some (.data (.page r v))) :
    SpaceEffect r k m G (m.give f) (Function.update G f none) := by
  have hman := hA.managed f _ hf
  have hslot : ∀ g u j, G g = some u → j < 512 → (m.give f).slot g j = m.slot g j :=
    fun g u j hg hj => m.give_slot hman.len hj (hA.managed g u hg).bitmap
  refine ⟨⟨(hA.drop_data hf).give (Function.update_self ..) hman.len hman.bitmap, rfl, rfl,
    ?_, ?_⟩, ?_⟩
  · intro g u hg hu
    rw [Function.update_of_ne]
    · exact hg
    · rintro rfl
      rw [hf] at hg
      injection hg with hg
      exact hu (hg ▸ rfl)
  · intro g u j hg _ _ hj
    exact hslot g u j hg hj
  · exact KernelKept.of_slots hA rfl (fun g p j hg hj => hslot g _ j hg hj)

end SpaceEffect

end Quack.Sys
