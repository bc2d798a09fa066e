/-
  Quack.Mm.Attributes
  **WHAT A CALL MAY CHANGE ABOUT A REGION.**

  Base, size, permissions and caching of a region are set once, by the call that
  places it.  Whatever the architecture does, no other call changes them, and
  only `unmap_region` takes a region out of the tables.
-/
import Quack.Mm.Facts

namespace Quack.Mm

open Lib

variable {σ : Type} {arch : ArchMm σ}

/-! ## §1. Regions. -/

namespace MemoryMapping

/-- The attributes a region keeps. -/
def attrs (m : MemoryMapping) : MemoryHole × BitVec 32 × BitVec 32 :=
  (m.shape, m.perms, m.cache_mode)

/-- Only the backing pages differ. -/
def Same (m m' : MemoryMapping) : Prop := m'.attrs = m.attrs ∧ m'.mapped = m.mapped

theorem Same.refl (m : MemoryMapping) : m.Same m := ⟨rfl, rfl⟩

variable {m m' : MemoryMapping}

theorem Same.trans {m'' : MemoryMapping} (h1 : m.Same m') (h2 : m'.Same m'') : m.Same m'' :=
  ⟨h2.1.trans h1.1, h2.2.trans h1.2⟩

/-- Touching a page changes pages only, -/
theorem touch_same {idx : U64} {b : Bool} {s s' : σ}
    (h : m.touch arch idx s = some ((b, m'), s')) : m.Same m' := by
  simp only [touch, Prog.bind_eq_some, Prog.ofOption_eq_some] at h
  obtain ⟨page, _, ⟨-, rfl⟩, h⟩ := h
  split at h
  · simp only [Prog.pure_eq_some, Prod.mk.injEq] at h
    obtain ⟨⟨-, rfl⟩, -⟩ := h
    exact Same.refl m
  · simp only [Prog.bind_eq_some] at h
    obtain ⟨_, _, -, ptr, _, -, h⟩ := h
    split at h
    all_goals
      simp only [Prog.pure_eq_some, Prod.mk.injEq] at h
      obtain ⟨⟨-, rfl⟩, -⟩ := h
      exact ⟨rfl, rfl⟩

/-- and so does touching a range of them, -/
theorem touchRange_same (n : Nat) (start : U64) (touched b : Bool) (m m' : MemoryMapping)
    (s s' : σ) (h : touchRange arch n start touched m s = some ((b, m'), s')) : m.Same m' := by
  induction n generalizing start touched b m m' s s' with
  | zero =>
    simp only [touchRange, Prog.pure_eq_some, Prod.mk.injEq] at h
    obtain ⟨⟨-, rfl⟩, -⟩ := h
    exact Same.refl m
  | succ n ih =>
    simp only [touchRange, Prog.bind_eq_some] at h
    obtain ⟨⟨_, m1⟩, _, htouch, hrest⟩ := h
    exact (touch_same htouch).trans (ih _ _ _ _ _ _ _ hrest)

/-- also before a copy, -/
theorem ensure_load_store_same {offset size : U64} {b : Bool} {s s' : σ}
    (h : m.ensure_load_store arch offset size s = some ((b, m'), s')) : m.Same m' := by
  simp only [ensure_load_store, Prog.bind_eq_some] at h
  obtain ⟨_, _, -, h⟩ := h
  split at h
  · simp only [Prog.pure_eq_some, Prod.mk.injEq] at h
    obtain ⟨⟨-, rfl⟩, -⟩ := h
    exact Same.refl m
  · exact touchRange_same _ _ _ _ _ _ _ _ h

/-- and in the fault handler. -/
theorem fault_hit_same {address : U64} {res : VmFaultResult} {s s' : σ}
    (h : m.fault_hit arch address s = some ((res, m'), s')) : m.Same m' := by
  simp only [fault_hit, Prog.bind_eq_some, Prog.ofOption_eq_some] at h
  obtain ⟨_, _, -, page, _, -, h⟩ := h
  split at h
  · simp only [Prog.bind_eq_some, Prog.pure_eq_some, Prod.mk.injEq] at h
    obtain ⟨⟨b, m1⟩, _, htouch, ⟨-, rfl⟩, -⟩ := h
    exact touch_same htouch
  · repeat' split at h
    all_goals
      simp only [Prog.pure_eq_some, Prod.mk.injEq] at h
      obtain ⟨⟨-, rfl⟩, -⟩ := h
      exact Same.refl m

end MemoryMapping

/-! ## §2. Spaces. -/

namespace AddressSpace

/-- Every region was there before. -/
def Keeps (as as' : AddressSpace) : Prop :=
  ∀ reg' ∈ as'.mapped_regions, ∃ reg ∈ as.mapped_regions,
    reg'.attrs = reg.attrs ∧ (reg.mapped = true → reg'.mapped = true)

/-- One region is new, the others are those of before. -/
def Placed (perms : BitVec 32) (as as' : AddressSpace) : Prop :=
  ∃ c : Cursor MemoryMapping, as'.mapped_regions = c.toList ∧ c.erase = as.mapped_regions
    ∧ c.elem.perms = perms ∧ c.elem.mapped = true

variable {as as' : AddressSpace} {s s' : σ}

theorem Keeps.refl (as : AddressSpace) : Keeps as as := fun reg h => ⟨reg, h, rfl, id⟩

variable {c : Cursor MemoryMapping} {m : MemoryMapping} {address size base r : U64}
  {data : List (BitVec 8)} {init : MemoryMapping → Option MemoryMapping} {perms : BitVec 32}

/-- A region in the place of another with its attributes. -/
theorem Keeps.withRegion (hl : c.toList = as.mapped_regions) (hattrs : m.attrs = c.elem.attrs)
    (hmapped : c.elem.mapped = true → m.mapped = true) : Keeps as (as.withRegion c m) := by
  intro reg hreg
  rcases List.mem_cons.mp ((c.set_perm m).mem_iff.mp hreg) with rfl | hold
  · exact ⟨c.elem, Cursor.elem_mem hl, hattrs, hmapped⟩
  · exact ⟨reg, Cursor.mem_of_erase hl hold, rfl, id⟩

/-- Mapping a region keeps all attributes. -/
theorem Keeps.map_region {reg : MemoryMapping}
    (hl : c.toList = as.mapped_regions) (hsame : c.elem.Same reg)
    (h : as.map_region arch reg s = some (m, s')) : Keeps as (as.withRegion c m) := by
  obtain ⟨rfl, -⟩ := map_region_cases h
  exact Keeps.withRegion hl hsame.1 (fun _ => rfl)

/-- Mapping it again after a touch does too. -/
theorem Keeps.remap {b : Bool}
    (hl : c.toList = as.mapped_regions) (hsame : c.elem.Same m)
    (h : as.remap arch c b m s = some (as', s')) : Keeps as as' := by
  rcases remap_cases h with ⟨-, rfl, -⟩ | ⟨-, m', hmap, rfl⟩
  · refine Keeps.withRegion hl hsame.1 (fun hm => ?_)
    rw [hsame.2]
    exact hm
  · exact Keeps.map_region hl hsame hmap

def Refills (arch : ArchMm σ) (as as' : AddressSpace) : Prop :=
  as' = as ∨ ∃ c b m t t', c.toList = as.mapped_regions ∧ c.elem.Same m
    ∧ as.remap arch c b m t = some (as', t')

/-- Other pages are the same regions. -/
theorem Refills.keeps (h : Refills arch as as') : Keeps as as' := by
  rcases h with rfl | ⟨c, b, m, t, t', hl, hsame, hremap⟩
  · exact Keeps.refl _
  · exact Keeps.remap hl hsame hremap

/-- `touch` refills, -/
theorem touch_refills (h : as.touch arch address s = some (as', s')) : Refills arch as as' := by
  rcases touch_cases h with ⟨rfl, -⟩ | ⟨c, b, m, t, hfind, htouch, hremap⟩
  · exact Or.inl rfl
  · exact Or.inr ⟨c, b, m, t, s', (region_for_address_some hfind).1,
      MemoryMapping.touch_same htouch, hremap⟩

/-- `touch_all` refills, -/
theorem touch_all_refills (h : as.touch_all arch address s = some (as', s')) :
    Refills arch as as' := by
  rcases touch_all_cases h with ⟨rfl, -⟩ | ⟨c, b, m, t, hfind, htouch, hremap⟩
  · exact Or.inl rfl
  · exact Or.inr ⟨c, b, m, t, s', (region_for_address_some hfind).1,
      MemoryMapping.touchRange_same _ _ _ _ _ _ _ _ htouch, hremap⟩

/-- a fault refills, -/
theorem fault_hit_refills {b : Bool} (h : as.fault_hit arch address s = some ((b, as'), s')) :
    Refills arch as as' := by
  rcases fault_hit_cases h with ⟨rfl, -⟩ | ⟨c, _, m, t, hfind, hfault, hremap⟩
  · exact Or.inl rfl
  · exact Or.inr ⟨c, _, m, t, s', (region_for_address_some hfind).1,
      MemoryMapping.fault_hit_same hfault, hremap⟩

/-- `load` refills, -/
theorem load_refills (h : as.load arch address data s = some (as', s')) : Refills arch as as' := by
  rcases load_cases h with ⟨rfl, -⟩ | ⟨c, b, m, _, t, hfind, hensure, -, hremap⟩
  · exact Or.inl rfl
  · exact Or.inr ⟨c, b, m, t, s', (region_for_address_some hfind).1,
      MemoryMapping.ensure_load_store_same hensure, hremap⟩

/-- and `store` refills. -/
theorem store_refills (h : as.store arch address size s = some ((as', data), s')) :
    Refills arch as as' := by
  rcases store_cases h with ⟨rfl, -⟩ | ⟨c, b, m, _, t, hfind, hensure, -, hremap⟩
  · exact Or.inl rfl
  · exact Or.inr ⟨c, b, m, t, s', (region_for_address_some hfind).1,
      MemoryMapping.ensure_load_store_same hensure, hremap⟩

/-- `destroy` takes a region away and keeps the others. -/
theorem destroy_keeps (hl : c.toList = as.mapped_regions)
    (h : as.destroy arch c s = some (as', s')) : Keeps as as' := by
  obtain ⟨-, rfl, -⟩ := destroy_cases h
  intro reg hreg
  exact ⟨reg, Cursor.mem_of_erase hl hreg, rfl, id⟩

/-- `deallocate` drops frames, not regions. -/
theorem deallocate_keeps
    (hl : c.toList = as.mapped_regions) (h : c.elem.deallocate arch s = some (m, s')) :
    Keeps as (as.withRegion c m) := by
  simp only [MemoryMapping.deallocate, Prog.bind_eq_some, Prog.pure_eq_some] at h
  obtain ⟨_, _, -, _, _, -, rfl, -⟩ := h
  exact Keeps.withRegion hl rfl id

/-- A bound region is set up with the given permissions. -/
theorem finish_placed {as1 : AddressSpace}
    (hb : as.Bound as1 c base size) (hinit : ∀ x y, init x = some y → y.perms = perms)
    (h : as1.finish arch c init s = some ((r, as'), s')) : Placed perms as as' := by
  obtain ⟨m, m', hm, hmap, -, rfl⟩ := finish_cases h
  obtain ⟨rfl, -⟩ := map_region_cases hmap
  exact ⟨c.set { m with mapped := true }, rfl, hb.others, hinit c.elem m hm, rfl⟩

/-- **`allocate` and `map` place one region or none.** -/
theorem placeAnywhere_placed (hinit : ∀ x y, init x = some y → y.perms = perms)
    (h : as.placeAnywhere arch size init s = some ((r, as'), s')) :
    Keeps as as' ∨ Placed perms as as' := by
  rcases placeAnywhere_cases h with ⟨-, -, rfl, -⟩ | ⟨hole, as1, c, -, hbind, hfin⟩
  · exact Or.inl (Keeps.refl _)
  · right
    rcases (bind_hole_cases hbind).2 with ⟨-, -, hb⟩ | ⟨-, -, hb⟩
    · exact finish_placed hb hinit hfin
    · exact finish_placed hb hinit hfin

/-- **`allocate_at` and `map_at` place one region or none.** -/
theorem placeAt_placed (hinit : ∀ x y, init x = some y → y.perms = perms)
    (h : as.placeAt arch base size init s = some ((r, as'), s')) :
    Keeps as as' ∨ Placed perms as as' := by
  rcases placeAt_cases h with ⟨hbind, -, -⟩ | ⟨as1, c, hbind, hfin⟩
  · obtain ⟨-, -, ⟨-, rfl, -⟩ | ⟨_, _, hsome, -⟩⟩ := bind_exact_cases hbind
    · exact Or.inl (Keeps.refl as)
    · cases hsome
  · obtain ⟨-, -, ⟨hnone, -, -⟩ | ⟨_, m, hsome, -, -, -, hb⟩⟩ := bind_exact_cases hbind
    · cases hnone
    · injection hsome with hsome
      subst hsome
      exact Or.inr (finish_placed hb hinit hfin)

end AddressSpace

variable {cache perms : BitVec 32}

/-- `allocate` sets the permissions, -/
theorem MemoryMapping.allocate_perms {m m' : MemoryMapping}
    (h : m.allocate perms cache = some m') : m'.perms = perms := by
  unfold MemoryMapping.allocate at h
  split at h
  · injection h with h
    rw [← h]
  · cases h

/-- and `map_to` does. -/
theorem MemoryMapping.map_to_perms {address : U64}
    {m m' : MemoryMapping} (h : m.map_to address perms cache = some m') : m'.perms = perms := by
  unfold MemoryMapping.map_to at h
  split at h
  · injection h with h
    rw [← h]
  · cases h

end Quack.Mm
