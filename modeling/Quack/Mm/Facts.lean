/-
  Quack.Mm.Facts
  **WHAT THE OPERATIONS OF AN ADDRESS SPACE CAN DO.**

  One inversion lemma for each operation, and the facts about positions in the
  two lists that hold whatever the addresses are.  The proofs about tilings,
  holes and page tables use these and do not unfold the operations again.
-/
import Quack.Mm.AddressSpace
import Quack.Lib.Runs

namespace Quack.Mm

open Lib

variable {σ : Type} {arch : ArchMm σ}

/-! ## §1. Addresses, and regions' places and sizes. -/

theorem toNat_page_size : vm_page_size.toNat = 4096 := rfl

/-- The end of a range that does not wrap. -/
theorem toNat_add_pages {b n : U64} (h : b.toNat + 4096 * n.toNat < 2 ^ 64) :
    (b + n * vm_page_size).toNat = b.toNat + 4096 * n.toNat := by
  have hn : 4096 * n.toNat < 2 ^ 64 := by omega
  rw [BitVec.toNat_add, BitVec.toNat_mul, toNat_page_size, Nat.mul_comm n.toNat,
    Nat.mod_eq_of_lt hn, Nat.mod_eq_of_lt h]

/-- Base and size: what the lists know about a region. -/
def MemoryMapping.shape (m : MemoryMapping) : MemoryHole := ⟨m.base, m.size⟩

@[simp] theorem new_shape (base size : U64) :
    (MemoryMapping.new base size).shape = ⟨base, size⟩ := rfl

variable {cache perms : BitVec 32}

/-- `allocate` keeps base and size, -/
theorem MemoryMapping.allocate_shape {m m' : MemoryMapping}
    (h : m.allocate perms cache = some m') : m'.shape = m.shape := by
  unfold MemoryMapping.allocate at h
  split at h
  · injection h with h
    subst h
    rfl
  · cases h

/-- and `map_to` does. -/
theorem MemoryMapping.map_to_shape {m m' : MemoryMapping} {address : U64}
    (h : m.map_to address perms cache = some m') : m'.shape = m.shape := by
  unfold MemoryMapping.map_to at h
  split at h
  · injection h with h
    subst h
    rfl
  · cases h

/-- On a new region `allocate` returns, and no page exists yet. -/
theorem MemoryMapping.allocate_new (base size : U64) (perms cache : BitVec 32) :
    ∃ m, (MemoryMapping.new base size).allocate perms cache = some m ∧ m.base = base
      ∧ ∀ page ∈ m.backing_pages, page.exists_ = false := by
  have huntouched : (MemoryMapping.new base size).untouched = true := by
    simp [MemoryMapping.untouched, MemoryMapping.new, BackingPage.zero]
  refine ⟨_, if_pos huntouched, rfl, fun page hp => ?_⟩
  obtain ⟨q, hq, rfl⟩ := List.mem_map.mp hp
  rw [List.eq_of_mem_replicate hq]
  rfl

/-! ## §2. Positions found by the loops. -/

/-- The loop of the successor search keeps a position of the list. -/
theorem findSucc_fold_mem {α : Type} (base size : α → U64) (in_base : U64) :
    ∀ (cs : List (Cursor α)) (acc : Option (Cursor α) × Int) (c : Cursor α),
      (cs.foldl (findSuccStep base size in_base) acc).1 = some c → acc.1 = some c ∨ c ∈ cs
  | [], acc, c, h => Or.inl h
  | d :: cs, acc, c, h => by
    rcases findSucc_fold_mem base size in_base cs _ c h with hacc | hmem
    · unfold findSuccStep at hacc
      split at hacc
      · exact Or.inl hacc
      · simp only at hacc
        split at hacc
        · injection hacc with hacc
          exact Or.inr (by simp [hacc])
        · exact Or.inl hacc
    · exact Or.inr (List.mem_cons_of_mem d hmem)

/-- The successor is in the list. -/
theorem findSucc_mem {α : Type} {base size : α → U64} {in_base : U64} {l : List α}
    {c : Cursor α} (h : findSucc base size in_base l = some c) : c ∈ Cursor.cursors l := by
  rcases findSucc_fold_mem base size in_base _ _ c h with hnone | hmem
  · cases hnone
  · exact hmem

/-- The loop of `find_free_hole` keeps a hole that is large enough. -/
theorem findFree_fold_mem (size : U64) :
    ∀ (cs : List (Cursor MemoryHole)) (acc : Option (Cursor MemoryHole) × U64)
      (c : Cursor MemoryHole), (cs.foldl (findFreeStep size) acc).1 = some c →
      acc.1 = some c ∨ (c ∈ cs ∧ c.elem.size ≥ size)
  | [], acc, c, h => Or.inl h
  | d :: cs, acc, c, h => by
    rcases findFree_fold_mem size cs _ c h with hacc | ⟨hmem, hsz⟩
    · unfold findFreeStep at hacc
      split at hacc
      · next hcond =>
          injection hacc with hacc
          subst hacc
          exact Or.inr ⟨List.mem_cons_self, hcond.1⟩
      · exact Or.inl hacc
    · exact Or.inr ⟨List.mem_cons_of_mem d hmem, hsz⟩

namespace AddressSpace

variable {as as' : AddressSpace} {size address base r : U64} {mem : Cursor MemoryMapping}
  {m region : MemoryMapping} {s s' : σ} {init : MemoryMapping → Option MemoryMapping}
  {data : List (BitVec 8)}

/-- What `find_free_hole` finds is a hole of the space, and large enough. -/
theorem find_free_hole_some {c : Cursor MemoryHole}
    (h : as.find_free_hole size = some c) :
    c.toList = as.memory_holes ∧ c.elem.size ≥ size := by
  rcases findFree_fold_mem size _ _ c h with hnone | ⟨hmem, hsz⟩
  · cases hnone
  · exact ⟨Cursor.toList_of_mem hmem, hsz⟩

/-- The region found has the address inside, or at its end. -/
theorem region_for_address_some {c : Cursor MemoryMapping}
    (h : as.region_for_address address = some c) :
    c.toList = as.mapped_regions ∧ c.elem.base ≤ address
      ∧ address ≤ c.elem.base + c.elem.size * vm_page_size := by
  have hmem := List.mem_of_find?_eq_some h
  have hcond := List.find?_some h
  simp only [Bool.and_eq_true, decide_eq_true_eq] at hcond
  exact ⟨Cursor.toList_of_mem hmem, hcond.1, hcond.2⟩

/-- A region is inserted once, between the others. -/
theorem putMapping_spec (as : AddressSpace) (m : MemoryMapping) :
    (as.putMapping m).elem = m ∧ (as.putMapping m).erase = as.mapped_regions := by
  unfold putMapping
  cases hs : as.find_succ_mapping m with
  | none => exact ⟨rfl, List.append_nil _⟩
  | some c => exact ⟨rfl, Cursor.toList_of_mem (findSucc_mem hs)⟩

/-- A hole is inserted once. -/
theorem putHole_perm (as : AddressSpace) (hole : MemoryHole) :
    (as.putHole hole).memory_holes.Perm (hole :: as.memory_holes) := by
  unfold putHole
  cases hs : as.find_succ_hole hole with
  | none => exact List.Perm.refl _
  | some c =>
    have hl := Cursor.toList_of_mem (findSucc_mem hs)
    rw [← hl]
    exact c.insert_perm hole

@[simp] theorem putHole_ctx (as : AddressSpace) (hole : MemoryHole) :
    (as.putHole hole).vmm_ctx = as.vmm_ctx := by
  unfold putHole
  split <;> rfl

/-! ## §3. The binders. -/

/-- A bound region: at `mem`, new, with the other regions around it. -/
structure Bound (as as' : AddressSpace) (mem : Cursor MemoryMapping) (base size : U64) : Prop where
  elem : mem.elem = MemoryMapping.new base size
  others : mem.erase = as.mapped_regions
  regions : as'.mapped_regions = mem.toList
  ctx : as'.vmm_ctx = as.vmm_ctx

/-- Both binders leave a new region among the old ones. -/
theorem bindMapping_bound {holes : List MemoryHole}
    (h : bindMapping { as with memory_holes := holes } base size = (as', mem)) :
    as'.memory_holes = holes ∧ Bound as as' mem base size := by
  obtain ⟨helem, hothers⟩ := putMapping_spec { as with memory_holes := holes }
    (MemoryMapping.new base size)
  injection h with h1 h2
  subst h1 h2
  exact ⟨rfl, helem, hothers, rfl, rfl⟩

/-- `bind_hole` takes the whole hole, or its end. -/
theorem bind_hole_cases {hole : Cursor MemoryHole}
    (h : as.bind_hole hole size = some (as', mem)) :
    size ≤ hole.elem.size
    ∧ ((hole.elem.size = size ∧ as'.memory_holes = hole.erase
          ∧ Bound as as' mem hole.elem.base size)
      ∨ (hole.elem.size ≠ size
          ∧ as'.memory_holes
              = (hole.set { hole.elem with size := hole.elem.size - size }).toList
          ∧ Bound as as' mem (hole.elem.base + (hole.elem.size - size) * vm_page_size) size)) := by
  unfold bind_hole at h
  split at h
  · next hle =>
      refine ⟨hle, ?_⟩
      simp only at h
      split at h
      · next heq =>
          injection h with h
          exact Or.inl ⟨heq, bindMapping_bound h⟩
      · next hne =>
          injection h with h
          exact Or.inr ⟨hne, bindMapping_bound h⟩
  · cases h

/-- `bind_exact` merges the holes, then carves the first one that passes the
containment test. -/
theorem bind_exact_cases
    {mem : Option (Cursor MemoryMapping)} (h : as.bind_exact base size = some (as', mem)) :
    size ≠ 0 ∧ base ≠ 0
    ∧ ((mem = none ∧ as' = as.merge_holes
          ∧ ∀ hole ∈ as.merge_holes.memory_holes, holeContains base size hole = false)
      ∨ ∃ target m, mem = some m ∧ target ∈ Cursor.cursors as.merge_holes.memory_holes
          ∧ holeContains base size target.elem = true
          ∧ as'.memory_holes = carve target base size ∧ Bound as as' m base size) := by
  unfold bind_exact at h
  split at h
  · next hok =>
      refine ⟨hok.1, hok.2, ?_⟩
      simp only at h
      split at h
      · next hnone =>
          injection h with h
          injection h with h1 h2
          refine Or.inl ⟨h2.symm, h1.symm, fun hole hmem => ?_⟩
          obtain ⟨c, hc, rfl⟩ := Cursor.exists_cursor_of_mem hmem
          have := List.find?_eq_none.mp hnone c hc
          simpa using this
      · next target hsome =>
          injection h with h
          injection h with h1 h2
          have hbind : bindMapping { as.merge_holes with memory_holes := carve target base size }
              base size = (as', _) := Prod.ext h1 rfl
          obtain ⟨hholes, hb⟩ := bindMapping_bound hbind
          have hcond := List.find?_some hsome
          exact Or.inr ⟨target, _, h2.symm, List.mem_of_find?_eq_some hsome, hcond, hholes,
            ⟨hb.elem, hb.others, hb.regions, hb.ctx⟩⟩
  · cases h

theorem withRegion_regions (as : AddressSpace) (region : Cursor MemoryMapping)
    (m : MemoryMapping) : (as.withRegion region m).mapped_regions = (region.set m).toList := rfl

/-! ## §4. The programs. -/

/-- Mapping a region maps its pages and says so in the region. -/
theorem map_region_cases (h : as.map_region arch region s = some (m, s')) :
    m = { region with mapped := true }
    ∧ mapPages arch as.vmm_ctx region.base region.perms region.cache_mode 0
        region.backing_pages s = some ((), s') := by
  simp only [map_region, Prog.bind_eq_some, Prog.pure_eq_some] at h
  obtain ⟨u, t, hmap, rfl, rfl⟩ := h
  exact ⟨rfl, hmap⟩

/-- Unmapping asserts that it is mapped. -/
theorem unmap_region_cases (h : as.unmap_region arch region s = some (m, s')) :
    region.mapped = true ∧ m = { region with mapped := false }
    ∧ unmapPages arch as.vmm_ctx region.base 0 region.backing_pages s = some ((), s') := by
  simp only [unmap_region, Prog.bind_eq_some, Prog.pure_eq_some, Prog.check_eq_some] at h
  obtain ⟨_, t, ⟨hmapped, rfl⟩, _, t', hunmap, rfl, rfl⟩ := h
  exact ⟨hmapped, rfl, hunmap⟩

/-- After the binder: set up the region, map it. -/
theorem finish_cases (h : as.finish arch mem init s = some ((r, as'), s')) :
    ∃ m m', init mem.elem = some m ∧ as.map_region arch m s = some (m', s')
      ∧ r = m'.base ∧ as' = as.withRegion mem m' := by
  simp only [finish, Prog.bind_eq_some, Prog.pure_eq_some, Prog.ofOption_eq_some] at h
  obtain ⟨m, t, ⟨hinit, rfl⟩, m', t', hmap, he, rfl⟩ := h
  injection he with h1 h2
  exact ⟨m, m', hinit, hmap, h1.symm, h2.symm⟩

/-- And that is all it does. -/
theorem finish_apply (hinit : init mem.elem = some m)
    (hmap : mapPages arch as.vmm_ctx m.base m.perms m.cache_mode 0 m.backing_pages s
      = some ((), s')) :
    as.finish arch mem init s
      = some ((m.base, as.withRegion mem { m with mapped := true }), s') := by
  have hregion : as.map_region arch m s = some ({ m with mapped := true }, s') := by
    unfold map_region
    rw [Prog.bind_apply hmap]
    rfl
  unfold finish
  rw [hinit]
  show ((as.map_region arch m) >>= fun m => pure (m.base, as.withRegion mem m)) s = _
  rw [Prog.bind_apply hregion]
  rfl

/-- `allocate` and `map` find no hole, or bind its end. -/
theorem placeAnywhere_cases (h : as.placeAnywhere arch size init s = some ((r, as'), s')) :
    (as.find_free_hole size = none ∧ r = 0 ∧ as' = as ∧ s' = s)
    ∨ ∃ hole as1 mem, as.find_free_hole size = some hole
        ∧ as.bind_hole hole size = some (as1, mem)
        ∧ as1.finish arch mem init s = some ((r, as'), s') := by
  unfold placeAnywhere at h
  cases hf : as.find_free_hole size with
  | none =>
    rw [hf] at h
    simp only [Prog.pure_eq_some, Prod.mk.injEq] at h
    obtain ⟨⟨rfl, rfl⟩, rfl⟩ := h
    exact Or.inl ⟨rfl, rfl, rfl, rfl⟩
  | some hole =>
    rw [hf] at h
    simp only [Prog.bind_eq_some, Prog.ofOption_eq_some] at h
    obtain ⟨⟨as1, mem⟩, t, ⟨hbind, rfl⟩, hfin⟩ := h
    exact Or.inr ⟨hole, as1, mem, rfl, hbind, hfin⟩

/-- `allocate_at` and `map_at` find no hole, or bind the range. -/
theorem placeAt_cases (h : as.placeAt arch base size init s = some ((r, as'), s')) :
    (as.bind_exact base size = some (as', none) ∧ r = 0 ∧ s' = s)
    ∨ ∃ as1 mem, as.bind_exact base size = some (as1, some mem)
        ∧ as1.finish arch mem init s = some ((r, as'), s') := by
  simp only [placeAt, Prog.bind_eq_some, Prog.ofOption_eq_some] at h
  obtain ⟨⟨as1, mem⟩, t, ⟨hbind, rfl⟩, h⟩ := h
  cases mem with
  | none =>
    simp only [Prog.pure_eq_some, Prod.mk.injEq] at h
    obtain ⟨⟨rfl, rfl⟩, rfl⟩ := h
    exact Or.inl ⟨hbind, rfl, rfl⟩
  | some mem => exact Or.inr ⟨as1, mem, hbind, h⟩

/-- Destroying unmaps the pages, gives the range back to the holes (unmapping
leaves base and size alone) and frees the frames. -/
theorem destroy_cases {region : Cursor MemoryMapping}
    (h : as.destroy arch region s = some (as', s')) :
    region.elem.mapped = true ∧ as' = as.unbind_region region
    ∧ ∃ t, unmapPages arch as.vmm_ctx region.elem.base 0 region.elem.backing_pages s = some ((), t)
      ∧ region.elem.destruct arch t = some ((), s') := by
  simp only [destroy, Prog.bind_eq_some, Prog.pure_eq_some] at h
  obtain ⟨m, t, hunmap, _, t', hdel, rfl, rfl⟩ := h
  obtain ⟨hmapped, rfl, hpages⟩ := unmap_region_cases hunmap
  exact ⟨hmapped, rfl, t, hpages, hdel⟩

/-- The region is put back, and mapped again if a page is new. -/
theorem remap_cases {region : Cursor MemoryMapping} {touched : Bool}
    (h : as.remap arch region touched m s = some (as', s')) :
    (touched = false ∧ as' = as.withRegion region m ∧ s' = s)
    ∨ (touched = true ∧ ∃ m', as.map_region arch m s = some (m', s')
        ∧ as' = as.withRegion region m') := by
  unfold remap at h
  cases touched with
  | false =>
    simp only [if_neg Bool.false_ne_true, Prog.bind_eq_some, Prog.pure_eq_some] at h
    obtain ⟨_, _, ⟨rfl, rfl⟩, rfl, rfl⟩ := h
    exact Or.inl ⟨rfl, rfl, rfl⟩
  | true =>
    simp only [if_true, Prog.bind_eq_some, Prog.pure_eq_some] at h
    obtain ⟨m', _, hmap, rfl, rfl⟩ := h
    exact Or.inr ⟨rfl, m', hmap, rfl⟩

/-- `touch` misses, or touches one page of the region found. -/
theorem touch_cases (h : as.touch arch address s = some (as', s')) :
    (as' = as ∧ s' = s)
    ∨ ∃ region touched m t, as.region_for_address address = some region
        ∧ region.elem.touch arch ((address - region.elem.base) / vm_page_size) s
            = some ((touched, m), t)
        ∧ as.remap arch region touched m t = some (as', s') := by
  unfold touch at h
  cases hr : as.region_for_address address with rw [hr] at h
  | none =>
    simp only [Prog.pure_eq_some] at h
    exact Or.inl ⟨h.1.symm, h.2.symm⟩
  | some region =>
    simp only [Prog.bind_eq_some] at h
    obtain ⟨⟨touched, m⟩, t, htouch, h⟩ := h
    exact Or.inr ⟨region, touched, m, t, rfl, htouch, h⟩

/-- `touch_all` misses, or touches every page. -/
theorem touch_all_cases (h : as.touch_all arch address s = some (as', s')) :
    (as' = as ∧ s' = s)
    ∨ ∃ region touched m t, as.region_for_address address = some region
        ∧ region.elem.touch_all arch s = some ((touched, m), t)
        ∧ as.remap arch region touched m t = some (as', s') := by
  unfold touch_all at h
  cases hr : as.region_for_address address with rw [hr] at h
  | none =>
    simp only [Prog.pure_eq_some] at h
    exact Or.inl ⟨h.1.symm, h.2.symm⟩
  | some region =>
    simp only [Prog.bind_eq_some] at h
    obtain ⟨⟨touched, m⟩, t, htouch, h⟩ := h
    exact Or.inr ⟨region, touched, m, t, rfl, htouch, h⟩

/-- `load` misses, or touches, copies and maps again. -/
theorem load_cases (h : as.load arch address data s = some (as', s')) :
    (as' = as ∧ s' = s)
    ∨ ∃ region touched m t t', as.region_for_address address = some region
        ∧ region.elem.ensure_load_store arch (address - region.elem.base)
            (BitVec.ofNat 64 data.length) s = some ((touched, m), t)
        ∧ arch.arch_mm_mapping_load m (address - region.elem.base) data t = some ((), t')
        ∧ as.remap arch region touched m t' = some (as', s') := by
  unfold load at h
  cases hr : as.region_for_address address with rw [hr] at h
  | none =>
    simp only [Prog.pure_eq_some] at h
    exact Or.inl ⟨h.1.symm, h.2.symm⟩
  | some region =>
    simp only [MemoryMapping.load, Prog.bind_eq_some, Prog.pure_eq_some] at h
    obtain ⟨_, t', ⟨⟨touched, m⟩, t, hensure, _, _, hload, rfl, rfl⟩, h⟩ := h
    exact Or.inr ⟨region, touched, m, t, _, rfl, hensure, hload, h⟩

/-- `store` misses, or touches, copies and maps again. -/
theorem store_cases (h : as.store arch address size s = some ((as', data), s')) :
    (as' = as ∧ s' = s)
    ∨ ∃ region touched m t t', as.region_for_address address = some region
        ∧ region.elem.ensure_load_store arch (address - region.elem.base) size s
            = some ((touched, m), t)
        ∧ arch.arch_mm_mapping_store m (address - region.elem.base) size t = some (data, t')
        ∧ as.remap arch region touched m t' = some (as', s') := by
  unfold store at h
  cases hr : as.region_for_address address with rw [hr] at h
  | none =>
    simp only [Prog.pure_eq_some, Prod.mk.injEq] at h
    exact Or.inl ⟨h.1.1.symm, h.2.symm⟩
  | some region =>
    simp only [MemoryMapping.store, Prog.bind_eq_some, Prog.pure_eq_some, Prod.mk.injEq] at h
    obtain ⟨_, t', ⟨⟨touched, m⟩, t, hensure, _, _, hstore, rfl, rfl⟩, _, _, h, ⟨rfl, rfl⟩, rfl⟩ :=
      h
    exact Or.inr ⟨region, touched, m, t, _, rfl, hensure, hstore, h⟩

/-- A fault maps the region again exactly if the page now has a frame. -/
theorem fault_hit_cases {b : Bool}
    (h : as.fault_hit arch address s = some ((b, as'), s')) :
    (as' = as ∧ s' = s)
    ∨ ∃ region result m t, as.region_for_address address = some region
        ∧ region.elem.fault_hit arch address s = some ((result, m), t)
        ∧ as.remap arch region (result == .remap_valid) m t = some (as', s') := by
  unfold fault_hit at h
  cases hr : as.region_for_address address with rw [hr] at h
  | none =>
    simp only [Prog.pure_eq_some, Prod.mk.injEq] at h
    exact Or.inl ⟨h.1.2.symm, h.2.symm⟩
  | some region =>
    simp only [Prog.bind_eq_some] at h
    obtain ⟨⟨result, m⟩, t, hfault, h⟩ := h
    refine Or.inr ⟨region, result, m, t, rfl, hfault, ?_⟩
    unfold remap
    cases result with
    | remap_valid =>
      simp only [Prog.bind_eq_some, Prog.pure_eq_some, Prod.mk.injEq] at h
      obtain ⟨m', t', hmap, ⟨-, rfl⟩, rfl⟩ := h
      rw [if_pos (show (VmFaultResult.remap_valid == .remap_valid) = true from rfl),
        Prog.bind_apply hmap]
      rfl
    | invalid | invalid_access | not_mapped | ignore =>
      simp only [Prog.pure_eq_some, Prod.mk.injEq] at h
      obtain ⟨⟨-, rfl⟩, rfl⟩ := h
      rfl

end AddressSpace

end Quack.Mm
