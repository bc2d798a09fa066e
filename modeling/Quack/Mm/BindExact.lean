/-
  Quack.Mm.BindExact
  **`bind_exact` ON UNCHECKED ARGUMENTS.**

  The containment test compares ends modulo 2^64 and the split divides the
  distance to `base` by the page size, rounding down.  So a range that wraps
  around can pass the test, and a base inside a page leaves an upper hole that
  is as many bytes too long as the base is into its page.

    • `bind_exact_safe_iff`  — whole pages that do not wrap around, or a refusal:
      nothing else is safe.
-/
import Quack.Mm.RegionLookup

namespace Quack.Mm

open Lib

variable {σ : Type}

/-! ## §1. A safe binding. -/

/-- `bind_exact` binds a range only inside one hole, and leaves holes and regions
apart and in the user range.  Spans are exact numbers: a size that had wrapped
around would reach out of the range. -/
structure BindSafe (as : AddressSpace) (base size : U64) : Prop where
  returns : ∃ as' mem, as.bind_exact base size = some (as', mem)
  contained : ∀ as' mem, as.bind_exact base size = some (as', some mem) →
    ∃ hole ∈ as.merge_holes.memory_holes, hole.span.lo ≤ base.toNat
      ∧ base.toNat + 4096 * size.toNat ≤ hole.span.hi
  inside : ∀ as' mem, as.bind_exact base size = some (as', mem) →
    ∀ s ∈ as'.spans, s.toSet ⊆ Set.Ico vm_user_base.toNat vm_user_end.toNat
  apart : ∀ as' mem, as.bind_exact base size = some (as', mem) →
    as'.spans.Pairwise fun a b => Disjoint a.toSet b.toSet

variable {as as' : AddressSpace} {base size : U64} {mem : Cursor MemoryMapping}

theorem Tiled.inside (h : Tiled as) {s : Span} (hs : s ∈ as.spans) :
    s.toSet ⊆ Set.Ico vm_user_base.toNat vm_user_end.toNat := by
  rw [← h.tiles.iUnion_eq]
  exact Set.subset_biUnion_of_mem hs

theorem bind_exact_returns (as : AddressSpace) (hbase : base ≠ 0)
    (hsize : size ≠ 0) : ∃ as' mem, as.bind_exact base size = some (as', mem) := by
  unfold AddressSpace.bind_exact
  rw [if_pos ⟨hsize, hbase⟩]
  simp only
  split
  · exact ⟨_, _, rfl⟩
  · exact ⟨_, _, rfl⟩

theorem bind_exact_target (h : as.bind_exact base size = some (as', some mem)) :
    ∃ target : Cursor MemoryHole, target.toList = as.merge_holes.memory_holes
      ∧ AddressSpace.holeContains base size target.elem = true
      ∧ as'.memory_holes = AddressSpace.carve target base size ∧ as.Bound as' mem base size := by
  obtain ⟨-, -, ⟨he, -⟩ | ⟨target, m, he, htarget, hc, hholes, hbound⟩⟩ :=
    AddressSpace.bind_exact_cases h
  · cases he
  · injection he with he
    subst he
    exact ⟨target, Cursor.toList_of_mem htarget, hc, hholes, hbound⟩

/-! ## §2. Safe arguments. -/

theorem bindSafe_of_wellPlaced (h : Tiled as)
    (hbase : base ≠ 0) (hsize : size ≠ 0) (hp : WellPlaced base size) :
    BindSafe as base size := by
  have htiled : ∀ as' mem, as.bind_exact base size = some (as', mem) → Tiled as' := by
    intro as' mem hb
    cases mem with
    | some mem => exact (h.bind_exact hp hb).1
    | none =>
      obtain ⟨-, -, ⟨-, rfl, -⟩ | ⟨_, _, he, -⟩⟩ := AddressSpace.bind_exact_cases hb
      · exact h.merge
      · cases he
  refine ⟨bind_exact_returns as hbase hsize, fun as' mem hb => ?_,
    fun as' mem hb s hs => (htiled as' mem hb).inside hs,
    fun as' mem hb => (htiled as' mem hb).tiles.pairwise_disjoint⟩
  obtain ⟨target, hl, hc, -, -⟩ := bind_exact_target hb
  have hmem : target.elem ∈ as.merge_holes.memory_holes := Cursor.elem_mem hl
  obtain ⟨-, hlo, hhi⟩ := holeContains_spec (h.merge.fits_holes _ hmem) hp hc rfl
  refine ⟨target.elem, hmem, ?_, ?_⟩
  · show target.elem.base.toNat ≤ base.toNat
    omega
  · show base.toNat + 4096 * size.toNat ≤ target.elem.base.toNat + 4096 * target.elem.size.toNat
    omega

theorem bindSafe_of_refused (h : Tiled as)
    (hbase : base ≠ 0) (hsize : size ≠ 0) (hr : Refused as base size) :
    BindSafe as base size := by
  have hnone : ∀ as' mem, as.bind_exact base size = some (as', mem) →
      mem = none ∧ as' = as.merge_holes := by
    intro as' mem hb
    obtain ⟨-, -, ⟨hm, ha, -⟩ | ⟨target, _, -, htarget, hc, -⟩⟩ := AddressSpace.bind_exact_cases hb
    · exact ⟨hm, ha⟩
    · have hmem := Cursor.elem_mem (Cursor.toList_of_mem htarget)
      rw [hr _ hmem] at hc
      cases hc
  refine ⟨bind_exact_returns as hbase hsize, fun as' mem hb => ?_, fun as' mem hb s hs => ?_,
    fun as' mem hb => ?_⟩
  · cases (hnone as' _ hb).1
  · rw [(hnone as' mem hb).2] at hs
    exact h.merge.inside hs
  · rw [(hnone as' mem hb).2]
    exact h.merge.tiles.pairwise_disjoint

/-! ## §3. A base inside a page. -/

theorem carve_unaligned {c : Cursor MemoryHole} (hf : Fits c.elem)
    (hc : AddressSpace.holeContains base size c.elem = true)
    (hno : base.toNat + 4096 * size.toNat < 2 ^ 64) (hun : base.toNat % 4096 ≠ 0) :
    ∃ lower upper, (AddressSpace.carve c base size).Perm (lower :: upper :: c.erase)
      ∧ upper.span.Covers c.elem.span.hi := by
  unfold AddressSpace.holeContains at hc
  simp only [Bool.and_eq_true, decide_eq_true_eq, ge_iff_le, BitVec.le_def] at hc
  rw [hf.toNat_end, toNat_add_pages hno] at hc
  obtain ⟨hlo, hhi⟩ := hc
  have hend := hf.le_end
  rw [toNat_user_end] at hend
  have ha := hf.aligned
  have hk : ((base - c.elem.base) / vm_page_size).toNat
      = (base.toNat - c.elem.base.toNat) / 4096 := by
    rw [BitVec.toNat_udiv, BitVec.toNat_sub_of_le hlo, toNat_page_size]
  -- neither end of the range is an end of the hole
  have hne : base ≠ c.elem.base := by
    rintro rfl
    exact hun ha
  have hne' : base + size * vm_page_size ≠ c.elem.base + c.elem.size * vm_page_size := by
    intro he
    have hends := congrArg BitVec.toNat he
    rw [hf.toNat_end, toNat_add_pages hno] at hends
    omega
  unfold AddressSpace.carve
  simp only [hne, hne', false_and, if_false]
  generalize (base - c.elem.base) / vm_page_size = k at hk
  refine ⟨_, _, (Cursor.insert_perm _ _).trans (List.Perm.cons _ (Cursor.set_perm _ _)), ?_⟩
  have hsub : (c.elem.size - size - k).toNat = c.elem.size.toNat - size.toNat - k.toNat := by
    rw [BitVec.toNat_sub_of_le, BitVec.toNat_sub_of_le]
    · rw [BitVec.le_def]
      omega
    · rw [BitVec.le_def, BitVec.toNat_sub_of_le]
      · omega
      · rw [BitVec.le_def]
        omega
  show (base + size * vm_page_size).toNat ≤ c.elem.base.toNat + 4096 * c.elem.size.toNat
    ∧ c.elem.base.toNat + 4096 * c.elem.size.toNat
      < (base + size * vm_page_size).toNat + 4096 * (c.elem.size - size - k).toNat
  rw [toNat_add_pages hno, hsub]
  omega

theorem not_apart_of_unaligned (h : Tiled as)
    (hb : as.bind_exact base size = some (as', some mem))
    (hno : base.toNat + 4096 * size.toNat < 2 ^ 64) (hun : base.toNat % 4096 ≠ 0)
    (hinside : ∀ s ∈ as'.spans, s.toSet ⊆ Set.Ico vm_user_base.toNat vm_user_end.toNat) :
    ¬ as'.spans.Pairwise fun a b => Disjoint a.toSet b.toSet := by
  intro hapart
  obtain ⟨c, hl, hc, hholes, hbound⟩ := bind_exact_target hb
  have hf : Fits c.elem := h.merge.fits_holes _ (Cursor.elem_mem hl)
  obtain ⟨lower, upper, hperm, hcov⟩ := carve_unaligned hf hc hno hun
  have hupper : upper ∈ as'.memory_holes := by
    rw [hholes]
    exact hperm.mem_iff.mpr (List.mem_cons_of_mem _ List.mem_cons_self)
  have hin : vm_user_base.toNat ≤ c.elem.span.hi ∧ c.elem.span.hi < vm_user_end.toNat :=
    hinside upper.span (List.mem_map_of_mem (List.mem_append_left _ hupper))
      (Span.mem_toSet.mpr hcov)
  -- before the call one entry has it, not the hole itself
  have hone := h.merge.tiles c.elem.span.hi
  rw [if_pos hin, cover_spans, ← hl, cover_map_cursor, cover_cons,
    if_neg (fun hself => Nat.lt_irrefl _ hself.2)] at hone
  have hle := cover_le_one_of_pairwise c.elem.span.hi hapart
  rw [cover_spans, hholes, cover_perm (hperm.map MemoryHole.span),
    cover_perm (hbound.regions_perm.map MemoryHole.span), List.map_cons, List.map_cons, List.map_cons,
    cover_cons, cover_cons, cover_cons, if_pos hcov] at hle
  have hsame : as.merge_holes.mapped_regions = as.mapped_regions := rfl
  rw [hsame] at hone
  omega

/-! ## §4. Exactly the safe arguments. -/

/-- **`bind_exact` is safe exactly for whole pages that do not wrap around, or
when it refuses.**  In every state a fresh space reaches by proper calls, for
every base and size but zero. -/
theorem bind_exact_safe_iff (arch : ArchMm σ) (s0 s1 : σ) (as0 : AddressSpace)
    (hnew : AddressSpace.new arch s0 = some (as0, s1)) (calls : List VmCall)
    (hproper : Along (vmCall arch) (fun s call => call.Proper s.1) (as0, s1) calls)
    (s : AddressSpace × σ) (hrun : run (vmCall arch) (as0, s1) calls = some s)
    (base size : U64) (hbase : base ≠ 0) (hsize : size ≠ 0) :
    BindSafe s.1 base size ↔ WellPlaced base size ∨ Refused s.1 base size := by
  have h := Tiled.calls hnew hproper hrun
  constructor
  · intro hsafe
    obtain ⟨as', mem, hb⟩ := hsafe.returns
    cases mem with
    | none =>
      obtain ⟨-, -, ⟨-, -, hr⟩ | ⟨_, _, he, -⟩⟩ := AddressSpace.bind_exact_cases hb
      · exact Or.inr hr
      · cases he
    | some mem =>
      obtain ⟨hole, hmem, -, hhi⟩ := hsafe.contained as' mem hb
      have hend : hole.span.hi ≤ vm_user_end.toNat := (h.merge.fits_holes hole hmem).le_end
      rw [toNat_user_end] at hend
      have hno : base.toNat + 4096 * size.toNat < 2 ^ 64 := by omega
      refine Or.inl ⟨?_, hno⟩
      by_contra hun
      exact not_apart_of_unaligned h hb hno hun (hsafe.inside as' _ hb) (hsafe.apart as' _ hb)
  · rintro (hp | hr)
    · exact bindSafe_of_wellPlaced h hbase hsize hp
    · exact bindSafe_of_refused h hbase hsize hr

/-- Two pages in the fresh space. -/
theorem bind_exact_safe_two_pages : BindSafe bumpSpace 0x5000 2 :=
  (bind_exact_safe_iff bumpArch 0 0 bumpSpace rfl [] trivial (bumpSpace, 0) rfl 0x5000 2
    (by decide) (by decide)).mpr (Or.inl ⟨by decide, by decide⟩)

/-- A base inside a page: the upper hole ends behind the user range. -/
theorem bind_exact_overlong_hole :
    ¬ ∀ (calls : List VmCall) (s : AddressSpace × U64),
        Along (vmCall bumpArch) (fun s call => call.Proper s.1) (bumpSpace, 0) calls →
        run (vmCall bumpArch) (bumpSpace, 0) calls = some s →
        ∀ base size : U64, base ≠ 0 → size ≠ 0 → BindSafe s.1 base size := by
  intro h
  have hsafe := h [] (bumpSpace, 0) trivial rfl 0x5800 1 (by decide) (by decide)
  have heval : (bumpSpace.bind_exact 0x5800 1).map
      (fun r => decide (∃ hole ∈ r.1.memory_holes, vm_user_end.toNat < hole.span.hi
        ∧ hole.span.lo < hole.span.hi)) = some true := by decide +kernel
  obtain ⟨⟨as', mem⟩, hb, hover⟩ := Option.map_eq_some_iff.mp heval
  obtain ⟨hole, hmem, hend, hne⟩ := of_decide_eq_true hover
  have hin := hsafe.inside as' mem hb hole.span (List.mem_map_of_mem (List.mem_append_left _ hmem))
    (show hole.span.hi - 1 ∈ hole.span.toSet from ⟨by omega, by omega⟩)
  have hlt : hole.span.hi - 1 < vm_user_end.toNat := hin.2
  omega

end Quack.Mm
