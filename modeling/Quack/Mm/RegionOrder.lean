/-
  Quack.Mm.RegionOrder
  **REGIONS IN THE ORDER OF THEIR ADDRESSES.**

  `bind_hole` and `bind_exact` put a region before the first one above it, so the list
  stays in order (`putMapping_ordered`).  `region_for_address` takes the first region
  that does not end below the address; at the base of a region this is the region
  itself, unless another one ends there (`region_of_ordered`).

  A hole without a successor is put in front.  So both lists stay in order along a run
  only if every region destroyed has a hole above it, or there is no hole.
-/
import Quack.Mm.FreeHoles

namespace Quack.Mm

open Lib

def RegionsOrdered (as : AddressSpace) : Prop :=
  Ordered (as.mapped_regions.map MemoryMapping.shape)

section Order

variable {as as' : AddressSpace} {base size : U64}

theorem putMapping_ordered {m : MemoryMapping} (hord : RegionsOrdered as)
    (hfits : ∀ x ∈ as.mapped_regions, Fits x.shape) (hne : m.shape.span.lo < m.shape.span.hi)
    (hapart : ∀ x ∈ as.mapped_regions, x.shape.span.hi ≤ m.shape.span.lo
      ∨ m.shape.span.hi ≤ x.shape.span.lo) :
    Ordered ((as.putMapping m).toList.map MemoryMapping.shape) := by
  have hfirst : as.find_succ_mapping m
      = (Cursor.cursors as.mapped_regions).find? (fun c => decide (m.base ≤ c.elem.base)) :=
    findSucc_first MemoryMapping.shape hord hfits m.base
  unfold AddressSpace.putMapping
  rw [hfirst]
  cases hf : (Cursor.cursors as.mapped_regions).find? (fun c => decide (m.base ≤ c.elem.base)) with
  | none =>
    -- all regions begin below
    unfold RegionsOrdered at hord
    rw [← List.append_nil as.mapped_regions] at hord hapart
    refine hord.insert hne hapart (fun x hx => ?_) (fun y hy => by cases hy)
    obtain ⟨c, hc, rfl⟩ := Cursor.exists_cursor_of_mem hx
    have hlt := List.find?_eq_none.mp hf c hc
    simp only [decide_eq_true_eq] at hlt
    exact hlt
  | some c =>
    have hl := Cursor.toList_of_mem (List.mem_of_find?_eq_some hf)
    obtain ⟨hge, hbefore⟩ := Cursor.find?_cursors
      (p := fun x : MemoryMapping => decide (m.base ≤ x.base)) hf
    simp only [decide_eq_true_eq, decide_eq_false_iff_not] at hge hbefore
    unfold RegionsOrdered at hord
    rw [← hl] at hord hapart
    exact hord.insert hne hapart hbefore fun _ he => Option.some.inj he ▸ hge

theorem region_of_ordered {c : Cursor MemoryMapping} {address : U64} (h : Tiled as)
    (hord : RegionsOrdered as) (hl : c.toList = as.mapped_regions)
    (hlo : c.elem.shape.span.lo ≤ address.toNat) (hhi : address.toNat ≤ c.elem.shape.span.hi)
    (hfirst : ∀ x ∈ c.before, x.shape.span.hi ≠ address.toNat) :
    as.region_for_address address = some c := by
  have htest := fun x (hx : x ∈ as.mapped_regions) => h.test_iff hx address
  have hpair := List.pairwise_map.mp hord.order
  rw [← hl] at htest hpair
  have hbefore : ∀ x ∈ c.before, x.shape.span.hi ≤ c.elem.shape.span.lo :=
    fun x hx => (List.pairwise_append.mp hpair).2.2 x hx _ List.mem_cons_self
  unfold AddressSpace.region_for_address
  rw [← hl]
  refine Cursor.find?_cursors_eq (p := fun x : MemoryMapping =>
    decide (address ≥ x.base) && decide (address ≤ x.base + x.size * vm_page_size))
    ((htest _ c.mem_toList).mpr ⟨hlo, hhi⟩) fun x hx => ?_
  -- those before it end below the address
  rw [Bool.eq_false_iff, ne_eq, htest x (List.mem_append_left _ hx)]
  have := hbefore x hx
  have := hfirst x hx
  omega

theorem allocate_allocated {m m' : MemoryMapping} {perms cache : BitVec 32}
    (h : m.allocate perms cache = some m') : ∀ page ∈ m'.backing_pages, page.allocated = true := by
  unfold MemoryMapping.allocate at h
  split at h
  · obtain rfl := Option.some.inj h
    intro page hpage
    obtain ⟨p, -, rfl⟩ := List.mem_map.mp hpage
    rfl
  · cases h

end Order

/-- All free pages are in coalesced holes, and the regions in order. -/
structure InOrder (as : AddressSpace) : Prop where
  tiled : Tiled as
  holes : Coalesced as.memory_holes
  regions : RegionsOrdered as

section Placing

variable {σ : Type} {arch : ArchMm σ} {as as' as1 : AddressSpace} {mem : Cursor MemoryMapping}
  {base size r : U64} {s s' : σ} {init : MemoryMapping → Option MemoryMapping}

theorem bind_hole_mem {hole : Cursor MemoryHole}
    (h : as.bind_hole hole size = some (as', mem)) : mem = as.putMapping mem.elem := by
  unfold AddressSpace.bind_hole at h
  split at h
  · simp only at h
    split at h <;> obtain ⟨-, rfl⟩ := Prod.mk.inj (Option.some.inj h) <;>
      exact congrArg as.putMapping (AddressSpace.putMapping_spec _ _).1.symm
  · cases h

theorem bind_exact_mem (h : as.bind_exact base size = some (as', some mem)) :
    mem = as.putMapping mem.elem := by
  unfold AddressSpace.bind_exact at h
  split at h
  · simp only at h
    split at h
    · cases h
    · obtain ⟨-, he⟩ := Prod.mk.inj (Option.some.inj h)
      obtain rfl := Option.some.inj he
      exact congrArg as.putMapping (AddressSpace.putMapping_spec _ _).1.symm
  · cases h

theorem InOrder.bound (h : InOrder as) (h1 : Tiled as1) (hb : as.Bound as1 mem base size)
    (hput : mem = as.putMapping mem.elem) (hsize : size ≠ 0) : RegionsOrdered as1 := by
  have hne : (MemoryHole.mk base size).span.lo < (MemoryHole.mk base size).span.hi :=
    span_lo_lt_hi hsize
  have hdis := h1.tiles.pairwise_disjoint
  unfold AddressSpace.spans AddressSpace.entries at hdis
  rw [List.map_append, List.pairwise_append] at hdis
  have hnew := ((hb.regions_perm.map MemoryHole.span).pairwise_iff
    (fun {_ _} hd => hd.symm)).mp hdis.2.1
  unfold RegionsOrdered
  rw [hb.regions, hput, hb.elem]
  refine putMapping_ordered h.regions h.tiled.fits_regions hne fun x hx => ?_
  refine (le_or_le_of_disjoint ((List.pairwise_cons.mp hnew).1 x.shape.span ?_) hne
    (h.regions.nonempty _ (List.mem_map_of_mem hx))).symm
  exact List.mem_map_of_mem (List.mem_map_of_mem hx)

theorem RegionsOrdered.finish (h : RegionsOrdered as) (hl : mem.toList = as.mapped_regions)
    (hinit : ∀ m m', init m = some m' → m'.shape = m.shape)
    (hfin : as.finish arch mem init s = some ((r, as'), s')) : RegionsOrdered as' := by
  obtain ⟨m, m', hm, hmap, -, rfl⟩ := AddressSpace.finish_cases hfin
  obtain ⟨rfl, -⟩ := AddressSpace.map_region_cases hmap
  have hs : m.shape = mem.elem.shape := hinit _ _ hm
  unfold RegionsOrdered
  rw [AddressSpace.withRegion_regions,
    Cursor.map_set_toList (x := { m with mapped := true }) MemoryMapping.shape hs, hl]
  exact h

theorem InOrder.placeAnywhere (h : InOrder as) (hsize : size ≠ 0)
    (hinit : ∀ m m', init m = some m' → m'.shape = m.shape)
    (hp : as.placeAnywhere arch size init s = some ((r, as'), s')) : RegionsOrdered as' := by
  rcases AddressSpace.placeAnywhere_cases hp with ⟨-, -, rfl, -⟩ | ⟨hole, as1, mem, hf, hb, hfin⟩
  · exact h.regions
  · obtain ⟨base, h1, hbound⟩ := h.tiled.bind_hole hf hb
    have hord := h.bound h1 hbound (bind_hole_mem hb) hsize
    exact hord.finish hbound.regions.symm hinit hfin

theorem InOrder.placeAt (h : InOrder as) (hplaced : WellPlaced base size)
    (hinit : ∀ m m', init m = some m' → m'.shape = m.shape)
    (hp : as.placeAt arch base size init s = some ((r, as'), s')) : RegionsOrdered as' := by
  rcases AddressSpace.placeAt_cases hp with ⟨hb, -⟩ | ⟨as1, mem, hb, hfin⟩
  · obtain ⟨-, -, ⟨-, rfl, -⟩ | ⟨_, _, he, -⟩⟩ := AddressSpace.bind_exact_cases hb
    · exact h.regions
    · cases he
  · obtain ⟨h1, hbound⟩ := h.tiled.bind_exact hplaced hb
    have hord := h.bound h1 hbound (bind_exact_mem hb) (AddressSpace.bind_exact_cases hb).1
    exact hord.finish hbound.regions.symm hinit hfin

end Placing

/-- A region that was just allocated: no page has a frame yet. -/
structure FreshRegion (as as' : AddressSpace) (c : Cursor MemoryMapping) (base n : U64) : Prop where
  regions : c.toList = as'.mapped_regions
  others : c.erase = as.mapped_regions
  shape : c.elem.shape = ⟨base, n⟩
  pages : ∀ page ∈ c.elem.backing_pages, page.exists_ = false ∧ page.allocated = true
  ctx : as'.vmm_ctx = as.vmm_ctx

section Fresh

variable {as as' : AddressSpace} {c : Cursor MemoryMapping} {base n : U64} {x : MemoryMapping}

theorem FreshRegion.mem_iff (h : FreshRegion as as' c base n) :
    x ∈ as'.mapped_regions ↔ x = c.elem ∨ x ∈ as.mapped_regions := by
  rw [← h.regions, c.toList_perm.mem_iff, List.mem_cons, h.others]

theorem FreshRegion.found (h : FreshRegion as as' c base n) (ht : Tiled as')
    (hord : RegionsOrdered as') (hnone : ∀ x ∈ as.mapped_regions, x.shape.span.hi ≠ base.toNat) :
    as'.region_for_address base = some c := by
  have hlo : c.elem.shape.span.lo = base.toNat := by
    rw [h.shape]
    rfl
  have hne := hord.nonempty _ (List.mem_map_of_mem (h.mem_iff.mpr (Or.inl rfl)))
  refine region_of_ordered ht hord h.regions (by omega) (by omega) fun x hx => hnone x ?_
  rw [← h.others]
  exact List.mem_append_left _ hx

theorem FreshRegion.found_touching (h : FreshRegion as as' c base n) (ht : Tiled as')
    (hord : RegionsOrdered as') (hx : x ∈ as.mapped_regions)
    (hend : x.shape.span.hi = base.toNat) :
    ∃ d, as'.region_for_address base = some d ∧ d.elem = x := by
  have hx' := h.mem_iff.mpr (Or.inr hx)
  obtain ⟨d, hd, rfl⟩ := Cursor.exists_cursor_of_mem hx'
  have hne := hord.nonempty _ (List.mem_map_of_mem hx')
  have hl := Cursor.toList_of_mem hd
  have hpair := List.pairwise_map.mp hord.order
  rw [← hl] at hpair
  refine ⟨d, region_of_ordered ht hord hl (by omega) (by omega) fun y hy => ?_, rfl⟩
  have := (List.pairwise_append.mp hpair).2.2 y hy _ List.mem_cons_self
  omega

end Fresh

theorem allocate_at_returns {σ : Type} {arch : ArchMm σ} {as : AddressSpace} (h : Tiled as)
    (hcoal : Coalesced as.memory_holes) (hord : RegionsOrdered as) (base n : U64)
    (perms cache : BitVec 32) (s : σ) (hn : n ≠ 0) (hp : WellPlaced base n)
    (hfree : FreeRun as (base.toNat / 4096) n.toNat) :
    ∃ as' c, as.allocate_at arch base n perms cache s = some ((base, as'), s)
      ∧ Coalesced as'.memory_holes ∧ RegionsOrdered as' ∧ FreshRegion as as' c base n := by
  have hnNat : n.toNat ≠ 0 := fun he => hn (BitVec.eq_of_toNat_eq he)
  have hbase := hfree.base_ne_zero hnNat
  obtain ⟨r, as', hrun, hr, -⟩ : ∃ r as', as.allocate_at arch base n perms cache s
      = some ((r, as'), s) ∧ (r = base ↔ _) ∧ _ :=
    allocate_at_exact h hcoal base n perms cache s hn hbase hp
  rw [hr.mpr hfree] at hrun
  rcases AddressSpace.placeAt_cases hrun with ⟨-, h0, -⟩ | ⟨as1, mem, hbind, hfin⟩
  · exact absurd h0 hbase
  obtain ⟨-, -, ⟨hnone, -⟩ | ⟨_, _, hsome, -, -, -, hb⟩⟩ := AddressSpace.bind_exact_cases hbind
  · cases hnone
  obtain rfl := Option.some.inj hsome
  obtain ⟨m, hinit, hbase', hexists⟩ := MemoryMapping.allocate_new base n perms cache
  have halloc := allocate_allocated hinit
  have hshape : m.shape = ⟨base, n⟩ := MemoryMapping.allocate_shape hinit
  rw [← hb.elem] at hinit
  have hfin' : as1.finish arch mem (fun m => m.allocate perms cache) s
      = some ((m.base, as1.withRegion mem { m with mapped := true }), s) :=
    AddressSpace.finish_apply hinit (mapPages_unbacked _ _ _ _ s m.backing_pages 0 hexists)
  rw [hfin] at hfin'
  obtain ⟨⟨-, rfl⟩, -⟩ : (_ ∧ as' = _) ∧ _ := by
    simpa only [Option.some.injEq, Prod.mk.injEq] using hfin'
  have hinorder : InOrder as := ⟨h, hcoal, hord⟩
  exact ⟨_, mem.set { m with mapped := true }, hrun, coalesced_placeAt h hcoal hp hrun,
    hinorder.placeAt hp (fun _ _ => MemoryMapping.allocate_shape) hrun,
    ⟨rfl, hb.others, hshape, fun page hpage => ⟨hexists page hpage, halloc page hpage⟩, hb.ctx⟩⟩

/-! ## Both lists along runs. -/

/-- Both lists are in the order of their bases, and the searches find the next entry. -/
structure ListsOrdered (as : AddressSpace) : Prop where
  regions : as.mapped_regions.Pairwise (fun a b => a.base < b.base)
  holes : as.memory_holes.Pairwise (fun a b => a.base < b.base)
  succ_mapping : ∀ m, as.find_succ_mapping m
    = (Cursor.cursors as.mapped_regions).find? (fun c => decide (m.base ≤ c.elem.base))
  succ_hole : ∀ hole, as.find_succ_hole hole
    = (Cursor.cursors as.memory_holes).find? (fun c => decide (hole.base ≤ c.elem.base))

section Runs

variable {σ : Type} {arch : ArchMm σ} {as : AddressSpace}

theorem InOrder.step {s s' : AddressSpace × σ} {op : VmOp} (h : InOrder s.1) (hop : op.Proper)
    (hkeeps : KeepsOrder s op) (hs : vmStep arch s op = some s') : InOrder s'.1 := by
  refine ⟨h.tiled.step hkeeps.placed hs, coalesced_step h.tiled h.holes hkeeps hs, ?_⟩
  rcases vmStep_cases hs with ⟨_, _, _, hinit, hsize, hcall⟩ | ⟨_, _, _, _, hinit, hplaced, hcall⟩
    | ⟨_, c, -, hc, hcall⟩
  · exact h.placeAnywhere (hsize hop) hinit hcall
  · exact h.placeAt (hplaced hkeeps.placed) hinit hcall
  · obtain ⟨-, he, -⟩ := AddressSpace.destroy_cases hcall
    have hsub : c.erase.Sublist s.1.mapped_regions := by
      rw [← Cursor.toList_of_at? hc]
      exact (List.sublist_cons_self c.elem c.after).append_left _
    have hshapes := hsub.map MemoryMapping.shape
    rw [he]
    exact ⟨fun x hx => h.regions.nonempty x (hshapes.subset hx), h.regions.order.sublist hshapes⟩

theorem Ordered.increasing {α : Type} {shape : α → MemoryHole} {l : List α}
    (h : Ordered (l.map shape)) : l.Pairwise (fun a b => (shape a).base < (shape b).base) := by
  refine (List.pairwise_map.mp h.order).imp_of_mem fun {a b} ha _ hle => ?_
  exact Nat.lt_of_lt_of_le (h.nonempty _ (List.mem_map_of_mem ha)) hle

theorem InOrder.listsOrdered (h : InOrder as) : ListsOrdered as := by
  have hholes : Ordered (as.memory_holes.map id) := by
    rw [List.map_id]
    exact h.holes.ordered
  exact ⟨h.regions.increasing, hholes.increasing,
    fun m => findSucc_first MemoryMapping.shape h.regions h.tiled.fits_regions m.base,
    fun hole => findSucc_first id hholes h.tiled.fits_holes hole.base⟩

theorem mergeLoop_eq_self {l : List MemoryHole}
    (h : l.Pairwise (fun a b => distance_between a.base a.size b.base ≠ 0)) : mergeLoop [] l = l := by
  have hrun := mergeLoop_rule (P := fun before rest => before.reverse ++ rest = l)
    (fun before hole rest _ hl => by simpa using hl)
    (by
      rintro before a b rest hd rfl
      rw [List.reverse_cons, List.append_assoc] at h
      have hrest := (List.pairwise_append.mp h).2.1
      exact absurd hd ((List.pairwise_cons.mp hrest).1 b List.mem_cons_self))
    l [] rfl
  simpa using hrun

theorem InOrder.unbind_above {c : Cursor MemoryMapping} (h : InOrder as)
    (hl : c.toList = as.mapped_regions)
    (habove : ∀ x ∈ as.memory_holes, x.base < c.elem.base) :
    (as.unbind_region c).memory_holes = c.elem.shape :: as.memory_holes := by
  have hmem : c.elem ∈ as.mapped_regions := Cursor.elem_mem hl
  have hput : (as.putHole c.elem.shape).memory_holes = c.elem.shape :: as.memory_holes := by
    unfold AddressSpace.putHole
    rw [h.listsOrdered.succ_hole, List.find?_eq_none.mpr]
    intro d hd
    have hlt : d.elem.base < c.elem.shape.base :=
      habove d.elem (Cursor.elem_mem (Cursor.toList_of_mem hd))
    simpa using hlt
  refine (congrArg (mergeLoop []) hput).trans (mergeLoop_eq_self ?_)
  refine List.pairwise_cons.mpr ⟨fun x hx => ?_, h.holes.gaps.imp_of_mem fun {a b} ha _ hab => ?_⟩
  · rw [ne_eq, (h.tiled.fits_regions _ hmem).distance_eq_zero]
    have hlt : x.base.toNat < c.elem.shape.base.toNat := habove x hx
    omega
  · rw [ne_eq, (h.tiled.fits_holes a ha).distance_eq_zero]
    exact hab.ne

theorem InOrder.not_listsOrdered {s s' : AddressSpace × σ} {op : VmOp} (h : InOrder s.1)
    (hop : op.Proper) (hs : vmStep arch s op = some s') (hnot : ¬ KeepsOrder s op) :
    ¬ ListsOrdered s'.1 := by
  cases op with
  | destroy region =>
    obtain ⟨c, hc, hcall⟩ := Option.bind_eq_some_iff.mp hs
    obtain ⟨-, he, -⟩ := AddressSpace.destroy_cases hcall
    have hl := Cursor.toList_of_at? hc
    have hmem : c.elem ∈ s.1.mapped_regions := Cursor.elem_mem hl
    have hsize : c.elem.size ≠ 0 := fun h0 => by
      have := h.regions.nonempty _ (List.mem_map_of_mem hmem)
      simp [MemoryHole.span, Span.hi, MemoryMapping.shape, h0] at this
    have hno : ¬ (s.1.memory_holes = [] ∨ ∃ x ∈ s.1.memory_holes, c.elem.base ≤ x.base) := by
      intro hplace
      refine hnot fun d hd => ?_
      obtain rfl := Option.some.inj (hc.symm.trans hd)
      exact ⟨hsize, hplace⟩
    have habove : ∀ x ∈ s.1.memory_holes, x.base < c.elem.base := fun x hx =>
      BitVec.not_le.mp fun hle => hno (Or.inr ⟨x, hx, hle⟩)
    obtain ⟨x, hx⟩ := List.exists_mem_of_ne_nil _ fun hnil => hno (Or.inl hnil)
    intro hlists
    have hholes := hlists.holes
    rw [he, h.unbind_above hl habove] at hholes
    -- the first hole of the list is the highest
    have hlt := (List.pairwise_cons.mp hholes).1 x hx
    exact absurd hlt (BitVec.not_lt.mpr (BitVec.le_of_lt (habove x hx)))
  | allocate size perms cache => exact absurd trivial hnot
  | map address size perms cache => exact absurd trivial hnot
  | allocate_at base size perms cache => exact absurd hop hnot
  | map_at base address size perms cache => exact absurd hop hnot

end Runs

/-- **Both lists stay in order exactly if** every region that is destroyed lies below a hole,
or there is no hole. -/
theorem lists_ordered_iff {σ : Type} (arch : ArchMm σ) (s0 s1 : σ) (as0 : AddressSpace)
    (hnew : AddressSpace.new arch s0 = some (as0, s1)) (ops : List VmOp)
    (hops : ∀ op ∈ ops, op.Proper) :
    Always (vmStep arch) (fun s => ListsOrdered s.1) (as0, s1) ops
      ↔ Along (vmStep arch) (fun s op => ∀ s', vmStep arch s op = some s' → KeepsOrder s op)
          (as0, s1) ops := by
  have hfresh : RegionsOrdered as0 := by
    simp only [AddressSpace.new, Prog.bind_eq_some, Prog.pure_eq_some] at hnew
    obtain ⟨ctx, t, -, rfl, -⟩ := hnew
    exact ⟨by simp, List.Pairwise.nil⟩
  have hproper : Along (vmStep arch) (fun _ op => op.Proper) (as0, s1) ops :=
    along_of_forall _ ops _ fun op hop _ => hops op hop
  have hiff : Along (vmStep arch) (fun _ op => op.Proper) (as0, s1) ops
      ∧ Always (vmStep arch) (fun s => ListsOrdered s.1) (as0, s1) ops
      ↔ Along (vmStep arch) (fun s op => op.Proper
          ∧ ∀ s', vmStep arch s op = some s' → KeepsOrder s op) (as0, s1) ops :=
    along_always_iff_along (vmStep arch) (fun s => InOrder s.1)
      (fun _ h => h.listsOrdered) (fun _ _ _ hok => hok.1)
      (fun _ _ s' h hok hs => h.step hok.1 (hok.2 s' hs) hs)
    (fun _ _ h hop hres => ⟨hop, fun s' hs => by
      by_contra hnot
      exact h.not_listsOrdered hop hs hnot (hres s' hs)⟩)
    ops (as0, s1) ⟨Tiled.new hnew, coalesced_new hnew, hfresh⟩
  rw [along_and] at hiff
  simpa only [hproper, true_and] using hiff

theorem lists_ordered_middle_page :
    Always (vmStep bumpArch) (fun s => ListsOrdered s.1) (bumpSpace, 0)
      [.allocate_at 0x5000 1 3 0, .destroy 0] := by
  refine (lists_ordered_iff bumpArch 0 0 bumpSpace rfl _ ?_).mpr ?_
  · intro op hop
    simp only [List.mem_cons, List.not_mem_nil, or_false] at hop
    rcases hop with rfl | rfl
    · exact ⟨by decide, by decide⟩
    · trivial
  · exact Along.imp _ (fun _ => True) (fun _ _ _ h _ _ => h) (fun _ _ _ _ _ _ => trivial) _ _ trivial
      keeps_order_middle_page

/-- **The top page**: allocated and destroyed, it comes first among the holes. -/
theorem lists_not_ordered_top_page :
    ¬ ∀ ops : List VmOp, (∀ op ∈ ops, op.Proper) →
        Always (vmStep bumpArch) (fun s => ListsOrdered s.1) (bumpSpace, 0) ops := by
  intro h
  have heval : (run (vmStep bumpArch) (bumpSpace, 0) [.allocate 1 3 0, .destroy 0]).map
      (fun s => s.1.memory_holes) = some [⟨0x7FFFFFFFF000, 1⟩, ⟨0x1000, 34359738366⟩] := by
    decide +kernel
  obtain ⟨s, hrun, hs⟩ := Option.map_eq_some_iff.mp heval
  have hlists := h [.allocate 1 3 0, .destroy 0] (by
    intro op hop
    simp only [List.mem_cons, List.not_mem_nil, or_false] at hop
    rcases hop with rfl | rfl
    · exact (by decide : (1 : U64) ≠ 0)
    · trivial) _ List.prefix_rfl s hrun
  have hholes := hlists.holes
  rw [hs] at hholes
  exact absurd hholes (by decide)

end Quack.Mm
