/-
  Quack.Arch.Lifetime
  **THE LIFE OF A CONTEXT, from creation to teardown.**

  A context is created, pages of its lower half are mapped and unmapped, and it
  is destroyed.  Its frames are all returned exactly if no page was ever mapped:
  the first mapping takes a last-level table, which the teardown does not free
  (see `Quack.Arch.Teardown`).
-/
import Quack.Arch.Teardown
import Quack.Arch.Isolation

namespace Quack.Arch

open Lib

variable {κ : Type}

/-! ## §1. The system. -/

inductive LifeOp where
  | map (dst src size : U64) (flags cache : BitVec 32)
  | unmap (dst size : U64)
  deriving Repr, DecidableEq

/-- The operation stays in the lower half. -/
def LifeOp.Lower : LifeOp → Prop
  | .map dst _ size _ _ => pageOf dst + size.toNat ≤ 2 ^ 35
  | .unmap dst size => pageOf dst + size.toNat ≤ 2 ^ 35

/-- The operation maps no page. -/
def LifeOp.MapsNothing : LifeOp → Prop
  | .map _ _ size _ _ => size = 0
  | .unmap _ _ => True

/-- One call on context `ctx`. -/
def lifeStep (ctx : U64) (m : Machine) : LifeOp → Option Machine
  | .map dst src size flags cache => (arch_mm_map ctx dst src size flags cache m).map Prod.snd
  | .unmap dst size => (arch_mm_unmap ctx dst size m).map Prod.snd

/-- The tables of a context: its root and every present lower-half table. -/
def presentTables (S : Nat → Nat → U64) (r : Nat) : List Nat :=
  r :: (List.range 256).flatMap fun i =>
    match child (S r i) with
    | none => []
    | some pdp => pdp :: (List.range 512).flatMap fun j =>
      match child (S pdp j) with
      | none => []
      | some pd => pd :: (List.range 512).filterMap fun l => child (S pd l)

/-- Nothing is lost and nothing else is freed: `m` is the machine before the
creation, `m2` before and `m3` after the teardown. -/
structure Conserved (m m2 m3 : Machine) (r : Nat) : Prop where
  frees : (freedFrames m2.slot r).Perm (presentTables m2.slot r)
  bitmap : ∀ f, f < m.pmm_bitmap_len → m3.bit f = m.bit f
  count : m3.pmm_free_pages = m.pmm_free_pages

/-! ## §2. A root with nothing below. -/

section EmptyRoot

variable {r : Nat} {m m' : Machine} (hzero : ∀ i, i < 256 → m.slot r i = 0)

include hzero

theorem child_of_emptyRoot : ∀ i ∈ List.range 256, child (m.slot r i) = none := by
  intro i hi
  rw [hzero i (List.mem_range.mp hi), child_zero]

theorem table_of_emptyRoot {v : Nat} (hv : v < 2 ^ 35) : m.table r v = none := by
  unfold Machine.table pagePath
  rw [Forest.walk_cons, hzero _ (by omega), child_zero]
  rfl

theorem unmap_of_emptyRoot {pml4 virt : U64} {count : Nat} {i : Int} (hr : pml4.toNat = 4096 * r)
    (hv : pageOf virt + count ≤ 2 ^ 35) (h : vmm_unmap_pages pml4 virt count m = some (i, m')) :
    m' = m := by
  cases count with
  | zero =>
    simp only [vmm_unmap_pages, Prog.pure_eq_some] at h
    exact h.2.symm
  | succ count =>
    simp only [vmm_unmap_pages, Prog.bind_eq_some] at h
    obtain ⟨o, m1, hfind, h⟩ := h
    obtain ⟨rfl, rfl⟩ := vmm_find_pt_spec hr hfind
    rw [table_of_emptyRoot hzero (by omega)] at h
    simp only [Option.map_none, Prog.pure_eq_some] at h
    exact h.2.symm

theorem freedFrames_of_emptyRoot : freedFrames m.slot r = [r] := by
  have hnil : ∀ is, (∀ i ∈ is, child (m.slot r i) = none) →
      freedPml4 m.slot r is = [] := by
    intro is
    induction is with
    | nil =>
      intro _
      rfl
    | cons i is ih =>
      intro h
      show (match child (m.slot r i) with
        | none => freedPml4 m.slot r is
        | some c => _) = _
      rw [h i List.mem_cons_self]
      exact ih (fun j hj => h j (List.mem_cons_of_mem i hj))
  unfold freedFrames
  rw [hnil _ (child_of_emptyRoot hzero)]
  rfl

theorem presentTables_of_emptyRoot : presentTables m.slot r = [r] := by
  unfold presentTables
  congr 1
  rw [List.flatMap_eq_nil_iff]
  intro i hi
  rw [child_of_emptyRoot hzero i hi]

theorem destroy_of_emptyRoot {ctx : U64} (hctx : ctx.toNat = 4096 * r) (hr : r < 2 ^ 20) :
    arch_mm_destroy_context ctx m = some ((), m.give r) := by
  have hloop : ∀ is, (∀ i ∈ is, i < 256) →
      destroyPml4 (4096 * r) is m = some ((), m) := by
    intro is
    induction is with
    | nil =>
      intro _
      rfl
    | cons i is ih =>
      intro his
      have hi := his i List.mem_cons_self
      unfold destroyPml4 destroyTables
      rw [Prog.bind_apply (vmm_get_or_null_ent_apply m hr (by omega)), hzero i hi, child_zero]
      exact ih (fun j hj => his j (List.mem_cons_of_mem i hj))
  have haddr : ctx.toNat / 4096 = r := by
    rw [hctx, Nat.mul_div_cancel_left _ (by omega)]
  unfold arch_mm_destroy_context
  rw [hctx, Prog.bind_apply (hloop _ fun i hi => List.mem_range.mp hi)]
  exact pmm_free_apply m haddr (by omega)

theorem lifeStep_of_emptyRoot {ctx : U64} {op : LifeOp} (hctx : ctx.toNat = 4096 * r)
    (hlower : op.Lower) (hop : op.MapsNothing) (h : lifeStep ctx m op = some m') : m' = m := by
  unfold lifeStep at h
  cases op with
  | map dst src size flags cache =>
    have hsize : size = 0 := hop
    subst hsize
    obtain ⟨⟨i, m''⟩, hrun, rfl⟩ := Option.map_eq_some_iff.mp h
    have hcount : (0 : U64).toNat = 0 := rfl
    simp only [arch_mm_map, hcount, vmm_map_pages, Prog.pure_eq_some] at hrun
    exact hrun.2.symm
  | unmap dst size =>
    obtain ⟨⟨i, m''⟩, hrun, rfl⟩ := Option.map_eq_some_iff.mp h
    exact unmap_of_emptyRoot hzero hctx hlower hrun

end EmptyRoot

/-! ## §3. A context that got a frame. -/

/-- The context's tables are frames that were free before its creation, and no
frame in use has been released since. -/
structure Living (m0 : Machine) (k c : Nat) (m : Machine) (G : Ledger κ) : Prop where
  accounted : Accounted k m G
  root : G c = some (.table c [])
  fresh : ∀ f p, G f = some (.table c p) → f < m0.pmm_bitmap_len ∧ m0.bit f = false
  bits : ∀ f, f < m0.pmm_bitmap_len → m0.bit f = true → m.bit f = true
  len : m.pmm_bitmap_len = m0.pmm_bitmap_len

variable {G : Ledger κ} {c k : Nat} {m m' m0 : Machine} {ctx : U64}

theorem Living.touches {G' : Ledger κ}
    (h : Living m0 k c m G) (hA : Accounted k m' G') (ht : Touches c m G m' G') :
    Living m0 k c m' G' := by
  refine ⟨hA, ht.ext c _ h.root, ?_, ?_, ht.vars.len.trans h.len⟩
  · intro f p hf
    rcases ht.fresh f _ hf with hf | ⟨hlen, hbit, -⟩
    · exact h.fresh f p hf
    · rw [h.len] at hlen
      refine ⟨hlen, ?_⟩
      rw [← Bool.not_eq_true] at hbit ⊢
      intro hset
      exact hbit (h.bits f hlen hset)
  · intro f hf hset
    exact (ht.bits f (by rw [h.len]; exact hf)).mpr (Or.inl (h.bits f hf hset))

theorem Living.step {op : LifeOp}
    (h : Living m0 k c m G) (hctx : ctx.toNat = 4096 * c) (hlower : op.Lower)
    (hstep : lifeStep ctx m op = some m') :
    ∃ G', Living m0 k c m' G' ∧ Touches c m G m' G'
      ∧ (¬ op.MapsNothing → ∃ v, v < 2 ^ 35 ∧ m'.table c v ≠ none) := by
  unfold lifeStep at hstep
  cases op with
  | map dst src size flags cache =>
    obtain ⟨⟨i, m''⟩, hrun, rfl⟩ := Option.map_eq_some_iff.mp hstep
    obtain ⟨G', hA, ht, htab⟩ := vmm_map_pages_touches hctx _ _ _ _ _ _ G i h.accounted h.root
      hlower hrun
    refine ⟨G', h.touches hA ht, ht, ?_⟩
    intro hsome
    have hpos : 0 < size.toNat := by
      rw [Nat.pos_iff_ne_zero]
      intro he
      exact hsome (BitVec.eq_of_toNat_eq he)
    have hfit : pageOf dst + size.toNat ≤ 2 ^ 35 := hlower
    exact ⟨pageOf dst, by omega, htab hpos⟩
  | unmap dst size =>
    obtain ⟨⟨i, m''⟩, hrun, rfl⟩ := Option.map_eq_some_iff.mp hstep
    obtain ⟨hA, ht⟩ := vmm_unmap_pages_touches hctx h.root _ _ _ _ i h.accounted hlower hrun
    exact ⟨G, h.touches hA ht, ht, fun hno => absurd trivial hno⟩

theorem Living.run (hctx : ctx.toNat = 4096 * c) (ops : List LifeOp) (m m2 : Machine)
    (G : Ledger κ) (h : Living m0 k c m G) (hlower : (∀ op ∈ ops, op.Lower))
    (hrun : run (lifeStep ctx) m ops = some m2) :
    ∃ G', Living m0 k c m2 G' ∧ Touches c m G m2 G'
      ∧ ((∃ op ∈ ops, ¬ op.MapsNothing) → ∃ v, v < 2 ^ 35 ∧ m2.table c v ≠ none) := by
  induction ops generalizing m m2 G with
  | nil =>
    injection hrun with hrun
    subst hrun
    refine ⟨G, h, Touches.refl c m G, ?_⟩
    rintro ⟨op, hop, -⟩
    cases hop
  | cons op ops ih =>
    obtain ⟨m1, hop, hrest⟩ := (run_cons_eq_some (lifeStep ctx)).mp hrun
    obtain ⟨G1, h1, t1, htab1⟩ := h.step hctx (hlower op List.mem_cons_self) hop
    obtain ⟨G2, h2, t2, htab2⟩ := ih m1 m2 G1 h1
      (fun o ho => hlower o (List.mem_cons_of_mem op ho)) hrest
    refine ⟨G2, h2, t1.trans t2, ?_⟩
    rintro ⟨o, ho, hsome⟩
    rcases List.mem_cons.mp ho with rfl | ho
    · obtain ⟨v, hv, hne⟩ := htab1 hsome
      obtain ⟨pt, hpt⟩ := Option.ne_none_iff_exists'.mp hne
      refine ⟨v, hv, ?_⟩
      rw [t2.tables v pt hv hpt]
      exact Option.some_ne_none pt
    · exact htab2 ⟨o, ho, hsome⟩

theorem Living.create {m1 : Machine}
    {ehdr : Option (List Elf64Phdr)} (hA : Accounted k m G) (hk : m.kernel_pml4.toNat = 4096 * k)
    (hcreate : arch_mm_create_context ehdr m = some (ctx, m1)) (hne : ctx ≠ 0) :
    ∃ (c : Nat) (G1 : Ledger κ), ctx.toNat = 4096 * c ∧ Living m k c m1 G1 := by
  obtain ⟨hkept, hcase⟩ := vmm_new_address_space_accounted hA hk hcreate
  rcases hcase with ⟨rfl, -⟩ | ⟨c, haddr, hclen, hbit, hA1, hbits, -⟩
  · exact absurd rfl hne
  · refine ⟨c, _, haddr, hA1, Function.update_self .., ?_, ?_, hkept.vars.len⟩
    · intro f p hf
      by_cases hfc : f = c
      · subst hfc
        exact ⟨hclen, hbit⟩
      · -- no other frame belongs to a root that did not exist
        rw [Function.update_of_ne hfc] at hf
        have := hA.root f c p hf
        rw [hA.free_of_bit hbit] at this
        cases this
    · intro f hf hset
      rw [hbits f hf]
      split
      · rfl
      · exact hset

theorem Living.leak {v pt : Nat}
    (h : Living m0 k c m G) (hctx : ctx.toNat = 4096 * c) (hv : v < 2 ^ 35)
    (hpt : m.table c v = some pt) :
    ∃ m', arch_mm_destroy_context ctx m = some ((), m')
      ∧ pt < m0.pmm_bitmap_len ∧ m0.bit pt = false ∧ m'.bit pt = true := by
  have htyped := h.accounted.table_typed h.root hv hpt
  have hman := h.accounted.managed pt _ htyped
  obtain ⟨hlen, hclear⟩ := h.fresh pt _ htyped
  obtain ⟨hfree, heq⟩ := arch_mm_destroy_context_eq h.accounted h.root hctx
  refine ⟨_, heq, hlen, hclear, ?_⟩
  rw [Machine.giveAll_bit, if_neg]
  · exact hman.bit
  · intro hmem
    rcases hfree pt hmem with rfl | ⟨p, hp, hG⟩
    · have := hman.low
      omega
    · rw [htyped] at hG
      injection hG with hG
      injection hG with _ hpath
      rw [← hpath] at hp
      simp [pagePath] at hp

/-! ## §4. Conservation. -/

theorem lifeStep_null {op : LifeOp} (hlen : m.pmm_bitmap_len ≤ 2 ^ 63)
    (hzero : ∀ i, i < 256 → m.slot 0 i = 0)
    (hfull : ∀ f, 0x2000 ≤ f → f < m.pmm_bitmap_len → m.bit f = true) (hlower : op.Lower)
    (h : lifeStep 0 m op = some m') : m' = m := by
  have hctx : (0 : U64).toNat = 4096 * 0 := rfl
  by_cases hop : op.MapsNothing
  · exact lifeStep_of_emptyRoot hzero hctx hlower hop h
  · exfalso
    cases op with
    | unmap => exact hop trivial
    | map dst src size flags cache =>
      unfold lifeStep at h
      obtain ⟨⟨i, m''⟩, hrun, rfl⟩ := Option.map_eq_some_iff.mp h
      have hfit : pageOf dst + size.toNat ≤ 2 ^ 35 := hlower
      obtain ⟨n, hn⟩ : ∃ n, size.toNat = n + 1 := by
        apply Nat.exists_eq_succ_of_ne_zero
        intro he
        exact hop (BitVec.eq_of_toNat_eq he)
      unfold arch_mm_map at hrun
      rw [hn] at hrun
      simp only [vmm_map_pages, Prog.bind_eq_some] at hrun
      obtain ⟨_, m1, hpage, -⟩ := hrun
      obtain ⟨_, c, _, _, _, _, e1, -⟩ := vmm_map_page_spec hlen hctx hpage
      cases e1 with
      | present c hc =>
        rw [hzero _ (by omega), child_zero] at hc
        cases hc
      | linked c _ hlow hclen _ hbit =>
        have := hfull c hlow hclen
        rw [hbit] at this
        cases this

theorem not_conserved_of_bit {m2 m3 : Machine} {r f : Nat} (hf : f < m.pmm_bitmap_len)
    (hclear : m.bit f = false) (hset : m3.bit f = true) : ¬ Conserved m m2 m3 r := by
  intro hc
  have := hc.bitmap f hf
  rw [hset, hclear] at this
  cases this

/-- **What the life of a context conserves.**  The teardown runs to its end.  It
frees exactly the tables of the context, and bitmap and count of free pages are
as before the creation, if and only if the creation got a frame and no page was
ever mapped. -/
theorem conserved_iff_nothing_mapped (k : Nat) (G : Ledger κ) (m : Machine)
    (hA : Accounted k m G) (hk : m.kernel_pml4.toNat = 4096 * k) (htotal : m.pmm_total_pages ≠ 0)
    (ehdr : Option (List Elf64Phdr)) (ctx : U64) (m1 : Machine)
    (hcreate : arch_mm_create_context ehdr m = some (ctx, m1))
    (ops : List LifeOp) (hlower : ∀ op ∈ ops, op.Lower) (m2 : Machine)
    (hrun : run (lifeStep ctx) m1 ops = some m2) :
    ∃ m3, arch_mm_destroy_context ctx m2 = some ((), m3)
      ∧ (Conserved m m2 m3 (rootOf ctx) ↔ ctx ≠ 0 ∧ ∀ op ∈ ops, op.MapsNothing) := by
  obtain ⟨hkept, hcase⟩ := vmm_new_address_space_accounted hA hk hcreate
  rcases hcase with ⟨rfl, hA1, hbits, hzero, hcount, hfull⟩
    | ⟨c, haddr, hclen, hbit, hA1, hbits, hzero, hcount⟩
  · -- no frame: the teardown frees frame 0, which nobody took
    have hfull1 : ∀ f, 0x2000 ≤ f → f < m1.pmm_bitmap_len → m1.bit f = true := by
      intro f hf hlen
      rw [hkept.vars.len] at hlen
      rw [hbits f hlen]
      exact hfull f hf hlen
    have hsame : m2 = m1 := run_eq_self (lifeStep 0) (fun op hop m' hs =>
      lifeStep_null hA1.bitmap_len_le hzero hfull1 (hlower op hop) hs) hrun
    subst hsame
    refine ⟨m2.give 0, destroy_of_emptyRoot hzero rfl (by omega), ?_, ?_⟩
    · intro hc
      have hfree : m2.pmm_free_pages + 1 = m.pmm_free_pages := hc.count
      rw [hcount] at hfree
      bv_omega
    · rintro ⟨hne, -⟩
      exact absurd rfl hne
  · have hman := hA1.managed c _ (Function.update_self ..)
    have hne : ctx ≠ 0 := by
      rintro rfl
      have := hman.low
      have h0 : (0 : U64).toNat = 0 := rfl
      omega
    by_cases hnothing : ∀ op ∈ ops, op.MapsNothing
    · have hsame : m2 = m1 := run_eq_self (lifeStep ctx) (fun op hop m' hs =>
        lifeStep_of_emptyRoot hzero haddr (hlower op hop) (hnothing op hop) hs) hrun
      subst hsame
      refine ⟨m2.give c, destroy_of_emptyRoot hzero haddr hman.window,
        fun _ => ⟨hne, hnothing⟩, fun _ => ?_⟩
      rw [rootOf_eq haddr]
      refine ⟨?_, ?_, ?_⟩
      · rw [freedFrames_of_emptyRoot hzero, presentTables_of_emptyRoot hzero]
      · intro f hf
        rw [Machine.give_bit, hbits f hf]
        by_cases hfc : f = c
        · rw [if_pos hfc, hfc, hbit]
        · rw [if_neg hfc, if_neg hfc]
      · show m2.pmm_free_pages + 1 = _
        rw [hcount htotal]
        bv_omega
    · -- some page was mapped: its last-level table is lost
      have hex : ∃ op ∈ ops, ¬ op.MapsNothing := by
        simpa only [not_forall, exists_prop] using hnothing
      obtain ⟨c', G1, haddr', hliving⟩ := Living.create hA hk hcreate hne
      obtain ⟨G2, h2, -, htab⟩ := hliving.run haddr' ops m1 m2 _ hlower hrun
      obtain ⟨v, hv, hv'⟩ := htab hex
      obtain ⟨pt, hpt⟩ := Option.ne_none_iff_exists'.mp hv'
      obtain ⟨m3, hdestroy, hlen, hclear, hset⟩ := h2.leak haddr' hv hpt
      refine ⟨m3, hdestroy, fun hc => ?_, fun hn => absurd hn.2 hnothing⟩
      exact absurd hc (not_conserved_of_bit hlen hclear hset)

/-- A context that is created, unmapped from and destroyed gives everything
back. -/
theorem conserved_iff_nothing_mapped_unmap :
    ∃ m1 m2 m3, arch_mm_create_context none bootMachine = some (0x2009000, m1)
      ∧ run (lifeStep 0x2009000) m1 [.unmap 0x1000 1] = some m2
      ∧ arch_mm_destroy_context 0x2009000 m2 = some ((), m3)
      ∧ Conserved bootMachine m2 m3 (rootOf 0x2009000) := by
  have hruns : ((arch_mm_create_context none bootMachine).bind fun r =>
      (run (lifeStep r.1) r.2 [.unmap 0x1000 1]).map fun _ => r.1) = some 0x2009000 := by
    decide +kernel
  obtain ⟨⟨ctx, m1⟩, hcreate, h⟩ := Option.bind_eq_some_iff.mp hruns
  obtain ⟨m2, hrun, rfl⟩ := Option.map_eq_some_iff.mp h
  obtain ⟨k, G, hA, hk, -, -, htotal⟩ := bootMachine_booted
  have hlower : ∀ op ∈ [LifeOp.unmap 0x1000 1], op.Lower := by
    simp only [List.mem_singleton, forall_eq, LifeOp.Lower]
    decide
  obtain ⟨m3, hdestroy, hiff⟩ := conserved_iff_nothing_mapped k G bootMachine hA hk htotal none _ m1
    hcreate _ hlower m2 hrun
  exact ⟨m1, m2, m3, hcreate, hrun, hdestroy, hiff.mpr ⟨by decide, by simp [LifeOp.MapsNothing]⟩⟩

/-- One page mapped: the frame of its last-level table, free before the context
was created, is still taken after it is gone. -/
theorem mapped_page_leaks_table :
    ∃ m1 m2 m3, arch_mm_create_context none bootMachine = some (0x2009000, m1)
      ∧ run (lifeStep 0x2009000) m1 [.map 0x1000 0x5000 1 vm_perm_rw 0] = some m2
      ∧ arch_mm_destroy_context 0x2009000 m2 = some ((), m3)
      ∧ bootMachine.bit 0x200C = false ∧ m3.bit 0x200C = true
      ∧ ¬ Conserved bootMachine m2 m3 (rootOf 0x2009000) := by
  have hruns : ((arch_mm_create_context none bootMachine).bind fun r =>
      (run (lifeStep r.1) r.2 [.map 0x1000 0x5000 1 vm_perm_rw 0]).map fun m2 =>
        (r.1, m2.table 0x2009 1)) = some (0x2009000, some 0x200C) := by
    decide +kernel
  obtain ⟨⟨ctx, m1⟩, hcreate, h⟩ := Option.bind_eq_some_iff.mp hruns
  obtain ⟨m2, hrun, he⟩ := Option.map_eq_some_iff.mp h
  injection he with hctx htab
  subst hctx
  obtain ⟨k, G, hA, hk, -, -, -⟩ := bootMachine_booted
  obtain ⟨c, G1, haddr, hliving⟩ := Living.create hA hk hcreate (by decide)
  have hc : c = 0x2009 := by
    have : (0x2009000 : U64).toNat = 4096 * 0x2009 := rfl
    omega
  subst hc
  have hlower : ∀ op ∈ [LifeOp.map 0x1000 0x5000 1 vm_perm_rw 0], op.Lower := by
    simp only [List.mem_singleton, forall_eq, LifeOp.Lower]
    decide
  obtain ⟨G2, h2, -, -⟩ := hliving.run haddr _ m1 m2 _ hlower hrun
  obtain ⟨m3, hdestroy, hlen, hclear, hset⟩ := h2.leak haddr (by decide) htab
  exact ⟨m1, m2, m3, hcreate, hrun, hdestroy, hclear, hset,
    not_conserved_of_bit hlen hclear hset⟩

end Quack.Arch
