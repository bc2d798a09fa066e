/-
  Quack.Arch.Teardown
  **WHAT `arch_mm_destroy_context` FREES.**

  The three nested loops read tables and clear bits; since no bit lies in a
  table, what they free is a list that can be computed beforehand
  (`freedFrames`), and the teardown is a fold of `Machine.give` over it
  (`arch_mm_destroy_context_eq`).

  The list has the root, the present second- and third-level tables, and frame
  0 once for every ABSENT entry of a page directory: the test of the innermost
  loop skips the present ones, so no last-level table is ever freed
  (`Freeable`).
-/
import Quack.Arch.Contexts

namespace Quack.Arch

open Lib

variable {κ : Type}

/-! ## §1. The list of freed frames. -/

section Freed

variable (S : Nat → Nat → U64)

/-- Frames freed by the innermost loop. -/
def freedPd (pd : Nat) : List Nat → List Nat
  | [] => []
  | k :: ks =>
    if S pd k &&& VMM_FLAG_LARGE ≠ 0 then freedPd pd ks
    else if S pd k &&& VMM_FLAG_PRESENT ≠ 0 then freedPd pd ks
    else frameOf (S pd k) :: freedPd pd ks

/-- Frames freed by the outer loops. -/
def freedTables (inner : Nat → List Nat) (tab : Nat) : List Nat → List Nat
  | [] => []
  | i :: is =>
    match child (S tab i) with
    | none => freedTables inner tab is
    | some c => inner c ++ frameOf (S tab i) :: freedTables inner tab is

/-- Frames freed by the middle loop. -/
def freedPdp (pdp : Nat) : List Nat → List Nat :=
  freedTables S (fun pd => freedPd S pd (List.range 512)) pdp

/-- Frames freed by the outer loop. -/
def freedPml4 (r : Nat) : List Nat → List Nat :=
  freedTables S (fun pdp => freedPdp S pdp (List.range 512)) r

/-- Frames freed by `arch_mm_destroy_context`, in order. -/
def freedFrames (r : Nat) : List Nat := freedPml4 S r (List.range 256) ++ [r]

end Freed

/-- Free the frames of a list. -/
def Machine.giveAll (m : Machine) (fs : List Nat) : Machine := fs.foldl Machine.give m

theorem Machine.giveAll_append (m : Machine) (fs gs : List Nat) :
    m.giveAll (fs ++ gs) = (m.giveAll fs).giveAll gs := List.foldl_append

/-! ## §2. Freeing leaves the tables readable. -/

/-- Only bits, and the count of free pages, differ from `m0`. -/
structure BitsOnly (m0 m : Machine) : Prop where
  vars : m0.SameVars m
  slots : ∀ f j, ¬ m0.BitmapFrame f → j < 512 → m.slot f j = m0.slot f j

theorem BitsOnly.refl (m : Machine) : BitsOnly m m :=
  ⟨Machine.SameVars.refl m, fun _ _ _ _ => rfl⟩

variable {m m0 : Machine}

theorem BitsOnly.bitmapFrame (h : BitsOnly m0 m) (f : Nat) :
    m.BitmapFrame f ↔ m0.BitmapFrame f := by
  unfold Machine.BitmapFrame
  rw [h.vars.len]

theorem BitsOnly.give (h : BitsOnly m0 m) {f : Nat}
    (hf : f < m0.pmm_bitmap_len) : BitsOnly m0 (m.give f) := by
  refine ⟨h.vars.trans ⟨rfl, rfl, rfl, rfl⟩, ?_⟩
  intro g j hg hj
  rw [m.give_slot (by rw [h.vars.len]; exact hf) hj (by rw [h.bitmapFrame]; exact hg)]
  exact h.slots g j hg hj

theorem BitsOnly.giveAll (fs : List Nat) (m : Machine) (h : BitsOnly m0 m)
    (hlen : (∀ f ∈ fs, f < m0.pmm_bitmap_len)) : BitsOnly m0 (m.giveAll fs) := by
  induction fs generalizing m with
  | nil =>
    exact h
  | cons f fs ih =>
    exact ih (m.give f) (h.give (hlen f List.mem_cons_self))
      (fun g hg => hlen g (List.mem_cons_of_mem f hg))

theorem Machine.giveAll_bit (fs : List Nat) (m : Machine) (f : Nat) :
    (m.giveAll fs).bit f = if f ∈ fs then false else m.bit f := by
  induction fs generalizing m f with
  | nil =>
    rfl
  | cons g fs ih =>
    show ((m.give g).giveAll fs).bit f = _
    rw [ih (m.give g) f, m.give_bit]
    by_cases hfs : f ∈ fs
    · rw [if_pos hfs, if_pos (List.mem_cons_of_mem g hfs)]
    · rw [if_neg hfs]
      by_cases hfg : f = g
      · rw [if_pos hfg, if_pos (by rw [hfg]; exact List.mem_cons_self)]
      · rw [if_neg hfg, if_neg]
        intro hmem
        rcases List.mem_cons.mp hmem with h | h
        · exact hfg h
        · exact hfs h

/-! ## §3. The loops. -/

section Loops

variable {k r : Nat} {m0 : Machine} {G : Ledger κ}

variable {f i pd n : Nat} {p : List Nat}

theorem readSlot_apply (m : Machine) (hf : f < 2 ^ 20) (hi : i < 512) :
    readEnt (some (4096 * f)) i m = some (m.slot f i, m) := by
  have hwin : 4096 * f + 8 * i < phys_window := by
    rw [phys_window_eq]
    omega
  unfold readEnt
  rw [Prog.bind_apply (show Prog.ofOption (some (4096 * f)) m = some (4096 * f, m) from rfl)]
  rw [load64_eq_some, entry_word]
  exact ⟨hwin, rfl, rfl⟩

theorem vmm_get_or_null_ent_apply (m : Machine) (hf : f < 2 ^ 20) (hi : i < 512) :
    vmm_get_or_null_ent (some (4096 * f)) i m
      = some ((child (m.slot f i)).map (4096 * ·), m) := by
  unfold vmm_get_or_null_ent
  rw [Prog.bind_apply (readSlot_apply m hf hi)]
  unfold child
  by_cases hp : m.slot f i &&& VMM_FLAG_PRESENT = 0
  · rw [if_pos hp, if_pos hp]
    rfl
  · rw [if_neg hp, if_neg hp, entTable, toNat_and_addr_mask]
    rfl

theorem pmm_free_apply {p : U64} (m : Machine) (hp : p.toNat / 4096 = f)
    (hf : f < 2 ^ 32) : pmm_free p 1 m = some ((), m.give f) := by
  have hone : (1 : U64).toNat = 1 := rfl
  have hwin : PMM_MEMORY_BASE + 8 * (f / 64) < phys_window := by
    rw [phys_window_eq]
    unfold PMM_MEMORY_BASE
    omega
  unfold pmm_free PAGE_SIZE
  have hwrite : pmm_bit_write f false 1 m = some ((), m.setBit f false) :=
    pmm_bit_write_one.mpr ⟨hwin, rfl⟩
  rw [hp, hone, Prog.bind_apply hwrite]
  rfl

/-- Frame 0, or a table of `r` above the last level. -/
def Freeable (G : Ledger κ) (r f : Nat) : Prop :=
  f = 0 ∨ ∃ p, p.length ≤ 2 ∧ G f = some (.table r p)

theorem Freeable.lt_len (h : Accounted k m0 G) (hf : Freeable G r f) :
    f < m0.pmm_bitmap_len := by
  rcases hf with rfl | ⟨p, -, hf⟩
  · have := (h.managed k _ h.kernel).len
    omega
  · exact (h.managed f _ hf).len

theorem freedPd_eq_zero (h : Accounted k m0 G)
    (hpd : G pd = some (.table r p)) (hp : p.length = 2) :
    ∀ ks, (∀ i ∈ ks, i < 512) → ∀ f ∈ freedPd m0.slot pd ks, f = 0 := by
  intro ks
  induction ks with
  | nil =>
    intro _ f hf
    cases hf
  | cons i ks ih =>
    intro hks f hf
    have hi := hks i List.mem_cons_self
    have hrest := ih (fun j hj => hks j (List.mem_cons_of_mem i hj)) f
    have hlow : LowerSlot p i := ⟨by omega, hi, by rintro rfl; cases hp⟩
    unfold freedPd at hf
    split at hf
    · exact hrest hf
    · split at hf
      · exact hrest hf
      · next hpresent =>
          rcases h.lower_slot hpd hlow with h0 | ⟨c, hent, hwin, -⟩
          · rcases List.mem_cons.mp hf with rfl | hf
            · rw [h0]
              rfl
            · exact hrest hf
          · -- a link is present, so the entry is skipped
            exfalso
            apply hpresent
            rw [hent, ne_eq, and_present_eq_zero, toNat_tableEnt hwin]
            omega

theorem destroyPd_eq (h : Accounted k m0 G)
    (hpd : G pd = some (.table r p)) (hp : p.length = 2) :
    ∀ ks, (∀ i ∈ ks, i < 512) → ∀ m, BitsOnly m0 m →
      destroyPd (4096 * pd) ks m = some ((), m.giveAll (freedPd m0.slot pd ks)) := by
  have hman := h.managed pd _ hpd
  have hlen := h.len
  intro ks
  induction ks with
  | nil =>
    intro _ m _
    rfl
  | cons i ks ih =>
    intro hks m hm
    have hi := hks i List.mem_cons_self
    have hrest := ih (fun j hj => hks j (List.mem_cons_of_mem i hj))
    have hfree := freedPd_eq_zero h hpd hp (i :: ks) hks
    unfold destroyPd
    rw [Prog.bind_apply (readSlot_apply m hman.window hi), hm.slots pd i hman.bitmap hi]
    unfold freedPd at hfree ⊢
    by_cases hlarge : m0.slot pd i &&& VMM_FLAG_LARGE ≠ 0
    · rw [if_pos hlarge, if_pos hlarge]
      exact hrest m hm
    · rw [if_neg hlarge] at hfree ⊢
      rw [if_neg hlarge]
      by_cases hpresent : m0.slot pd i &&& VMM_FLAG_PRESENT ≠ 0
      · rw [if_pos hpresent, if_pos hpresent]
        exact hrest m hm
      · rw [if_neg hpresent] at hfree ⊢
        rw [if_neg hpresent]
        have hlt := Freeable.lt_len (r := r) h (Or.inl (hfree _ List.mem_cons_self))
        have haddr : (m0.slot pd i &&& VMM_ADDR_MASK).toNat / 4096 = frameOf (m0.slot pd i) := by
          rw [toNat_and_addr_mask, Nat.mul_div_cancel_left _ (by omega)]
        rw [Prog.bind_apply (pmm_free_apply m haddr (by omega))]
        exact hrest _ (hm.give hlt)

theorem destroyTables_eq (h : Accounted k m0 G) {inner : Nat → Prog Machine Unit}
    {freed : Nat → List Nat} (hn : n ≤ 1)
    (hfreed : ∀ c p, G c = some (.table r p) → p.length = n + 1 → ∀ f ∈ freed c, Freeable G r f)
    (hinner : ∀ c p m, G c = some (.table r p) → p.length = n + 1 → BitsOnly m0 m →
      inner (4096 * c) m = some ((), m.giveAll (freed c)))
    {tab : Nat} (htab : G tab = some (.table r p)) (hp : p.length = n) :
    ∀ is, (∀ i ∈ is, LowerSlot p i) →
      (∀ f ∈ freedTables m0.slot freed tab is, Freeable G r f)
      ∧ ∀ m, BitsOnly m0 m → destroyTables inner (4096 * tab) is m
          = some ((), m.giveAll (freedTables m0.slot freed tab is)) := by
  have hman := h.managed tab _ htab
  have hlen := h.len
  intro is
  induction is with
  | nil =>
    intro _
    constructor
    · intro f hf
      cases hf
    · intro m _
      rfl
  | cons i is ih =>
    intro his
    have hi := his i List.mem_cons_self
    obtain ⟨ihfree, ihrun⟩ := ih (fun j hj => his j (List.mem_cons_of_mem i hj))
    have hget : ∀ m, BitsOnly m0 m → vmm_get_or_null_ent (some (4096 * tab)) i m
        = some ((child (m0.slot tab i)).map (4096 * ·), m) := by
      intro m hm
      rw [vmm_get_or_null_ent_apply m hman.window hi.2.1, hm.slots tab i hman.bitmap hi.2.1]
    -- frees only clear bits, so the entries read are those of `m0`
    unfold freedTables
    cases hc : child (m0.slot tab i) with
    | none =>
      refine ⟨ihfree, ?_⟩
      intro m hm
      unfold destroyTables
      rw [Prog.bind_apply (hget m hm), hc]
      exact ihrun m hm
    | some c =>
      have hG : G c = some (.table r (p ++ [i])) := Ledger.tables_eq_some.mp
        (h.typing tab r p i c (Ledger.tables_eq_some.mpr htab) hi hc)
      have hlen' : (p ++ [i]).length = n + 1 := by simp [hp]
      have hframe := frameOf_eq_of_child hc
      have hself : Freeable G r (frameOf (m0.slot tab i)) := by
        rw [hframe]
        exact Or.inr ⟨p ++ [i], by omega, hG⟩
      constructor
      · intro f hf
        rcases List.mem_append.mp hf with hf | hf
        · exact hfreed c _ hG hlen' f hf
        · rcases List.mem_cons.mp hf with rfl | hf
          · exact hself
          · exact ihfree f hf
      · intro m hm
        have hb : BitsOnly m0 (m.giveAll (freed c)) := BitsOnly.giveAll _ m hm
          (fun f hf => Freeable.lt_len h (hfreed c _ hG hlen' f hf))
        have hlt := Freeable.lt_len h hself
        have haddr : (m0.slot tab i &&& VMM_ADDR_MASK).toNat / 4096
            = frameOf (m0.slot tab i) := by
          rw [toNat_and_addr_mask, Nat.mul_div_cancel_left _ (by omega)]
        unfold destroyTables
        rw [Prog.bind_apply (hget m hm), hc]
        show (inner (4096 * c) >>= _) m = _
        rw [Prog.bind_apply (hinner c _ m hG hlen' hm),
          Prog.bind_apply (readSlot_apply _ hman.window hi.2.1),
          hb.slots tab i hman.bitmap hi.2.1,
          Prog.bind_apply (pmm_free_apply _ haddr (by omega)),
          ihrun _ (hb.give hlt), Machine.giveAll_append]
        rfl

theorem mem_range_lower (hp : p ≠ []) (hlen : p.length < 3)
    (hn : n ≤ 512) : ∀ i ∈ List.range n, LowerSlot p i := by
  intro i hi
  have := List.mem_range.mp hi
  exact ⟨hlen, by omega, fun h => absurd h hp⟩

theorem destroyPdp_eq (h : Accounted k m0 G) {pdp : Nat}
    (hpdp : G pdp = some (.table r p)) (hp : p.length = 1) :
    (∀ f ∈ freedPdp m0.slot pdp (List.range 512), Freeable G r f)
    ∧ ∀ m, BitsOnly m0 m → destroyPdp (4096 * pdp) (List.range 512) m
        = some ((), m.giveAll (freedPdp m0.slot pdp (List.range 512))) := by
  have hrange : ∀ i ∈ List.range 512, i < 512 := fun i hi => List.mem_range.mp hi
  refine destroyTables_eq h (n := 1) (by omega) ?_ ?_ hpdp hp (List.range 512)
    (mem_range_lower (by rintro rfl; cases hp) (by omega) (by omega))
  · intro c q hc hq f hf
    exact Or.inl (freedPd_eq_zero h hc hq _ hrange f hf)
  · intro c q m hc hq hm
    exact destroyPd_eq h hc hq _ hrange m hm

theorem destroyPml4_eq (h : Accounted k m0 G) (hr : G r = some (.table r [])) :
    (∀ f ∈ freedPml4 m0.slot r (List.range 256), Freeable G r f)
    ∧ ∀ m, BitsOnly m0 m → destroyPml4 (4096 * r) (List.range 256) m
        = some ((), m.giveAll (freedPml4 m0.slot r (List.range 256))) := by
  refine destroyTables_eq h (n := 0) (by omega) ?_ ?_ hr rfl (List.range 256) ?_
  · intro c q hc hq
    exact (destroyPdp_eq h hc hq).1
  · intro c q m hc hq
    exact (destroyPdp_eq h hc hq).2 m
  · intro i hi
    have := List.mem_range.mp hi
    exact ⟨by simp, by omega, fun _ => this⟩

theorem arch_mm_destroy_context_eq (h : Accounted k m0 G) (hr : G r = some (.table r []))
    {ctx : U64} (hctx : ctx.toNat = 4096 * r) :
    (∀ f ∈ freedFrames m0.slot r, Freeable G r f)
    ∧ arch_mm_destroy_context ctx m0 = some ((), m0.giveAll (freedFrames m0.slot r)) := by
  obtain ⟨hfree, hloop⟩ := destroyPml4_eq h hr
  have hwin := (h.managed r _ hr).window
  unfold freedFrames
  constructor
  · intro f hf
    rcases List.mem_append.mp hf with hf | hf
    · exact hfree f hf
    · rw [List.mem_singleton.mp hf]
      exact Or.inr ⟨[], by simp, hr⟩
  · have haddr : ctx.toNat / 4096 = r := by
      rw [hctx, Nat.mul_div_cancel_left _ (by omega)]
    unfold arch_mm_destroy_context
    rw [hctx, Prog.bind_apply (hloop m0 (BitsOnly.refl m0)), pmm_free_apply _ haddr (by omega),
      Machine.giveAll_append]
    rfl

end Loops

end Quack.Arch
