/-
  Quack.Arch.PmmRuns
  **RUNS OF THE FRAME ALLOCATOR.**

  From `pmm_init` on, `pmm_alloc_ex` and `pmm_free` are called in any order; a
  free passes the base and the count of a live allocation.

  Two checks are missing in `pmm_alloc_ex`.  A range may run past the end of the
  bitmap, so that its bits lie in frames that can be handed out and cleared; and
  the frame that is cleared may itself hold a word of the bitmap, since the last
  word is not always in the frames set aside by `pmm_init`.  `Clean` says of the
  bitmap before a call that the call meets neither.

    • `pmm_contract`        — every call keeps it, and live allocations are
      disjoint and marked, in every run whose calls are clean.
    • `pmm_contract_wipes_bitmap` — a frame of the bitmap is handed out.
-/
import Quack.Lib.Runs
import Quack.Arch.PmmInit

namespace Quack.Arch

open Lib

/-! ## §1. Runs. -/

/-- A live allocation. -/
structure Extent where
  base : U64
  count : U64
  deriving Repr, DecidableEq

namespace Extent

/-- The first frame. -/
def first (e : Extent) : Nat := e.base.toNat / 4096

/-- The frame after the last one. -/
def stop (e : Extent) : Nat := e.first + e.count.toNat

def Disjoint (a b : Extent) : Prop := a.stop ≤ b.first ∨ b.stop ≤ a.first

end Extent

structure PmmState where
  machine : Machine
  live : List Extent

inductive PmmOp where
  | alloc (count alignment upper : U64)
  /-- Free the live allocation with this number. -/
  | free (i : Nat)
  deriving Repr, DecidableEq

def pmmStep (s : PmmState) : PmmOp → Option PmmState
  | .alloc count alignment upper =>
    if 1 ≤ count.toNat ∧ 1 ≤ alignment.toNat then
      (pmm_alloc_ex count alignment upper s.machine).map fun (p, m) =>
        ⟨m, if p = 0 then s.live else ⟨p, count⟩ :: s.live⟩
    else none
  | .free i =>
    s.live[i]?.bind fun e =>
      (pmm_free e.base e.count s.machine).map fun (_, m) => ⟨m, s.live.eraseIdx i⟩

/-! ## §2. The contract. -/

/-- **What `pmm_alloc_ex` promises.** -/
structure AllocContract (count alignment upper : U64) (m : Machine) (p : U64) (m' : Machine) :
    Prop where
  /-- `NULL`: nothing fits, and nothing changes. -/
  null : p = 0 → m' = m
    ∧ NoFit m count.toNat alignment.toNat (pmm_max_idx m.pmm_bitmap_len upper) 0x2000
  /-- Otherwise the first fit is returned. -/
  fit : p ≠ 0 → ∃ f, p = BitVec.ofNat 64 (4096 * f)
    ∧ FirstFit m count.toNat alignment.toNat (pmm_max_idx m.pmm_bitmap_len upper) 0x2000 f
  /-- Its bits are set, and no others change. -/
  bits : p ≠ 0 → ∀ j, j < m.pmm_bitmap_len → m'.bit j
    = if p.toNat / 4096 ≤ j ∧ j < p.toNat / 4096 + count.toNat then true else m.bit j
  /-- Freeing it at once restores the bitmap and the count of free pages. -/
  undo : p ≠ 0 → ∃ m'', pmm_free p count m' = some ((), m'')
    ∧ (∀ j, j < m.pmm_bitmap_len → m''.bit j = m.bit j)
    ∧ m''.pmm_free_pages = m.pmm_free_pages

def Meets (s : PmmState) : PmmOp → Prop
  | .alloc count alignment upper => 1 ≤ count.toNat → 1 ≤ alignment.toNat →
      (∀ p m', pmm_alloc_ex count alignment upper s.machine = some (p, m') →
        AllocContract count alignment upper s.machine p m')
      ∧ (s.machine.pmm_bitmap_len ≤ 2 ^ 20 → count.toNat ≤ 2 ^ 34 →
        ∃ p m', pmm_alloc_ex count alignment upper s.machine = some (p, m'))
  | .free _ => True

/-- Live allocations are disjoint, and their bits are set. -/
structure LiveOk (s : PmmState) : Prop where
  disjoint : s.live.Pairwise Extent.Disjoint
  bits : ∀ e ∈ s.live, ∀ j, e.first ≤ j → j < e.stop → s.machine.bit j = true

def Machine.Wipes (m : Machine) (f count j : Nat) : Prop :=
  0x2000 ≤ f ∧ j / 32768 = f - 0x2000 ∧ (m.bit j = true ∨ (f ≤ j ∧ j < f + count))

def Clean (s : PmmState) : PmmOp → Prop
  | .alloc count alignment upper => ∀ f, FirstFit s.machine count.toNat alignment.toNat
      (pmm_max_idx s.machine.pmm_bitmap_len upper) 0x2000 f → Reachable f count.toNat →
      f + count.toNat ≤ s.machine.pmm_bitmap_len
        ∧ ∀ j, j < s.machine.pmm_bitmap_len → ¬ s.machine.Wipes f count.toNat j
  | .free _ => True

/-- The same, with no bit of the bitmap in the frame at all. -/
def Room (s : PmmState) : PmmOp → Prop
  | .alloc count alignment upper => ∀ f, FirstFit s.machine count.toNat alignment.toNat
      (pmm_max_idx s.machine.pmm_bitmap_len upper) 0x2000 f → Reachable f count.toNat →
      f + count.toNat ≤ s.machine.pmm_bitmap_len ∧ ¬ s.machine.BitmapFrame f
  | .free _ => True

theorem Room.clean {s : PmmState} {op : PmmOp} (h : Room s op) : Clean s op := by
  cases op with
  | free i => trivial
  | alloc count alignment upper =>
    intro f hfit hf
    obtain ⟨hstop, hbitmap⟩ := h f hfit hf
    refine ⟨hstop, fun j hj hwipes => hbitmap ?_⟩
    obtain ⟨hlow, hword, -⟩ := hwipes
    exact ⟨hlow, by omega⟩

variable {m m0 : Machine} {mmap : List MmapEntry}

theorem forall_firstFit {count alignment max_idx idx : Nat} {P : Nat → Prop} :
    (∀ f, FirstFit m count alignment max_idx idx f → P f)
      ↔ ∀ n, n < max_idx - idx → idx + n * alignment < max_idx
          ∧ m.Free (idx + n * alignment) count
          ∧ (∀ i, i < n → ¬ m.Free (idx + i * alignment) count) → P (idx + n * alignment) := by
  constructor
  · exact fun h n _ hn => h _ ⟨n, rfl, hn⟩
  · rintro h f ⟨n, rfl, hlt, hfree, hbefore⟩
    refine h n ?_ ⟨hlt, hfree, hbefore⟩
    rcases Nat.eq_zero_or_pos n with rfl | hpos
    · omega
    · have hal : 1 ≤ alignment := by
        by_contra hzero
        rw [Nat.eq_zero_of_not_pos hzero, Nat.mul_zero] at hfree
        exact hbefore 0 hpos (by rwa [Nat.zero_mul])
      have := Nat.le_mul_of_pos_right n hal
      omega

instance (m : Machine) (f count : Nat) : Decidable (m.Free f count) :=
  decidable_of_iff (∀ k, k < count → m.bit (f + k) = false)
    ⟨fun h j hlo hhi => by
        have hk := h (j - f) (by omega)
        rwa [Nat.add_sub_cancel' hlo] at hk,
      fun h k hk => h (f + k) (by omega) (by omega)⟩

instance (f count : Nat) : Decidable (Reachable f count) := inferInstanceAs (Decidable (_ ∧ _))

instance (m : Machine) (f : Nat) : Decidable (m.BitmapFrame f) :=
  inferInstanceAs (Decidable (_ ∧ _))

instance (s : PmmState) : ∀ op, Decidable (Room s op)
  | .alloc _ _ _ => decidable_of_iff' _ forall_firstFit
  | .free _ => isTrue trivial

theorem Machine.takeRange_bit_of_not_wipes {f count len : Nat}
    (h : ∀ j, j < len → ¬ m.Wipes f count j) (j : Nat) (hj : j < len) :
    (m.takeRange f count).bit j = if f ≤ j ∧ j < f + count then true else m.bit j := by
  have hno := h j hj
  rw [Machine.takeRange_bit]
  by_cases hword : 0x2000 ≤ f ∧ j / 32768 = f - 0x2000
  · -- what the word held was clear
    have hset : ¬ (m.bit j = true ∨ (f ≤ j ∧ j < f + count)) :=
      fun hset => hno ⟨hword.1, hword.2, hset⟩
    push Not at hset
    rw [if_pos hword, if_neg (by omega), Bool.eq_false_iff.mpr hset.1]
  · rw [if_neg hword]

structure PmmInv (s : PmmState) : Prop where
  len : s.machine.pmm_bitmap_len < 2 ^ 32
  total : s.machine.pmm_total_pages ≠ 0
  low : 0x2000 < s.machine.pmm_bitmap_len → ∀ j, j < 0x2000 → s.machine.bit j = true
  live : LiveOk s
  bounds : ∀ e ∈ s.live, 0x2000 ≤ e.first ∧ e.first < e.stop ∧ e.stop ≤ s.machine.pmm_bitmap_len

section Calls

variable {s s' : PmmState} {count alignment upper : U64}

theorem PmmInv.wrap (h : PmmInv s) (_ : 2 ^ 63 ≤ alignment.toNat) :
    0x2000 < s.machine.pmm_bitmap_len → ∀ j, j < 0x2000 → s.machine.bit j = true := h.low

variable {m' : Machine}

section

variable (h : PmmInv s)

include h

theorem PmmInv.alloc_cases (hclean : Clean s (.alloc count alignment upper))
    {p : U64}
    (hrun : pmm_alloc_ex count alignment upper s.machine = some (p, m')) :
    (p = 0 ∧ m' = s.machine
      ∧ NoFit s.machine count.toNat alignment.toNat (pmm_max_idx s.machine.pmm_bitmap_len upper) 0x2000)
    ∨ ∃ f, p = BitVec.ofNat 64 (4096 * f) ∧ p ≠ 0 ∧ p.toNat / 4096 = f
        ∧ m' = s.machine.takeRange f count.toNat ∧ 1 ≤ count.toNat
        ∧ 0x2000 ≤ f ∧ f + count.toNat ≤ s.machine.pmm_bitmap_len
        ∧ (∀ j, j < s.machine.pmm_bitmap_len → m'.bit j
            = if f ≤ j ∧ j < f + count.toNat then true else s.machine.bit j)
        ∧ FirstFit s.machine count.toNat alignment.toNat
            (pmm_max_idx s.machine.pmm_bitmap_len upper) 0x2000 f := by
  have hlen := h.len
  have hmax := pmm_max_idx_le s.machine.pmm_bitmap_len upper
  rcases pmm_alloc_ex_cases (by omega) h.wrap hrun with ⟨hp, hm, hno⟩ | ⟨f, rfl, rfl, hwin, hfit⟩
  · exact Or.inl ⟨hp, hm, hno⟩
  · have hlow : 0x2000 ≤ f := by
      obtain ⟨n, rfl, -⟩ := hfit
      omega
    have hnat := toNat_addr (f := f) (by have := hwin.1; omega)
    have hne := frame_ne_null hlow hwin.1
    obtain ⟨hstop, hkeep⟩ := hclean f hfit hwin
    have hbits := Machine.takeRange_bit_of_not_wipes hkeep
    have hcount : 1 ≤ count.toNat := by
      -- for no page at all, the frame of the bitmap would be cleared
      by_contra hzero
      obtain ⟨-, -, hlt, -⟩ := id hfit
      rw [Nat.eq_zero_of_not_pos hzero] at hfit
      have hf := hfit.of_zero
      exact hkeep 0 (by omega) ⟨hlow, by omega, Or.inl (h.low (by omega) 0 (by omega))⟩
    refine Or.inr ⟨f, rfl, hne, ?_, rfl, hcount, hlow, hstop, hbits, hfit⟩
    rw [hnat, Nat.mul_div_cancel_left f (by omega)]

theorem PmmInv.contract (hclean : Clean s (.alloc count alignment upper))
    {p : U64}
    (hrun : pmm_alloc_ex count alignment upper s.machine = some (p, m')) :
    AllocContract count alignment upper s.machine p m' := by
  have hlen := h.len
  rcases h.alloc_cases hclean hrun with
    ⟨rfl, rfl, hno⟩ | ⟨f, hp, hne, hf, rfl, -, hlow, hstop, hbits, hfit⟩
  · exact ⟨fun _ => ⟨rfl, hno⟩, fun h0 => absurd rfl h0, fun h0 => absurd rfl h0,
      fun h0 => absurd rfl h0⟩
  · have hfree : s.machine.Free f count.toNat := by
      obtain ⟨n, -, -, hfree, -⟩ := hfit
      exact hfree
    refine ⟨fun h0 => absurd h0 hne, fun _ => ⟨f, hp, hfit⟩, fun _ j hj => ?_, fun _ => ?_⟩
    · rw [hf]
      exact hbits j hj
    · have hreturns : ∃ m'', pmm_free p count (s.machine.takeRange f count.toNat)
          = some ((), m'') := by
        apply pmm_free_returns
        rw [hf, phys_window_eq]
        unfold PMM_MEMORY_BASE
        omega
      obtain ⟨m'', hm''⟩ := hreturns
      refine ⟨m'', hm'', ?_, ?_⟩
      · intro j hj
        rw [pmm_free_range hm'', hf, Machine.giveRange_bit]
        by_cases hin : f ≤ j ∧ j < f + count.toNat
        · rw [if_pos hin, hfree j hin.1 hin.2]
        · rw [if_neg hin, hbits j hj, if_neg hin]
      · rw [pmm_free_range hm'']
        show (s.machine.takeRange f count.toNat).pmm_free_pages + BitVec.ofNat 64 count.toNat = _
        rw [Machine.takeRange_free_pages, if_neg h.total, BitVec.sub_add_cancel]

theorem PmmInv.meets {op : PmmOp} (hclean : Clean s op) : Meets s op := by
  cases op with
  | free i => trivial
  | alloc count alignment upper =>
    intro hcount hal
    have hlen := h.len
    refine ⟨fun p m' hrun => h.contract hclean hrun, fun hsmall hpages => ?_⟩
    have hmax := pmm_max_idx_le s.machine.pmm_bitmap_len upper
    refine pmm_alloc_ex_returns (by omega) hal h.wrap ?_ ?_
    · rw [phys_window_eq]
      unfold PMM_MEMORY_BASE
      omega
    · rintro f ⟨n, -, hlt, -⟩
      omega

theorem PmmInv.fresh {f n : Nat} (hfree : s.machine.Free f n) (hn : 1 ≤ n)
    {e : Extent} (he : e ∈ s.live) : f + n ≤ e.first ∨ e.stop ≤ f := by
  by_contra hno
  have hbits := h.live.bits e he
  rcases Nat.lt_or_ge f e.first with hlt | hge
  · have hset := hbits e.first (Nat.le_refl _) (h.bounds e he).2.1
    rw [hfree e.first (by omega) (by omega)] at hset
    exact Bool.false_ne_true hset
  · have hset := hbits f hge (by omega)
    rw [hfree f (Nat.le_refl _) (by omega)] at hset
    exact Bool.false_ne_true hset

theorem PmmInv.alloc (hclean : Clean s (.alloc count alignment upper))
    {p : U64}
    (hrun : pmm_alloc_ex count alignment upper s.machine = some (p, m')) :
    PmmInv ⟨m', if p = 0 then s.live else ⟨p, count⟩ :: s.live⟩ := by
  -- on failure nothing changes; on success only bits of the new extent are set
  rcases h.alloc_cases hclean hrun with
    ⟨rfl, rfl, -⟩ | ⟨f, -, hne, hf, rfl, hcount, hlow, hstop, hbits, hfit⟩
  · exact h
  · obtain ⟨n, -, -, hfree, -⟩ := hfit
    have hvars := s.machine.takeRange_vars f count.toNat
    have hkeep : ∀ j, j < s.machine.pmm_bitmap_len → s.machine.bit j = true →
        (s.machine.takeRange f count.toNat).bit j = true := by
      intro j hj hbit
      rw [hbits j hj]
      split
      · rfl
      · exact hbit
    have hfirst : Extent.first ⟨p, count⟩ = f := hf
    have hlast : Extent.stop ⟨p, count⟩ = f + count.toNat := by
      unfold Extent.stop
      rw [hfirst]
    simp only [if_neg hne]
    refine ⟨?_, ?_, ?_, ⟨?_, ?_⟩, ?_⟩
    · rw [hvars.len]
      exact h.len
    · rw [hvars.total]
      exact h.total
    · intro hlt j hj
      rw [hvars.len] at hlt
      exact hkeep j (by omega) (h.low hlt j hj)
    · refine List.pairwise_cons.mpr ⟨fun e he => ?_, h.live.disjoint⟩
      unfold Extent.Disjoint
      rw [hfirst, hlast]
      exact h.fresh hfree hcount he
    · intro e he j hlo hhi
      rcases List.mem_cons.mp he with rfl | he
      · rw [hfirst] at hlo
        rw [hlast] at hhi
        rw [hbits j (by omega), if_pos ⟨hlo, hhi⟩]
      · have hle := (h.bounds e he).2.2
        exact hkeep j (by omega) (h.live.bits e he j hlo hhi)
    · intro e he
      rw [hvars.len]
      rcases List.mem_cons.mp he with rfl | he
      · rw [hfirst, hlast]
        exact ⟨hlow, by omega, hstop⟩
      · exact h.bounds e he

theorem PmmInv.alloc_step (hclean : Clean s (.alloc count alignment upper))
    (hs : pmmStep s (.alloc count alignment upper) = some s') : PmmInv s' := by
  simp only [pmmStep] at hs
  split at hs
  · obtain ⟨⟨p, m'⟩, hrun, rfl⟩ := Option.map_eq_some_iff.mp hs
    exact h.alloc hclean hrun
  · exact absurd hs nofun

theorem PmmInv.free_step {i : Nat} (hs : pmmStep s (.free i) = some s') :
    PmmInv s' := by
  obtain ⟨e, he, hs⟩ := Option.bind_eq_some_iff.mp hs
  obtain ⟨⟨_, m'⟩, hrun, rfl⟩ := Option.map_eq_some_iff.mp hs
  have hm' := pmm_free_range hrun
  subst hm'
  have hvars := s.machine.giveRange_vars (e.base.toNat / 4096) e.count.toNat
  obtain ⟨hi, rfl⟩ := List.getElem?_eq_some_iff.mp he
  have hmem := List.getElem_mem hi
  have hbits : ∀ j, ¬ (s.live[i].first ≤ j ∧ j < s.live[i].stop) →
      (s.machine.giveRange s.live[i].first s.live[i].count.toNat).bit j = s.machine.bit j := by
    intro j hj
    rw [Machine.giveRange_bit]
    exact if_neg hj
  have hsub : ∀ {e : Extent}, e ∈ s.live.eraseIdx i → e ∈ s.live :=
    fun he => (List.eraseIdx_sublist s.live i).subset he
  refine ⟨?_, ?_, ?_, ⟨?_, ?_⟩, ?_⟩
  · rw [hvars.len]
    exact h.len
  · rw [hvars.total]
    exact h.total
  · intro hlt j hj
    rw [hvars.len] at hlt
    have hge := (h.bounds _ hmem).1
    exact (hbits j (by omega)).trans (h.low hlt j hj)
  · exact h.live.disjoint.sublist (List.eraseIdx_sublist s.live i)
  · intro e' he' j hlo hhi
    -- the others are disjoint from the one that is freed
    have hdisj : Extent.Disjoint s.live[i] e' := by
      obtain ⟨k, hk, hne, rfl⟩ := List.mem_eraseIdx_iff_getElem.mp he'
      have hall := List.pairwise_iff_getElem.mp h.live.disjoint
      rcases Nat.lt_or_gt_of_ne hne with hlt | hgt
      · exact (hall k i hk hi hlt).symm
      · exact hall i k hi hk hgt
    refine (hbits j ?_).trans (h.live.bits e' (hsub he') j hlo hhi)
    unfold Extent.Disjoint at hdisj
    omega
  · intro e' he'
    rw [hvars.len]
    exact h.bounds e' (hsub he')

theorem PmmInv.step {op : PmmOp} (hclean : Clean s op)
    (hs : pmmStep s op = some s') : PmmInv s' := by
  cases op with
  | alloc count alignment upper => exact h.alloc_step hclean hs
  | free i => exact h.free_step hs

end

end Calls

/-! ## §3. From `pmm_init` on. -/

theorem PmmInv.of_total (h : pmm_init mmap m = some ((), m0)) (htotal : m0.pmm_total_pages ≠ 0) :
    PmmInv ⟨m0, []⟩ := by
  have hbound := @bitmapLen_lt mmap
  have hlen := (pmm_init_bit h).1
  refine ⟨?_, htotal, ?_, ⟨.nil, fun _ he => absurd he List.not_mem_nil⟩,
    fun _ he => absurd he List.not_mem_nil⟩
  · show m0.pmm_bitmap_len < _
    omega
  · intro hlt j hj
    have hlt' : 0x2000 < m0.pmm_bitmap_len := hlt
    exact pmm_init_low h (by omega) (Nat.le_of_lt hj)

theorem pmm_init_total_zero {u : Unit}
    (h : pmm_init mmap m = some (u, m0)) (htotal : m0.pmm_total_pages = 0) :
    m0.pmm_free_pages = 0 := by
  obtain ⟨t, p, ht, halloc, -⟩ := pmm_init_eq_some h
  have hvars : t.SameVars m0 ∧ (t.pmm_total_pages = 0 → m0.pmm_free_pages = t.pmm_free_pages) := by
    rcases ht.alloc halloc with ⟨-, rfl, -⟩ | ⟨f, -, -, rfl⟩
    · exact ⟨Machine.SameVars.refl _, fun _ => rfl⟩
    · refine ⟨t.takeRange_vars f _, fun h0 => ?_⟩
      rw [Machine.takeRange_free_pages, if_pos h0]
  have h0 : t.pmm_total_pages = 0 := hvars.1.total.symm.trans htotal
  rw [hvars.2 h0, ← ht.total, h0]

theorem PmmInv.init
    (h : pmm_init mmap m = some ((), m0)) (hfree : m0.pmm_free_pages ≠ 0) : PmmInv ⟨m0, []⟩ :=
  PmmInv.of_total h fun htotal => hfree (pmm_init_total_zero h htotal)

/-- **The contract of the frame allocator.**  After `pmm_init` with free pages left:
in every run whose calls are clean, every call keeps its contract, and live
allocations are disjoint and marked in every state. -/
theorem pmm_contract (mmap : List MmapEntry) (m m0 : Machine) (ops : List PmmOp)
    (hinit : pmm_init mmap m = some ((), m0)) (hfree : m0.pmm_free_pages ≠ 0)
    (hclean : Along pmmStep Clean ⟨m0, []⟩ ops) :
    Along pmmStep Meets ⟨m0, []⟩ ops ∧ Always pmmStep LiveOk ⟨m0, []⟩ ops := by
  have hinv := PmmInv.init hinit hfree
  constructor
  · exact Along.imp pmmStep PmmInv (fun _ _ h hclean => h.meets hclean)
      (fun _ _ _ h hclean hs => h.step hclean hs) ops _ hinv hclean
  · exact Along.always pmmStep PmmInv (fun _ h => h.live)
      (fun _ _ _ h hclean hs => h.step hclean hs) ops _ hinv hclean

theorem Room.along {step : PmmState → PmmOp → Option PmmState} {s : PmmState} {ops : List PmmOp}
    (h : Along step Room s ops) : Along step Clean s ops :=
  Along.imp step (fun _ => True) (fun _ _ _ h => h.clean) (fun _ _ _ _ _ _ => trivial) _ _ trivial h

/-- Two allocations, one of two frames, and a free. -/
def twoAllocs : List PmmOp := [.alloc 1 1 0, .alloc 2 1 0, .free 1]

theorem pmm_contract_two_allocs :
    ∃ m0 s, pmm_init oneRange (Machine.boot 0) = some ((), m0)
      ∧ run pmmStep ⟨m0, []⟩ twoAllocs = some s ∧ s.live = [⟨0x2003000, 2⟩]
      ∧ Along pmmStep Meets ⟨m0, []⟩ twoAllocs ∧ LiveOk s := by
  have hrun : ((pmm_init oneRange (Machine.boot 0)).map fun x =>
      (decide (x.2.pmm_free_pages ≠ 0), decide (Along pmmStep Room ⟨x.2, []⟩ twoAllocs),
        (run pmmStep ⟨x.2, []⟩ twoAllocs).map (·.live)))
        = some (true, true, some [⟨0x2003000, 2⟩]) := by
    decide +kernel
  obtain ⟨⟨_, m0⟩, hm0, hall⟩ := Option.map_eq_some_iff.mp hrun
  injection hall with hfree hall
  injection hall with hroom hlive
  obtain ⟨s, hs, hlive⟩ := Option.map_eq_some_iff.mp hlive
  obtain ⟨hmeets, hok⟩ := pmm_contract oneRange (Machine.boot 0) m0 twoAllocs hm0
    (of_decide_eq_true hfree) (Room.along (of_decide_eq_true hroom))
  exact ⟨m0, s, hm0, hs, hlive, hmeets, hok twoAllocs (List.prefix_refl _) s hs⟩

/-- The bitmap is one bit longer than two frames. -/
def strayWord : List MmapEntry :=
  [⟨0x2000000, 0x3000, 1⟩, ⟨0x2004000, 0x2000, 1⟩, ⟨0x10000000, 0x1000, 1⟩]

/-- The last word of the bitmap is in a frame that is free: when that frame is handed
out, the bit of a live allocation is lost. -/
theorem pmm_contract_wipes_bitmap :
    ∃ m0 s, pmm_init strayWord (Machine.boot 0) = some ((), m0) ∧ m0.pmm_free_pages = 2
      ∧ run pmmStep ⟨m0, []⟩ [.alloc 1 0xE000 0, .alloc 1 1 0] = some s
      ∧ s.live = [⟨0x2002000, 1⟩, ⟨0x10000000, 1⟩] ∧ s.machine.bit 0x10000 = false
      ∧ ¬ LiveOk s := by
  have hrun : ((pmm_init strayWord (Machine.boot 0)).map fun x => (x.2.pmm_free_pages,
      (run pmmStep ⟨x.2, []⟩ [.alloc 1 0xE000 0, .alloc 1 1 0]).map
        fun s => (s.live, s.machine.bit 0x10000)))
        = some (2, some ([⟨0x2002000, 1⟩, ⟨0x10000000, 1⟩], false)) := by
    decide +kernel
  obtain ⟨⟨_, m0⟩, hm0, hall⟩ := Option.map_eq_some_iff.mp hrun
  injection hall with hfree hall
  obtain ⟨s, hs, hall⟩ := Option.map_eq_some_iff.mp hall
  injection hall with hlive hbit
  refine ⟨m0, s, hm0, hfree, hs, hlive, hbit, fun hok => ?_⟩
  have hset := hok.bits ⟨0x10000000, 1⟩ (by rw [hlive]; simp) 0x10000 (by decide) (by decide)
  rw [hbit] at hset
  exact Bool.false_ne_true hset

end Quack.Arch
