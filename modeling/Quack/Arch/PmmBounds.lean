/-
  Quack.Arch.PmmBounds
  **WHERE `pmm_alloc_ex` LOOKS, AND WHAT IT HANDS OUT.**

  The allocator over primitives that log the index of every bit they read or
  write.  The search compares only the FIRST index of a candidate with the limit,
  and it starts at frame `0x2000` whatever the alignment is.

    • `pmm_alloc_ex_in_bounds` — when a call keeps to the bitmap, to `upper` and
      to the alignment.
-/
import Quack.Arch.PmmRuns
import Quack.Lib.Traced

namespace Quack.Arch

open Lib

/-! ## §1. The allocator with its accesses. -/

/-- What is done to a bit of the bitmap. -/
inductive BitEvent where
  | examined (idx : Nat)
  | written (idx : Nat)
  deriving Repr, DecidableEq

def BitEvent.idx : BitEvent → Nat
  | .examined idx => idx
  | .written idx => idx

/-- A program that logs its accesses to the bitmap. -/
abbrev BitProg (α : Type) := Traced BitEvent Machine α

namespace BitLog

def pmm_bit_read (idx : Nat) : BitProg Bool := do
  Traced.log (.examined idx)
  Traced.lift (Arch.pmm_bit_read idx)

def pmm_bit_write (idx : Nat) (bit : Bool) : Nat → BitProg Unit
  | 0 => pure ()
  | count + 1 => do
    Traced.log (.written idx)
    Traced.lift (Arch.pmm_bit_write idx bit 1)
    pmm_bit_write (idx + 1) bit count

def pmm_bitmap_is_free (idx : Nat) : Nat → BitProg Bool
  | 0 => pure true
  | count + 1 => do
    if ← pmm_bit_read idx then pure false
    else pmm_bitmap_is_free (idx + 1) count

def pmm_search (count alignment max_idx : Nat) : Nat → Nat → BitProg (Option Nat)
  | 0, idx => do
    Traced.lift (Prog.check (max_idx ≤ idx))
    pure none
  | fuel + 1, idx =>
    if idx < max_idx then do
      if ← pmm_bitmap_is_free idx count then pure (some idx)
      else pmm_search count alignment max_idx fuel ((idx + alignment) % 2 ^ 64)
    else pure none

/-- The search, and the bits of the range that it found. -/
def pmm_search_and_set (count alignment max_idx : Nat) : BitProg (Option Nat) := do
  match ← pmm_search count alignment max_idx
      (max_idx + PMM_MEMORY_BASE / PAGE_SIZE) (PMM_MEMORY_BASE / PAGE_SIZE) with
  | none => pure none
  | some idx => do
    pmm_bit_write idx true count
    pure (some idx)

def pmm_alloc_ex (count alignment upper : U64) : BitProg U64 := do
  let max_idx ← Traced.lift (Prog.read (fun m => pmm_max_idx m.pmm_bitmap_len upper))
  match ← pmm_search_and_set count.toNat alignment.toNat max_idx with
  | none => pure 0
  | some idx => Traced.lift (do
      Prog.update (fun m =>
        if m.pmm_total_pages = 0 then m
        else { m with pmm_free_pages := m.pmm_free_pages - count })
      memset_page (idx * PAGE_SIZE)
      pure (BitVec.ofNat 64 (idx * PAGE_SIZE)))

@[simp] theorem pmm_bit_read_plain (idx : Nat) :
    (pmm_bit_read idx).plain = Arch.pmm_bit_read idx := by
  simp [pmm_bit_read]

@[simp] theorem pmm_bit_write_plain (bit : Bool) :
    ∀ count idx,
      (pmm_bit_write idx bit count).plain = Arch.pmm_bit_write idx bit count := by
  intro count
  induction count with
  | zero => exact fun idx => rfl
  | succ count ih =>
    intro idx
    simp [pmm_bit_write, Arch.pmm_bit_write, ih]

@[simp] theorem pmm_bitmap_is_free_plain :
    ∀ count idx,
      (pmm_bitmap_is_free idx count).plain = Arch.pmm_bitmap_is_free idx count := by
  intro count
  induction count with
  | zero => exact fun idx => rfl
  | succ count ih =>
    intro idx
    simp [pmm_bitmap_is_free, Arch.pmm_bitmap_is_free, ih]

@[simp] theorem pmm_search_plain (count alignment max_idx : Nat) (fuel idx : Nat) :
    (pmm_search count alignment max_idx fuel idx).plain
      = Arch.pmm_search count alignment max_idx fuel idx := by
  induction fuel generalizing idx with
  | zero =>
    simp [pmm_search, Arch.pmm_search]
  | succ fuel ih =>
    simp [pmm_search, Arch.pmm_search, ih]

theorem pmm_alloc_ex_plain (count alignment upper : U64) :
    (pmm_alloc_ex count alignment upper).plain = Arch.pmm_alloc_ex count alignment upper := by
  unfold pmm_alloc_ex pmm_search_and_set Arch.pmm_alloc_ex
  simp only [Traced.plain_bind, Traced.plain_lift, pmm_search_plain, bind_assoc]
  refine bind_congr fun max_idx => bind_congr fun o => ?_
  cases o with
  | none => rfl
  | some idx =>
    simp only [Traced.plain_bind, Traced.plain_pure, Traced.plain_lift, pmm_bit_write_plain,
      bind_assoc, pure_bind]

end BitLog

/-! ## §2. The bits a search looks at. -/

def Machine.Stays (m : Machine) (len idx count : Nat) : Prop :=
  idx + count ≤ len ∨ ∃ j, idx ≤ j ∧ j < len ∧ m.bit j = true

/-- So does the scan of every candidate up to the first fit. -/
def SearchStays (m : Machine) (len count alignment max_idx idx : Nat) : Prop :=
  ∀ n, idx + n * alignment < max_idx → (∀ i, i < n → ¬ m.Free (idx + i * alignment) count) →
    m.Stays len (idx + n * alignment) count

/-- Every event is about a bit below `len`. -/
def bitsBelow (len : Nat) : Traced.Monitor BitEvent Unit := Traced.Monitor.all (·.idx < len)

section Scan

variable {m : Machine} {len count alignment max_idx idx : Nat}

theorem bit_window (hlen : len ≤ 2 ^ 32) (hidx : idx < len) :
    PMM_MEMORY_BASE + 8 * (idx / 64) < phys_window := by
  rw [phys_window_eq]
  unfold PMM_MEMORY_BASE
  omega

theorem Machine.Stays.add_le (h : m.Stays len idx count) (hfree : m.Free idx count) :
    idx + count ≤ len := by
  rcases h with h | ⟨j, hlo, hhi, hbit⟩
  · exact h
  · -- the set bit is behind the range
    by_contra hgt
    rw [hfree j hlo (by omega)] at hbit
    exact Bool.false_ne_true hbit

theorem Machine.stays_succ (hidx : idx < len) :
    m.Stays len idx (count + 1) ↔ m.bit idx = true ∨ m.Stays len (idx + 1) count := by
  unfold Machine.Stays
  constructor
  · rintro (hle | ⟨j, hlo, hhi, hbit⟩)
    · exact Or.inr (Or.inl (by omega))
    · rcases Nat.eq_or_lt_of_le hlo with rfl | hlt
      · exact Or.inl hbit
      · exact Or.inr (Or.inr ⟨j, hlt, hhi, hbit⟩)
  · rintro (hbit | hle | ⟨j, hlo, hhi, hbit⟩)
    · exact Or.inr ⟨idx, Nat.le_refl _, hidx, hbit⟩
    · exact Or.inl (by omega)
    · exact Or.inr ⟨j, by omega, hhi, hbit⟩

theorem pmm_bit_read_keeps (hlen : len ≤ 2 ^ 32) (hidx : idx < len) :
    Traced.Keeps (bitsBelow len) (BitLog.pmm_bit_read idx) () m True
      (fun _ b t => b = m.bit idx ∧ t = m) :=
  Traced.Keeps.access hidx (pmm_bit_read_eq_some.mpr ⟨bit_window hlen hidx, rfl, rfl⟩) ⟨rfl, rfl⟩

theorem pmm_bitmap_is_free_keeps (hlen : len ≤ 2 ^ 32) (count idx : Nat) (hidx : idx ≤ len) :
    Traced.Keeps (bitsBelow len) (BitLog.pmm_bitmap_is_free idx count) () m
      (m.Stays len idx count) (fun _ b t => (b = true ↔ m.Free idx count) ∧ t = m) := by
  induction count generalizing idx with
  | zero =>
    refine (Traced.Keeps.pure ?_).mono (iff_of_true trivial (Or.inl hidx)) (fun _ _ _ h => h)
    refine ⟨iff_of_true rfl fun j hlo hhi => ?_, rfl⟩
    omega
  | succ count ih =>
    rcases Nat.eq_or_lt_of_le hidx with rfl | hlt
    · -- the first bit is past the end already
      have hend : ¬ (bitsBelow idx).ok () (.examined idx) := Nat.lt_irrefl idx
      have hread : Traced.Keeps (bitsBelow idx) (BitLog.pmm_bit_read idx) () m False
          (fun _ _ _ => False) := Traced.Keeps.never hend _
      refine Traced.Keeps.mono (c := False ∧ True) (hread.bind (fun _ _ _ h => h.elim)) ?_
        (fun _ _ _ h => h)
      refine iff_of_false And.left ?_
      rintro (hle | ⟨j, hlo, hhi, -⟩) <;> omega
    · rw [Machine.stays_succ hlt]
      refine Traced.Keeps.andThen (pmm_bit_read_keeps hlen hlt) ?_
      rintro _ b t ⟨rfl, rfl⟩
      cases hbit : t.bit idx with
      | true =>
        refine (Traced.Keeps.pure ⟨?_, rfl⟩).mono (by simp) (fun _ _ _ h => h)
        refine iff_of_false Bool.false_ne_true fun hfree => ?_
        rw [hfree idx (Nat.le_refl _) (by omega)] at hbit
        exact Bool.false_ne_true hbit
      | false =>
        refine (ih (idx + 1) hlt).mono (by simp) ?_
        rintro _ b u ⟨hiff, rfl⟩
        refine ⟨hiff.trans ⟨fun hfree j hlo hhi => ?_, fun hfree j hlo hhi => ?_⟩, rfl⟩
        · rcases Nat.eq_or_lt_of_le hlo with rfl | hgt
          · exact hbit
          · exact hfree j hgt (by omega)
        · exact hfree j (by omega) (by omega)

theorem pmm_bit_write_keeps (hlen : len ≤ 2 ^ 32) (b : Bool) :
    ∀ count idx m, idx + count ≤ len →
      Traced.Keeps (bitsBelow len) (BitLog.pmm_bit_write idx b count) () m True
        (fun _ _ _ => True) := by
  intro count
  induction count with
  | zero => exact fun idx m _ => Traced.Keeps.pure trivial
  | succ count ih =>
    intro idx m hle
    have hidx : idx < len := by omega
    have hlog : Traced.Keeps (bitsBelow len) (Traced.log (.written idx)) () m True
        (fun _ _ t => t = m) := Traced.Keeps.log (iff_true_intro hidx) rfl
    refine hlog.andThen ?_
    rintro _ _ t rfl
    refine Traced.Keeps.andThen (Traced.Keeps.lift (Q := fun _ _ _ => True)
      (pmm_bit_write_one (u := ()).mpr ⟨bit_window hlen hidx, rfl⟩) trivial) ?_
    exact fun _ _ t _ => ih (idx + 1) t (by omega)

theorem SearchStays.of_le (h : max_idx ≤ idx) : SearchStays m len count alignment max_idx idx := by
  intro n hlt
  omega

theorem searchStays_step (hlt : idx < max_idx) :
    SearchStays m len count alignment max_idx idx
      ↔ m.Stays len idx count
        ∧ (m.Free idx count ∨ SearchStays m len count alignment max_idx (idx + alignment)) := by
  have hnext : ∀ n, idx + (n + 1) * alignment = idx + alignment + n * alignment := by
    intro n
    rw [Nat.succ_mul]
    omega
  constructor
  · intro h
    refine ⟨by simpa using h 0 (by simpa using hlt) (fun i hi => absurd hi (Nat.not_lt_zero i)), ?_⟩
    by_cases hfree : m.Free idx count
    · exact Or.inl hfree
    · refine Or.inr fun n hn hbefore => ?_
      rw [← hnext]
      refine h (n + 1) (by rw [hnext]; exact hn) fun i hi => ?_
      cases i with
      | zero => simpa using hfree
      | succ i =>
        rw [hnext]
        exact hbefore i (by omega)
  · rintro ⟨hstays, hrest⟩ n hn hbefore
    cases n with
    | zero => simpa using hstays
    | succ n =>
      have hno := hbefore 0 (by omega)
      rw [Nat.zero_mul, Nat.add_zero] at hno
      rw [hnext] at hn ⊢
      refine hrest.resolve_left hno n hn fun i hi => ?_
      rw [← hnext]
      exact hbefore (i + 1) (by omega)

theorem pmm_search_past (hle : max_idx ≤ idx) (fuel : Nat) :
    Traced.Keeps (bitsBelow len) (BitLog.pmm_search count alignment max_idx fuel idx) () m True
      (fun _ o t => o = none ∧ t = m) := by
  cases fuel with
  | zero =>
    refine Traced.Keeps.andThen (Traced.Keeps.lift (Q := fun _ _ t => t = m)
      (Prog.check_apply hle m) rfl) ?_
    rintro _ _ t rfl
    exact Traced.Keeps.pure ⟨rfl, rfl⟩
  | succ fuel =>
    unfold BitLog.pmm_search
    rw [if_neg (by omega)]
    exact Traced.Keeps.pure ⟨rfl, rfl⟩

/-- What a search promises: it finds a range of the bitmap, or nothing. -/
def Finds (len count : Nat) (m : Machine) (_ : Unit) (o : Option Nat) (t : Machine) : Prop :=
  (∀ f, o = some f → f + count ≤ len) ∧ t = m

theorem Finds.nothing {g : Unit} {o : Option Nat} {t : Machine} (h : o = none ∧ t = m) :
    Finds len count m g o t := by
  obtain ⟨rfl, rfl⟩ := h
  exact ⟨by simp, rfl⟩

section

variable (hlen : len ≤ 2 ^ 32) (hmax : max_idx ≤ len)

include hlen hmax

theorem pmm_search_keeps (hal : 1 ≤ alignment)
    (hal' : alignment < 2 ^ 63) :
    ∀ fuel idx, max_idx ≤ idx + fuel →
      Traced.Keeps (bitsBelow len) (BitLog.pmm_search count alignment max_idx fuel idx) () m
        (SearchStays m len count alignment max_idx idx) (Finds len count m) := by
  have hpast : ∀ fuel idx, max_idx ≤ idx →
      Traced.Keeps (bitsBelow len) (BitLog.pmm_search count alignment max_idx fuel idx) () m
        (SearchStays m len count alignment max_idx idx) (Finds len count m) := by
    intro fuel idx hle
    exact (pmm_search_past hle fuel).mono (iff_of_true trivial (SearchStays.of_le hle))
      (fun _ _ _ h => Finds.nothing h)
  intro fuel
  induction fuel with
  | zero => exact fun idx hle => hpast 0 idx hle
  | succ fuel ih =>
    intro idx hle
    by_cases hlt : idx < max_idx
    · unfold BitLog.pmm_search
      rw [if_pos hlt, searchStays_step hlt]
      refine (pmm_bitmap_is_free_keeps hlen count idx (by omega)).result.bind ?_
      rintro _ b t ⟨⟨hiff, rfl⟩, hstays, -⟩
      cases b with
      | true =>
        have hfree := hiff.mp rfl
        refine (Traced.Keeps.pure ⟨?_, rfl⟩).mono (by simp [hfree]) (fun _ _ _ h => h)
        intro f hf
        injection hf with hf
        subst hf
        exact hstays.add_le hfree
      | false =>
        have hno : ¬ t.Free idx count := fun hf => Bool.false_ne_true (hiff.mpr hf)
        have hnext : (idx + alignment) % 2 ^ 64 = idx + alignment :=
          Nat.mod_eq_of_lt (by omega)
        simp only [Bool.false_eq_true, if_false, hnext]
        exact (ih (idx + alignment) (by omega)).mono (by simp [hno]) (fun _ _ _ h => h)
    · exact hpast (fuel + 1) idx (by omega)

theorem pmm_search_down_keeps
    (hal : 2 ^ 63 ≤ alignment) (hal' : alignment < 2 ^ 64) (hcount : 1 ≤ count)
    (hlow : ∀ j, j ≤ 0x2000 → m.bit j = true) :
    ∀ fuel idx, (idx < fuel ∧ idx ≤ 0x2000) ∨ max_idx ≤ idx →
      Traced.Keeps (bitsBelow len) (BitLog.pmm_search count alignment max_idx fuel idx) () m True
        (fun _ o t => o = none ∧ t = m) := by
  intro fuel
  induction fuel with
  | zero => exact fun idx hidx => pmm_search_past (by omega) 0
  | succ fuel ih =>
    intro idx hidx
    by_cases hlt : idx < max_idx
    · have hbit := hlow idx (by omega)
      have hstays : m.Stays len idx count := Or.inr ⟨idx, Nat.le_refl _, by omega, hbit⟩
      unfold BitLog.pmm_search
      rw [if_pos hlt]
      refine Traced.Keeps.andThen ((pmm_bitmap_is_free_keeps hlen count idx (by omega)).mono
        (iff_true_intro hstays) (fun _ _ _ h => h)) ?_
      rintro _ b t ⟨hiff, rfl⟩
      have hb : b = false := by
        cases b with
        | false => rfl
        | true =>
          rw [hiff.mp rfl idx (Nat.le_refl _) (by omega)] at hbit
          exact absurd hbit Bool.false_ne_true
      subst hb
      exact ih _ (by omega)
    · exact pmm_search_past (by omega) (fuel + 1)

theorem pmm_search_any_keeps (hal : 1 ≤ alignment)
    (hal' : alignment < 2 ^ 64) (hcount : 1 ≤ count)
    (hlow : 0x2000 < len → ∀ j, j ≤ 0x2000 → m.bit j = true) :
    Traced.Keeps (bitsBelow len)
      (BitLog.pmm_search count alignment max_idx (max_idx + 0x2000) 0x2000) () m
      (SearchStays m len count alignment max_idx 0x2000) (Finds len count m) := by
  by_cases hsmall : alignment < 2 ^ 63
  · exact pmm_search_keeps hlen hmax hal hsmall _ _ (by omega)
  · by_cases hlt : 0x2000 < max_idx
    · -- the first candidate is given up at its first bit, and the next ones step down
      have hset := hlow (by omega)
      have hfirst : m.Stays len 0x2000 count :=
        Or.inr ⟨0x2000, Nat.le_refl _, by omega, hset _ (Nat.le_refl _)⟩
      have hstays : SearchStays m len count alignment max_idx 0x2000 :=
        (searchStays_step hlt).mpr ⟨hfirst, Or.inr (SearchStays.of_le (by omega))⟩
      exact (pmm_search_down_keeps hlen hmax (by omega) hal' hcount hset _ _
        (Or.inl (by omega))).mono (iff_of_true trivial hstays) (fun _ _ _ h => Finds.nothing h)
    · have hle : max_idx ≤ 0x2000 := by omega
      exact (pmm_search_past hle _).mono (iff_of_true trivial (SearchStays.of_le hle))
        (fun _ _ _ h => Finds.nothing h)

end

end Scan

theorem pmm_alloc_ex_log {m : Machine} {count alignment upper : U64}
    (hlen : m.pmm_bitmap_len < 2 ^ 32) (hcount : 1 ≤ count.toNat) (hal : 1 ≤ alignment.toNat)
    (hlow : 0x2000 < m.pmm_bitmap_len → ∀ j, j ≤ 0x2000 → m.bit j = true) :
    (∀ e ∈ (BitLog.pmm_alloc_ex count alignment upper m).1, e.idx < m.pmm_bitmap_len)
      ↔ SearchStays m m.pmm_bitmap_len count.toNat alignment.toNat
          (pmm_max_idx m.pmm_bitmap_len upper) 0x2000 := by
  have hmax := pmm_max_idx_le m.pmm_bitmap_len upper
  have hbase : PMM_MEMORY_BASE / PAGE_SIZE = 0x2000 := rfl
  -- the log is that of the search and the writes
  have hlog : (BitLog.pmm_alloc_ex count alignment upper m).1
      = (BitLog.pmm_search_and_set count.toNat alignment.toNat
          (pmm_max_idx m.pmm_bitmap_len upper) m).1 := by
    unfold BitLog.pmm_alloc_ex
    rw [Traced.bind_of_some (x := Traced.lift _) rfl]
    cases hx : (BitLog.pmm_search_and_set count.toNat alignment.toNat
        (pmm_max_idx m.pmm_bitmap_len upper) m).2 with
    | none =>
      rw [Traced.bind_of_none hx]
      rfl
    | some r =>
      obtain ⟨o, t⟩ := r
      rw [Traced.bind_of_some hx]
      cases o with
      | none => exact List.append_nil _
      | some f => exact List.append_nil _
  have hsearch := pmm_search_any_keeps (m := m) (Nat.le_of_lt hlen) hmax hal alignment.isLt hcount
    hlow
  rw [hlog]
  refine Traced.Keeps.all_iff (Q := fun _ _ _ => True) ?_
  unfold BitLog.pmm_search_and_set
  rw [hbase]
  refine hsearch.seq ?_
  rintro _ o t ⟨hfit, rfl⟩
  cases o with
  | none => exact Traced.Keeps.pure trivial
  | some f =>
    exact (pmm_bit_write_keeps (by omega) true _ f t (hfit f rfl)).andThen
      (fun _ _ _ _ => Traced.Keeps.pure trivial)

/-! ## §3. What every run keeps. -/

/-- The frames up to the first one of the bitmap are never free, and never handed
out. -/
structure BaseKept (s : PmmState) : Prop where
  len : s.machine.pmm_bitmap_len < 2 ^ 32
  low : 0x2000 < s.machine.pmm_bitmap_len → ∀ j, j ≤ 0x2000 → s.machine.bit j = true
  live : ∀ e ∈ s.live, 0x2000 < e.first

theorem BaseKept.init {mmap : List MmapEntry} {m m0 : Machine}
    (h : pmm_init mmap m = some ((), m0)) : BaseKept ⟨m0, []⟩ := by
  have hlen : m0.pmm_bitmap_len = bitmapLen mmap := (pmm_init_bit h).1
  refine ⟨?_, ?_, fun _ he => absurd he List.not_mem_nil⟩
  · show m0.pmm_bitmap_len < _
    rw [hlen]
    exact bitmapLen_lt
  · intro hlt j hj
    exact pmm_init_low h (hlen ▸ hlt) hj

section Base

variable {s s' : PmmState} {count alignment upper : U64}

theorem BaseKept.alloc_cases (h : BaseKept s) (hcount : 1 ≤ count.toNat) {p : U64} {m' : Machine}
    (hrun : pmm_alloc_ex count alignment upper s.machine = some (p, m')) :
    (p = 0 ∧ m' = s.machine ∧ NoFit s.machine count.toNat alignment.toNat
      (pmm_max_idx s.machine.pmm_bitmap_len upper) 0x2000)
    ∨ ∃ f, p.toNat = 4096 * f ∧ p ≠ 0 ∧ m' = s.machine.takeRange f count.toNat ∧ 0x2000 < f
        ∧ f < 2 ^ 20 ∧ FirstFit s.machine count.toNat alignment.toNat
            (pmm_max_idx s.machine.pmm_bitmap_len upper) 0x2000 f := by
  have hlen := h.len
  have hmax := pmm_max_idx_le s.machine.pmm_bitmap_len upper
  rcases pmm_alloc_ex_cases (by omega)
      (fun _ hlt j hj => h.low hlt j (Nat.le_of_lt hj)) hrun with
    hnone | ⟨f, rfl, rfl, hwin, hfit⟩
  · exact Or.inl hnone
  · have hlow : 0x2000 < f := by
      obtain ⟨n, hf, hlt, hfree, -⟩ := hfit
      -- frame `0x2000` is in use
      rcases Nat.eq_or_lt_of_le (show 0x2000 ≤ f by omega) with heq | hgt
      · have hbit := h.low (by omega) f (by omega)
        rw [hfree f (Nat.le_refl _) (by omega)] at hbit
        exact absurd hbit Bool.false_ne_true
      · exact hgt
    have hf := hwin.1
    exact Or.inr ⟨f, toNat_addr (by omega), frame_ne_null (by omega) hwin.1, rfl, hlow, hwin.1, hfit⟩

theorem BaseKept.step {op : PmmOp} (h : BaseKept s) (hs : pmmStep s op = some s') : BaseKept s' := by
  cases op with
  | alloc count alignment upper =>
    simp only [pmmStep] at hs
    split at hs
    · next hpos =>
        obtain ⟨⟨p, m'⟩, hrun, rfl⟩ := Option.map_eq_some_iff.mp hs
        rcases h.alloc_cases hpos.1 hrun with ⟨rfl, rfl, -⟩ | ⟨f, hp, hne, rfl, hlow, -, -⟩
        · exact h
        · have hvars := s.machine.takeRange_vars f count.toNat
          simp only [if_neg hne]
          refine ⟨?_, ?_, ?_⟩
          · rw [hvars.len]
            exact h.len
          · intro hlt j hj
            rw [hvars.len] at hlt
            rw [Machine.takeRange_bit, if_neg (by omega), if_neg (by omega)]
            exact h.low hlt j hj
          · intro e he
            rcases List.mem_cons.mp he with rfl | he
            · show 0x2000 < p.toNat / 4096
              omega
            · exact h.live e he
    · cases hs
  | free i =>
    obtain ⟨e, he, hs⟩ := Option.bind_eq_some_iff.mp hs
    obtain ⟨⟨_, m'⟩, hrun, rfl⟩ := Option.map_eq_some_iff.mp hs
    have hm' := pmm_free_range hrun
    subst hm'
    have hvars := s.machine.giveRange_vars (e.base.toNat / 4096) e.count.toNat
    have hfirst : 0x2000 < e.base.toNat / 4096 := h.live e (List.mem_of_getElem? he)
    refine ⟨?_, ?_, ?_⟩
    · rw [hvars.len]
      exact h.len
    · intro hlt j hj
      rw [hvars.len] at hlt
      rw [Machine.giveRange_bit, if_neg (by omega)]
      exact h.low hlt j hj
    · exact fun e' he' => h.live e' ((List.eraseIdx_sublist s.live i).subset he')

theorem BaseKept.reached {mmap : List MmapEntry} {m m0 : Machine} {ops : List PmmOp}
    (hinit : pmm_init mmap m = some ((), m0)) (hrun : run pmmStep ⟨m0, []⟩ ops = some s) :
    BaseKept s :=
  run_invariant pmmStep BaseKept (fun _ _ _ h hs => h.step hs) ops _ s (BaseKept.init hinit) hrun

end Base

/-! ## §4. Range and alignment. -/

/-- The call keeps to the bitmap, to `upper` and to the alignment. -/
structure InBounds (count alignment upper : U64) (m : Machine) : Prop where
  aligned : ∀ p m', pmm_alloc_ex count alignment upper m = some (p, m') → p ≠ 0 →
    alignment.toNat * 4096 ∣ p.toNat
  below : ∀ p m', pmm_alloc_ex count alignment upper m = some (p, m') → p ≠ 0 →
    p.toNat + 4096 * count.toNat ≤ 4096 * m.pmm_bitmap_len
  below_upper : ∀ p m', pmm_alloc_ex count alignment upper m = some (p, m') → p ≠ 0 →
    upper ≠ 0 → p.toNat + 4096 * count.toNat ≤ upper.toNat
  /-- Every bit that is examined or set. -/
  bits : ∀ e ∈ (BitLog.pmm_alloc_ex count alignment upper m).1, e.idx < m.pmm_bitmap_len

/-- What the state and the arguments must be like. -/
structure BoundsMet (count alignment upper : U64) (m : Machine) : Prop where
  /-- The scan of no candidate runs over the end of the bitmap. -/
  scans : SearchStays m m.pmm_bitmap_len count.toNat alignment.toNat
    (pmm_max_idx m.pmm_bitmap_len upper) 0x2000
  /-- The range that is found, unless its first frame cannot be cleared, ends before
  `upper`, and the alignment divides the frame the search starts from. -/
  found : ∀ f, FirstFit m count.toNat alignment.toNat (pmm_max_idx m.pmm_bitmap_len upper) 0x2000 f →
    f < 2 ^ 20 → alignment.toNat ∣ 0x2000 ∧ f + count.toNat ≤ pmm_max_idx m.pmm_bitmap_len upper

section Bounds

variable {m : Machine} {count alignment upper : U64}

theorem le_pmm_max_idx {n : Nat} :
    n ≤ pmm_max_idx m.pmm_bitmap_len upper
      ↔ n ≤ m.pmm_bitmap_len ∧ (upper ≠ 0 → 4096 * n ≤ upper.toNat) := by
  unfold pmm_max_idx PAGE_SIZE
  split
  · next h0 => simp [h0]
  · next hne =>
      rw [Nat.le_min, Nat.le_div_iff_mul_le (by omega), Nat.mul_comm]
      exact and_congr_right fun _ => ⟨fun h _ => h, fun h => h hne⟩

theorem FirstFit.dvd_iff {a c max_idx f : Nat} (h : FirstFit m c a max_idx 0x2000 f) :
    a ∣ f ↔ a ∣ 0x2000 := by
  obtain ⟨n, rfl, -⟩ := h
  exact Nat.dvd_add_left (Nat.dvd_mul_left a n)

end Bounds

/-- **Range and alignment of `pmm_alloc_ex`.**  In every state that is reached after
`pmm_init`, and for every call: the result keeps to the alignment, to the bitmap and
to `upper`, and only bits of the bitmap are touched, exactly if `BoundsMet`. -/
theorem pmm_alloc_ex_in_bounds (mmap : List MmapEntry) (m m0 : Machine)
    (hinit : pmm_init mmap m = some ((), m0)) (ops : List PmmOp) (s : PmmState)
    (hrun : run pmmStep ⟨m0, []⟩ ops = some s) (count alignment upper : U64)
    (hcount : 1 ≤ count.toNat) (hal : 1 ≤ alignment.toNat) :
    InBounds count alignment upper s.machine ↔ BoundsMet count alignment upper s.machine := by
  have hbase := BaseKept.reached hinit hrun
  have hlog : _ ↔ SearchStays _ _ _ _ (pmm_max_idx s.machine.pmm_bitmap_len upper) _ :=
    pmm_alloc_ex_log hbase.len hcount hal hbase.low
  constructor
  · intro h
    have hscans := hlog.mp h.bits
    refine ⟨hscans, fun f hfit hf => ?_⟩
    have hlen := hbase.len
    -- its scan ends in the bitmap
    obtain ⟨n, rfl, hlt, hfree, hbefore⟩ := id hfit
    have hstop := (hscans n hlt hbefore).add_le hfree
    generalize 0x2000 + n * alignment.toNat = f at *
    obtain ⟨m', hm'⟩ := pmm_alloc_ex_of_fit (by omega) hfit ⟨hf, by
      rw [phys_window_eq]
      unfold PMM_MEMORY_BASE
      omega⟩
    rw [Nat.mul_comm f, show PAGE_SIZE = 4096 from rfl] at hm'
    have hnat := toNat_addr (f := f) (by omega)
    have hne : BitVec.ofNat 64 (4096 * f) ≠ 0 := by
      obtain ⟨n, hn, -⟩ := id hfit
      exact frame_ne_null (by omega) hf
    have haligned := h.aligned _ _ hm' hne
    have hbelow := h.below _ _ hm' hne
    have hupper := h.below_upper _ _ hm' hne
    rw [hnat] at haligned hbelow hupper
    rw [Nat.mul_comm alignment.toNat, Nat.mul_dvd_mul_iff_left (by omega)] at haligned
    refine ⟨hfit.dvd_iff.mp haligned, le_pmm_max_idx.mpr ⟨by omega, fun hu => ?_⟩⟩
    have := hupper hu
    omega
  · intro h
    -- what a result is
    have hres : ∀ p m', pmm_alloc_ex count alignment upper s.machine = some (p, m') → p ≠ 0 →
        ∃ f, p.toNat = 4096 * f ∧ alignment.toNat ∣ f
          ∧ f + count.toNat ≤ pmm_max_idx s.machine.pmm_bitmap_len upper := by
      intro p m' hp hne
      rcases hbase.alloc_cases hcount hp with ⟨h0, -⟩ | ⟨f, hnat, -, -, -, hwin, hfit⟩
      · exact absurd h0 hne
      · obtain ⟨hdvd, hstop⟩ := h.found f hfit hwin
        exact ⟨f, hnat, hfit.dvd_iff.mpr hdvd, hstop⟩
    refine ⟨fun p m' hp hne => ?_, fun p m' hp hne => ?_, fun p m' hp hne hu => ?_,
      hlog.mpr h.scans⟩
    · obtain ⟨f, hnat, hdvd, -⟩ := hres p m' hp hne
      rw [hnat, Nat.mul_comm alignment.toNat]
      exact Nat.mul_dvd_mul_left 4096 hdvd
    · obtain ⟨f, hnat, -, hstop⟩ := hres p m' hp hne
      have := (le_pmm_max_idx.mp hstop).1
      omega
    · obtain ⟨f, hnat, -, hstop⟩ := hres p m' hp hne
      have := (le_pmm_max_idx.mp hstop).2 hu
      omega

theorem BoundsMet.of_dvd {m : Machine} {count alignment upper : U64}
    (hcount : count.toNat ≤ alignment.toNat) (hdvd : alignment.toNat ∣ 0x2000)
    (hlimit : alignment.toNat ∣ pmm_max_idx m.pmm_bitmap_len upper) :
    BoundsMet count alignment upper m := by
  have hmax := pmm_max_idx_le m.pmm_bitmap_len upper
  have hstop : ∀ n, 0x2000 + n * alignment.toNat < pmm_max_idx m.pmm_bitmap_len upper →
      0x2000 + n * alignment.toNat + count.toNat ≤ pmm_max_idx m.pmm_bitmap_len upper := by
    intro n hlt
    obtain ⟨a, ha⟩ := Nat.dvd_add hdvd (Nat.dvd_mul_left alignment.toNat n)
    obtain ⟨b, hb⟩ := hlimit
    rw [ha, hb] at hlt
    have hle := Nat.mul_le_mul_left alignment.toNat (Nat.lt_of_mul_lt_mul_left hlt)
    rw [Nat.mul_succ] at hle
    omega
  constructor
  · exact fun n hlt _ => Or.inl ((hstop n hlt).trans hmax)
  · rintro f ⟨n, rfl, hlt, -⟩ -
    exact ⟨hdvd, hstop n hlt⟩

/-- Two frames, after another call. -/
theorem pmm_alloc_ex_in_bounds_two_frames :
    ∃ m0 s, pmm_init oneRange (Machine.boot 0) = some ((), m0)
      ∧ run pmmStep ⟨m0, []⟩ [.alloc 1 1 0] = some s
      ∧ (pmm_alloc_ex 2 2 0x2006000 s.machine).map Prod.fst = some 0x2004000
      ∧ InBounds 2 2 0x2006000 s.machine := by
  have hrun : (pmm_init oneRange (Machine.boot 0)).map (fun x =>
      (run pmmStep ⟨x.2, []⟩ [.alloc 1 1 0]).map fun s => (s.machine.pmm_bitmap_len,
        (pmm_alloc_ex 2 2 0x2006000 s.machine).map Prod.fst)) = some (some (0x2008, some 0x2004000)) := by
    decide +kernel
  obtain ⟨⟨_, m0⟩, hm0, hall⟩ := Option.map_eq_some_iff.mp hrun
  obtain ⟨s, hs, hall⟩ := Option.map_eq_some_iff.mp hall
  injection hall with hlen hfirst
  refine ⟨m0, s, hm0, hs, hfirst, (pmm_alloc_ex_in_bounds oneRange (Machine.boot 0) m0 hm0 _ s hs 2 2
    0x2006000 (by decide) (by decide)).mpr (BoundsMet.of_dvd (by decide) (by decide) ?_)⟩
  rw [hlen]
  decide

/-- The last frame of the bitmap is free. -/
def freeAtEnd : List MmapEntry := [⟨0x2000000, 0x8000, 1⟩, ⟨0x2008000, 0x1000, 1⟩]

/-- Two frames from the last one on; one frame at a multiple of three; and two frames
below a limit that only the first one is below. -/
theorem pmm_alloc_ex_out_of_bounds :
    ∃ m0, pmm_init freeAtEnd (Machine.boot 0) = some ((), m0) ∧ m0.pmm_bitmap_len = 0x2009
      ∧ (pmm_alloc_ex 2 8 0 m0).map Prod.fst = some 0x2008000 ∧ ¬ InBounds 2 8 0 m0
      ∧ (pmm_alloc_ex 1 3 0 m0).map Prod.fst = some 0x2003000 ∧ ¬ InBounds 1 3 0 m0
      ∧ (pmm_alloc_ex 2 2 0x2003000 m0).map Prod.fst = some 0x2002000
      ∧ ¬ InBounds 2 2 0x2003000 m0 := by
  have hrun : (pmm_init freeAtEnd (Machine.boot 0)).map (fun x => (x.2.pmm_bitmap_len,
      (pmm_alloc_ex 2 8 0 x.2).map Prod.fst, (pmm_alloc_ex 1 3 0 x.2).map Prod.fst,
      (pmm_alloc_ex 2 2 0x2003000 x.2).map Prod.fst))
        = some (0x2009, some 0x2008000, some 0x2003000, some 0x2002000) := by
    decide +kernel
  obtain ⟨⟨_, m0⟩, hm0, hall⟩ := Option.map_eq_some_iff.mp hrun
  injection hall with hlen hall
  injection hall with hend hall
  injection hall with halign hupper
  refine ⟨m0, hm0, hlen, hend, ?_, halign, ?_, hupper, ?_⟩
  · intro h
    obtain ⟨⟨p, m'⟩, hp, rfl⟩ := Option.map_eq_some_iff.mp hend
    have hbelow := h.below _ m' hp (by decide)
    rw [show m0.pmm_bitmap_len = 0x2009 from hlen] at hbelow
    exact absurd hbelow (by decide)
  · intro h
    obtain ⟨⟨p, m'⟩, hp, rfl⟩ := Option.map_eq_some_iff.mp halign
    exact absurd (h.aligned _ m' hp (by decide)) (by decide)
  · intro h
    obtain ⟨⟨p, m'⟩, hp, rfl⟩ := Option.map_eq_some_iff.mp hupper
    exact absurd (h.below_upper _ m' hp (by decide) (by decide)) (by decide)

end Quack.Arch
