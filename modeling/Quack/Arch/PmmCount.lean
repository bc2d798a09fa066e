/-
  Quack.Arch.PmmCount
  **THE COUNT OF FREE PAGES.**

  `pmm_free_pages` is kept by `pmm_alloc_ex` and `pmm_free`, but the bitmap is
  also written without it: `pmm_init` sets the bits of the bitmap's own frames
  directly, after the entry they lie in has been counted, and a page that is
  cleared may hold bits.

    • `pmm_free_pages_accounts` — the count is right in every state of a run, if
      `pmm_init` counts every frame once and misses none (`CountedOnce`,
      `NothingMissed`), exactly if each call is clean.
-/
import Quack.Arch.PmmRuns

namespace Quack.Arch

open Lib

/-! ## §1. Clear bits. -/

namespace Machine

/-- The clear bits of the bitmap. -/
def clearBits (m : Machine) : Finset Nat :=
  {j ∈ Finset.range m.pmm_bitmap_len | m.bit j = false}

/-- The frames of a range that have no bit in the bitmap. -/
def spilt (m : Machine) (f n : Nat) : Finset Nat :=
  {j ∈ Finset.Ico f (f + n) | m.pmm_bitmap_len ≤ j}

instance (m : Machine) (f n j : Nat) : Decidable (m.Wipes f n j) :=
  inferInstanceAs (Decidable (_ ∧ _ ∧ _))

/-- The bits that are lost with the page that is cleared. -/
def wiped (m : Machine) (f n : Nat) : Finset Nat :=
  {j ∈ Finset.range m.pmm_bitmap_len | m.Wipes f n j}

end Machine

/-- The count of free pages is the number of clear bits. -/
def Accounts (m : Machine) : Prop := m.pmm_free_pages.toNat = m.clearBits.card

section Calls

variable {m : Machine} {f n : Nat}

theorem mem_clearBits {j : Nat} :
    j ∈ m.clearBits ↔ j < m.pmm_bitmap_len ∧ m.bit j = false := by
  unfold Machine.clearBits
  rw [Finset.mem_filter, Finset.mem_range]

theorem mem_wiped {j : Nat} : j ∈ m.wiped f n ↔ j < m.pmm_bitmap_len ∧ m.Wipes f n j := by
  unfold Machine.wiped
  rw [Finset.mem_filter, Finset.mem_range]

theorem clearBits_card_le (m : Machine) : m.clearBits.card ≤ m.pmm_bitmap_len := by
  refine (Finset.card_filter_le _ _).trans ?_
  rw [Finset.card_range]

theorem takeRange_clearBits (hfree : m.Free f n) :
    (m.takeRange f n).clearBits.card + n
      = m.clearBits.card + (m.spilt f n).card + (m.wiped f n).card := by
  have hlen := (m.takeRange_vars f n).len
  let inside := {j ∈ Finset.Ico f (f + n) | ¬ m.pmm_bitmap_len ≤ j}
  have hrange : (m.spilt f n).card + inside.card = n := by
    have hsplit := Finset.card_filter_add_card_filter_not (s := Finset.Ico f (f + n))
      (fun j => m.pmm_bitmap_len ≤ j)
    rw [Nat.card_Ico] at hsplit
    exact hsplit.trans (by omega)
  have hsub : inside ⊆ m.clearBits := by
    intro j hj
    obtain ⟨hj, hlt⟩ := Finset.mem_filter.mp hj
    obtain ⟨hlo, hhi⟩ := Finset.mem_Ico.mp hj
    exact mem_clearBits.mpr ⟨by omega, hfree j hlo hhi⟩
  have hafter : (m.takeRange f n).clearBits = (m.clearBits \ inside) ∪ m.wiped f n := by
    ext j
    simp only [mem_clearBits, mem_wiped, hlen, Machine.takeRange_bit, Finset.mem_union,
      Finset.mem_sdiff, inside, Finset.mem_filter, Finset.mem_Ico]
    unfold Machine.Wipes
    cases m.bit j <;> grind
  have hdisj : Disjoint (m.clearBits \ inside) (m.wiped f n) := by
    rw [Finset.disjoint_left]
    intro j hj hw
    obtain ⟨hclear, hout⟩ := Finset.mem_sdiff.mp hj
    obtain ⟨hlt, -, -, hbit | hin⟩ := mem_wiped.mp hw
    · rw [(mem_clearBits.mp hclear).2] at hbit
      exact Bool.false_ne_true hbit
    · exact hout (Finset.mem_filter.mpr ⟨Finset.mem_Ico.mpr hin, Nat.not_le.mpr hlt⟩)
  rw [hafter, Finset.card_union_of_disjoint hdisj, Finset.card_sdiff_of_subset hsub]
  have hle := Finset.card_le_card hsub
  omega

theorem giveRange_clearBits (hset : ∀ j, f ≤ j → j < f + n → m.bit j = true)
    (hstop : f + n ≤ m.pmm_bitmap_len) :
    (m.giveRange f n).clearBits.card = m.clearBits.card + n := by
  have hlen := (m.giveRange_vars f n).len
  have hafter : (m.giveRange f n).clearBits = m.clearBits ∪ Finset.Ico f (f + n) := by
    ext j
    simp only [mem_clearBits, hlen, Machine.giveRange_bit, Finset.mem_union, Finset.mem_Ico]
    grind
  have hdisj : Disjoint m.clearBits (Finset.Ico f (f + n)) := by
    rw [Finset.disjoint_left]
    intro j hj hin
    obtain ⟨hlo, hhi⟩ := Finset.mem_Ico.mp hin
    have hbit := (mem_clearBits.mp hj).2
    rw [hset j hlo hhi] at hbit
    exact Bool.noConfusion hbit
  rw [hafter, Finset.card_union_of_disjoint hdisj, Nat.card_Ico]
  omega

theorem accounts_iff (hlen : m.pmm_bitmap_len < 2 ^ 32) :
    Accounts m ↔ m.pmm_free_pages = BitVec.ofNat 64 m.clearBits.card := by
  have hle := clearBits_card_le m
  unfold Accounts
  rw [← BitVec.toNat_inj, BitVec.toNat_ofNat, Nat.mod_eq_of_lt (by omega)]

theorem ofNat_sub_eq {a b c : Nat} (ha : a + b < 2 ^ 64) (hc : c < 2 ^ 64) :
    BitVec.ofNat 64 c - BitVec.ofNat 64 b = BitVec.ofNat 64 a ↔ a + b = c := by
  rw [← BitVec.toNat_inj, BitVec.toNat_sub, BitVec.toNat_ofNat, BitVec.toNat_ofNat,
    BitVec.toNat_ofNat]
  omega

theorem accounts_takeRange (hlen : m.pmm_bitmap_len < 2 ^ 32) (hn : n ≤ 2 ^ 36)
    (htotal : m.pmm_total_pages ≠ 0) (hfree : m.Free f n) {c : Nat} (hc : c < 2 ^ 64)
    (hcount : m.pmm_free_pages = BitVec.ofNat 64 c) :
    Accounts (m.takeRange f n)
      ↔ m.clearBits.card + (m.spilt f n).card + (m.wiped f n).card = c := by
  have hvars := m.takeRange_vars f n
  have hcards := takeRange_clearBits hfree
  have hle := clearBits_card_le (m.takeRange f n)
  rw [hvars.len] at hle
  rw [accounts_iff (by rw [hvars.len]; exact hlen), Machine.takeRange_free_pages, if_neg htotal,
    hcount, ofNat_sub_eq (by omega) hc, hcards]

theorem spilt_eq_empty (hf : f < m.pmm_bitmap_len) :
    m.spilt f n = ∅ ↔ f + n ≤ m.pmm_bitmap_len := by
  unfold Machine.spilt
  rw [Finset.filter_eq_empty_iff]
  constructor
  · intro h
    by_contra hgt
    exact h (Finset.mem_Ico.mpr ⟨Nat.le_of_lt hf, by omega⟩) (Nat.le_refl _)
  · intro hle j hj
    have := (Finset.mem_Ico.mp hj).2
    omega

theorem wiped_eq_empty :
    m.wiped f n = ∅ ↔ ∀ j, j < m.pmm_bitmap_len → ¬ m.Wipes f n j := by
  simp only [Finset.eq_empty_iff_forall_notMem, mem_wiped, not_and]

end Calls

/-! ## §2. Runs. -/

/-- Any call: `pmmStep` without its conditions on the arguments. -/
def pmmCall (s : PmmState) : PmmOp → Option PmmState
  | .alloc count alignment upper =>
    (pmm_alloc_ex count alignment upper s.machine).map fun r =>
      ⟨r.2, if r.1 = 0 then s.live else ⟨r.1, count⟩ :: s.live⟩
  | .free i => pmmStep s (.free i)

variable {m m' : Machine} {bits j : Nat}

section Runs

variable {s s' : PmmState}

/-- A state in which the count is right. -/
structure CountInv (s : PmmState) : Prop where
  inv : PmmInv s
  accounts : Accounts s.machine

variable {alignment count p upper : U64} {op : PmmOp}

theorem pmm_alloc_ex_takes {f : Nat} (hlen : m.pmm_bitmap_len < 2 ^ 32)
    (hlow : 0x2000 < m.pmm_bitmap_len → ∀ j, j < 0x2000 → m.bit j = true)
    (hfit : FirstFit m count.toNat alignment.toNat (pmm_max_idx m.pmm_bitmap_len upper) 0x2000 f)
    (hf : Reachable f count.toNat) :
    ∃ p, pmm_alloc_ex count alignment upper m = some (p, m.takeRange f count.toNat) := by
  obtain ⟨m', hrun⟩ := pmm_alloc_ex_of_fit (by omega) hfit hf
  have hge : 0x2000 ≤ f := by
    obtain ⟨n, rfl, -⟩ := hfit
    omega
  rw [Nat.mul_comm] at hrun
  rcases pmm_alloc_ex_cases (by omega) (fun _ => hlow) hrun with
    ⟨h0, -⟩ | ⟨g, hp, rfl, hg, -⟩
  · exact absurd h0 (frame_ne_null hge hf.1)
  · have hnat : (BitVec.ofNat 64 (4096 * f)).toNat = _ := congrArg BitVec.toNat hp
    have hf1 := hf.1
    have hg1 := hg.1
    rw [toNat_addr (by omega), toNat_addr (by omega)] at hnat
    obtain rfl : f = g := by omega
    exact ⟨_, hrun⟩

theorem CountInv.taken_iff (h : CountInv s) {f : Nat}
    (hfit : FirstFit s.machine count.toNat alignment.toNat
      (pmm_max_idx s.machine.pmm_bitmap_len upper) 0x2000 f) (hf : Reachable f count.toNat) :
    Accounts (s.machine.takeRange f count.toNat)
      ↔ f + count.toNat ≤ s.machine.pmm_bitmap_len
        ∧ ∀ j, j < s.machine.pmm_bitmap_len → ¬ s.machine.Wipes f count.toNat j := by
  have hlen := h.inv.len
  have hle := clearBits_card_le s.machine
  have hmax := pmm_max_idx_le s.machine.pmm_bitmap_len upper
  have hcount : count.toNat ≤ 2 ^ 36 := by
    have hwin := hf.2
    rw [phys_window_eq] at hwin
    omega
  obtain ⟨n, -, hlt, hfree, -⟩ := hfit
  rw [accounts_takeRange hlen hcount h.inv.total hfree (by omega)
    ((accounts_iff hlen).mp h.accounts), ← spilt_eq_empty (by omega), ← wiped_eq_empty,
    ← Finset.card_eq_zero, ← Finset.card_eq_zero]
  omega

theorem CountInv.free (h : CountInv s) {i : Nat} (hs : pmmStep s (.free i) = some s') :
    CountInv s' := by
  refine ⟨h.inv.free_step hs, ?_⟩
  obtain ⟨e, he, hs⟩ := Option.bind_eq_some_iff.mp hs
  obtain ⟨⟨_, m'⟩, hrun, rfl⟩ := Option.map_eq_some_iff.mp hs
  have hm' := pmm_free_range hrun
  subst hm'
  have hmem := List.mem_of_getElem? he
  have hlen := h.inv.len
  have hstop := (h.inv.bounds e hmem).2.2
  have hcards := giveRange_clearBits (h.inv.live.bits e hmem) hstop
  have hle := clearBits_card_le (s.machine.giveRange e.first e.count.toNat)
  have hvars := s.machine.giveRange_vars e.first e.count.toNat
  rw [hvars.len] at hle
  show (s.machine.pmm_free_pages + BitVec.ofNat 64 e.count.toNat).toNat
    = (s.machine.giveRange e.first e.count.toNat).clearBits.card
  rw [hcards, BitVec.toNat_add, BitVec.toNat_ofNat, h.accounts]
  omega

theorem CountInv.step (h : CountInv s) (hclean : Clean s op)
    (hs : pmmCall s op = some s') : CountInv s' := by
  cases op with
  | free i => exact h.free hs
  | alloc count alignment upper =>
    obtain ⟨⟨p, m'⟩, hrun, rfl⟩ := Option.map_eq_some_iff.mp hs
    have hlen := h.inv.len
    refine ⟨h.inv.alloc hclean hrun, ?_⟩
    rcases pmm_alloc_ex_cases (by omega) h.inv.wrap hrun with ⟨-, rfl, -⟩ | ⟨f, -, rfl, hf, hfit⟩
    · exact h.accounts
    · exact (h.taken_iff hfit hf).mpr (hclean f hfit hf)

theorem not_clean (hno : ¬ Clean s (.alloc count alignment upper)) :
    ∃ f, FirstFit s.machine count.toNat alignment.toNat
        (pmm_max_idx s.machine.pmm_bitmap_len upper) 0x2000 f
      ∧ Reachable f count.toNat
      ∧ ¬ (f + count.toNat ≤ s.machine.pmm_bitmap_len
        ∧ ∀ j, j < s.machine.pmm_bitmap_len → ¬ s.machine.Wipes f count.toNat j) := by
  by_contra hall
  exact hno fun f hfit hf => by_contra fun h => hall ⟨f, hfit, hf, h⟩

theorem CountInv.bad (h : CountInv s) (hno : ¬ Clean s op) :
    ∃ s', pmmCall s op = some s' ∧ ¬ Accounts s'.machine := by
  cases op with
  | free i => exact absurd trivial hno
  | alloc count alignment upper =>
    obtain ⟨f, hfit, hf, hlost⟩ := not_clean hno
    obtain ⟨p, hrun⟩ := pmm_alloc_ex_takes h.inv.len h.inv.low hfit hf
    exact ⟨_, Option.map_eq_some_iff.mpr ⟨_, hrun, rfl⟩,
      fun hacc => hlost ((h.taken_iff hfit hf).mp hacc)⟩

/-- The state of a machine without memory to hand out: nothing was counted, and no bit
is clear. -/
structure EmptyInv (s : PmmState) : Prop where
  len : s.machine.pmm_bitmap_len < 2 ^ 32
  total : s.machine.pmm_total_pages = 0
  free : s.machine.pmm_free_pages = 0
  bits : ∀ j, j < s.machine.pmm_bitmap_len → s.machine.bit j = true
  live : s.live = []

theorem EmptyInv.accounts (h : EmptyInv s) : Accounts s.machine := by
  have hnone : s.machine.clearBits = ∅ := by
    rw [Finset.eq_empty_iff_forall_notMem]
    intro j hj
    obtain ⟨hlt, hbit⟩ := mem_clearBits.mp hj
    rw [h.bits j hlt] at hbit
    exact Bool.noConfusion hbit
  unfold Accounts
  rw [h.free, hnone]
  rfl

theorem EmptyInv.low (h : EmptyInv s) (hlt : 0x2000 < s.machine.pmm_bitmap_len) (j : Nat)
    (hj : j < 0x2000) : s.machine.bit j = true := h.bits j (by omega)

theorem EmptyInv.taken (h : EmptyInv s) {f : Nat}
    (hfit : FirstFit s.machine count.toNat alignment.toNat
      (pmm_max_idx s.machine.pmm_bitmap_len upper) 0x2000 f) :
    s.machine.Wipes f count.toNat 0 ∧ 0 < s.machine.pmm_bitmap_len
      ∧ ¬ Accounts (s.machine.takeRange f count.toNat) := by
  have hmax := pmm_max_idx_le s.machine.pmm_bitmap_len upper
  obtain ⟨-, -, hlt, hfree, -⟩ := id hfit
  have hcount : count.toNat = 0 := by
    by_contra hpos
    have hbit := h.bits f (by omega)
    rw [hfree f (Nat.le_refl _) (by omega)] at hbit
    exact Bool.false_ne_true hbit
  rw [hcount] at hfit
  have hf := hfit.of_zero
  have hwipes : s.machine.Wipes f count.toNat 0 :=
    ⟨by omega, by omega, Or.inl (h.bits 0 (by omega))⟩
  refine ⟨hwipes, by omega, fun hacc => ?_⟩
  -- the bit of frame 0 is clear now, and the count is still zero
  unfold Accounts at hacc
  rw [Machine.takeRange_free_pages, if_pos h.total, h.free] at hacc
  have hmem : 0 ∈ (s.machine.takeRange f count.toNat).clearBits := by
    refine mem_clearBits.mpr ⟨by rw [(s.machine.takeRange_vars f _).len]; omega, ?_⟩
    rw [Machine.takeRange_bit, if_pos ⟨hwipes.1, hwipes.2.1⟩]
  have hpos := Finset.card_pos.mpr ⟨0, hmem⟩
  rw [← hacc] at hpos
  exact absurd hpos (by decide)

theorem EmptyInv.step (h : EmptyInv s) (hclean : Clean s op)
    (hs : pmmCall s op = some s') : EmptyInv s' := by
  cases op with
  | free i =>
    obtain ⟨e, he, -⟩ := Option.bind_eq_some_iff.mp hs
    rw [h.live] at he
    exact absurd he nofun
  | alloc count alignment upper =>
    obtain ⟨⟨p, m'⟩, hrun, rfl⟩ := Option.map_eq_some_iff.mp hs
    have hlen := h.len
    rcases pmm_alloc_ex_cases (by omega) (fun _ => h.low) hrun with
      ⟨rfl, rfl, -⟩ | ⟨f, -, -, hf, hfit⟩
    · exact h
    · obtain ⟨hwipes, hpos, -⟩ := h.taken hfit
      exact absurd hwipes ((hclean f hfit hf).2 0 hpos)

theorem EmptyInv.bad (h : EmptyInv s) (hno : ¬ Clean s op) :
    ∃ s', pmmCall s op = some s' ∧ ¬ Accounts s'.machine := by
  cases op with
  | free i => exact absurd trivial hno
  | alloc count alignment upper =>
    obtain ⟨f, hfit, hf, -⟩ := not_clean hno
    obtain ⟨p, hrun⟩ := pmm_alloc_ex_takes h.len h.low hfit hf
    exact ⟨_, Option.map_eq_some_iff.mpr ⟨_, hrun, rfl⟩, (h.taken hfit).2.2⟩

end Runs

/-! ## §3. What the memory map adds up to. -/

namespace MmapEntry

/-- The address belongs to the entry. -/
def Has (e : MmapEntry) (x : Nat) : Prop := e.addr.toNat ≤ x ∧ x < e.addr.toNat + e.len.toNat

/-- The entries do not overlap. -/
def Apart (a b : MmapEntry) : Prop := ∀ x, ¬ (a.Has x ∧ b.Has x)

def PageAligned (e : MmapEntry) : Prop := e.addr.toNat % 4096 = 0 ∧ e.len.toNat % 4096 = 0

end MmapEntry

theorem Freed.has {e : MmapEntry} (h : Freed bits e j) (he : e.PageAligned) :
    e.Has (4096 * j) := by
  obtain ⟨haddr, hlen⟩ := he
  have hfirst := h.first
  have hstop := h.stop
  unfold MmapEntry.stop at hstop
  unfold MmapEntry.first at hfirst hstop
  unfold MmapEntry.Has
  omega

/-- The frames that an entry frees. -/
def entryFrames (bits : Nat) (e : MmapEntry) : Finset Nat :=
  match freedBy bits e with
  | none => ∅
  | some r => Finset.Ico (r.1.toNat / 4096) (r.1.toNat / 4096 + r.2.toNat)

/-- The frames that the entries free. -/
def countedFrames (bits : Nat) : List MmapEntry → Finset Nat
  | [] => ∅
  | e :: mmap => entryFrames bits e ∪ countedFrames bits mmap

theorem mem_entryFrames (hbits : bits < 2 ^ 32) {e : MmapEntry} :
    j ∈ entryFrames bits e ↔ Freed bits e j := by
  rw [← freedBy_iff hbits]
  unfold entryFrames
  cases h : freedBy bits e with
  | none => simp
  | some r =>
    rw [Finset.mem_Ico]
    constructor
    · exact fun hj => ⟨r.1, r.2, rfl, hj⟩
    · rintro ⟨s, c, hsc, hj⟩
      injection hsc with hsc
      subst hsc
      exact hj

theorem mem_countedFrames (hbits : bits < 2 ^ 32) {mmap : List MmapEntry} :
    j ∈ countedFrames bits mmap ↔ ∃ e ∈ mmap, Freed bits e j := by
  induction mmap with
  | nil => simp [countedFrames]
  | cons e mmap ih =>
    unfold countedFrames
    rw [Finset.mem_union, mem_entryFrames hbits, ih, List.exists_mem_cons_iff]

theorem pmm_free_window {mem count : U64} {u : Unit}
    (h : pmm_free mem count m = some (u, m')) (hpos : 0 < count.toNat) :
    mem.toNat / 4096 + count.toNat ≤ 2 ^ 36 := by
  obtain ⟨_, _, hwrite, -⟩ := Prog.bind_eq_some.mp h
  have hwin := pmm_bit_write_window (j := mem.toNat / 4096 + count.toNat - 1) _ _ _ hwrite
    (show mem.toNat / 4096 ≤ _ by omega) (show _ < mem.toNat / 4096 + count.toNat by omega)
  rw [phys_window_eq] at hwin
  omega

theorem pmm_init_entries_count {u : Unit} (hbits : bits < 2 ^ 32) (mmap : List MmapEntry)
    (m : Machine) (h : pmm_init_entries mmap m = some (u, m')) (hlen : m.pmm_bitmap_len = bits)
    (haligned : (∀ e ∈ mmap, e.PageAligned)) (hapart : mmap.Pairwise MmapEntry.Apart) :
    m'.pmm_free_pages
        = m.pmm_free_pages + BitVec.ofNat 64 (countedFrames bits mmap).card
      ∧ ∀ j ∈ countedFrames bits mmap, j < 2 ^ 36 ∧ ∃ e ∈ mmap, e.Has (4096 * j) := by
  induction mmap generalizing m with
  | nil =>
    obtain ⟨-, rfl⟩ := Prog.pure_eq_some.mp h
    refine ⟨?_, fun j hj => absurd hj (Finset.notMem_empty j)⟩
    show m.pmm_free_pages = m.pmm_free_pages + BitVec.ofNat 64 0
    rw [BitVec.add_zero]
  | cons e mmap ih =>
    obtain ⟨_, t, hentry, h⟩ := Prog.bind_eq_some.mp h
    obtain ⟨hhead, htail⟩ := List.pairwise_cons.mp hapart
    -- what this entry frees
    obtain ⟨hcount, htlen, hfreed⟩ : t.pmm_free_pages
          = m.pmm_free_pages + BitVec.ofNat 64 (entryFrames bits e).card
        ∧ t.pmm_bitmap_len = bits
        ∧ ∀ j ∈ entryFrames bits e, j < 2 ^ 36 ∧ e.Has (4096 * j) := by
      unfold entryFrames
      rcases pmm_init_entry_free hentry with ⟨hnone, rfl⟩ | ⟨s, c, hsome, hfree⟩
      · rw [hlen] at hnone
        rw [hnone]
        refine ⟨?_, hlen, fun j hj => absurd hj (Finset.notMem_empty j)⟩
        show t.pmm_free_pages = t.pmm_free_pages + BitVec.ofNat 64 0
        rw [BitVec.add_zero]
      · rw [hlen] at hsome
        rw [hsome]
        have ht := pmm_free_range hfree
        subst ht
        refine ⟨?_, (m.giveRange_vars _ _).len.trans hlen, fun j hj => ?_⟩
        · show m.pmm_free_pages + BitVec.ofNat 64 c.toNat = _
          rw [Nat.card_Ico, Nat.add_sub_cancel_left]
        · have hj : s.toNat / 4096 ≤ j ∧ j < s.toNat / 4096 + c.toNat := Finset.mem_Ico.mp hj
          obtain ⟨hlo, hhi⟩ := hj
          have hwin := pmm_free_window hfree (by omega)
          have hfreed := (freedBy_iff hbits).mp ⟨s, c, hsome, hlo, hhi⟩
          exact ⟨by omega, hfreed.has (haligned e List.mem_cons_self)⟩
    obtain ⟨hrest, hin⟩ := ih t h htlen (fun e' he' => haligned e' (List.mem_cons_of_mem e he'))
      htail
    have hdisj : Disjoint (entryFrames bits e) (countedFrames bits mmap) := by
      rw [Finset.disjoint_left]
      intro j hj hj'
      obtain ⟨-, e', he', hhas⟩ := hin j hj'
      exact hhead e' he' (4096 * j) ⟨(hfreed j hj).2, hhas⟩
    unfold countedFrames
    refine ⟨?_, fun j hj => ?_⟩
    · rw [hrest, hcount, Finset.card_union_of_disjoint hdisj, BitVec.ofNat_add, BitVec.add_assoc]
    · rcases Finset.mem_union.mp hj with hj | hj
      · exact ⟨(hfreed j hj).1, e, List.mem_cons_self, (hfreed j hj).2⟩
      · obtain ⟨hlt, e', he', hhas⟩ := hin j hj
        exact ⟨hlt, e', List.mem_cons_of_mem e he', hhas⟩

/-! ## §4. The count after `pmm_init`. -/

section Init

variable (mmap : List MmapEntry) (m : Machine)

def CountedOnce : Prop :=
  ∀ e ∈ mmap, ∀ j, Freed (bitmapLen mmap) e j → ¬ Reserved mmap j ∧ j < bitmapLen mmap

/-- No clear bit is missed by the count. -/
structure NothingMissed : Prop where
  /-- The bits past the last whole byte stay as the memory was: a clear one is that of a
  frame some entry frees, or it is set with the bitmap's own. -/
  stale : ∀ j, j < bitmapLen mmap → Unset mmap m j → ¬ Reserved mmap j →
    ∃ e ∈ mmap, Freed (bitmapLen mmap) e j
  /-- The frames that are taken at the end have bits. -/
  inside : ∀ f, Taken mmap m f → f + bitmapFrames mmap ≤ bitmapLen mmap
  /-- If they are those behind the bitmap, the bits in the frame that is cleared were clear. -/
  behind : Taken mmap m (0x2000 + bitmapFrames mmap) →
    ∀ j, 32768 * bitmapFrames mmap ≤ j → j < bitmapLen mmap →
      Vacant mmap m j

end Init

section Count

variable {mmap : List MmapEntry} {m m0 t : Machine}

theorem SetUp.countedOnce_iff (ht : SetUp mmap m t) :
    CountedOnce mmap ↔ countedFrames (bitmapLen mmap) mmap ⊆ t.clearBits := by
  constructor
  · intro h j hj
    obtain ⟨e, he, hfreed⟩ := (mem_countedFrames bitmapLen_lt).mp hj
    obtain ⟨hres, hlt⟩ := h e he j hfreed
    exact mem_clearBits.mpr ⟨ht.len ▸ hlt, (ht.bits j).mpr ⟨hres, Or.inr ⟨e, he, hfreed⟩⟩⟩
  · intro h e he j hfreed
    obtain ⟨hlt, hbit⟩ := mem_clearBits.mp (h ((mem_countedFrames bitmapLen_lt).mpr ⟨e, he, hfreed⟩))
    exact ⟨((ht.bits j).mp hbit).1, ht.len ▸ hlt⟩

theorem SetUp.nothingMissed_iff (ht : SetUp mmap m t) :
    NothingMissed mmap m ↔ t.clearBits ⊆ countedFrames (bitmapLen mmap) mmap
      ∧ ∀ f, Taken mmap m f →
        t.spilt f (bitmapFrames mmap) = ∅ ∧ t.wiped f (bitmapFrames mmap) = ∅ := by
  have hpages := bitmapFrames_eq mmap
  have hlosses : ∀ f, Taken mmap m f →
      (t.spilt f (bitmapFrames mmap) = ∅ ∧ t.wiped f (bitmapFrames mmap) = ∅
        ↔ f + bitmapFrames mmap ≤ bitmapLen mmap
          ∧ ∀ j, j < bitmapLen mmap → ¬ t.Wipes f (bitmapFrames mmap) j) := by
    intro f hf
    rw [spilt_eq_empty (by rw [ht.len]; exact hf.2.1), wiped_eq_empty, ht.len]
  constructor
  · intro h
    refine ⟨fun j hj => ?_, fun f hf => (hlosses f hf).mpr ⟨h.inside f hf, ?_⟩⟩
    · obtain ⟨hlt, hbit⟩ := mem_clearBits.mp hj
      obtain ⟨hres, hunset | hfreed⟩ := (ht.bits j).mp hbit
      · exact (mem_countedFrames bitmapLen_lt).mpr (h.stale j (ht.len ▸ hlt) hunset hres)
      · exact (mem_countedFrames bitmapLen_lt).mpr hfreed
    · rintro j hj ⟨hlow, hword, hlost⟩
      -- only the frame behind those set aside has bits of the map in it
      have hlt := hf.2.1
      have hres := (hf.2.2.1 f (Nat.le_refl f) (by omega)).1
      unfold Reserved at hres
      obtain rfl : f = 0x2000 + bitmapFrames mmap := by omega
      rcases hlost with hset | hin
      · rw [(ht.bits j).mpr (h.behind hf j (by omega) hj)] at hset
        cases hset
      · omega
  · rintro ⟨hstale, htake⟩
    refine ⟨fun j hj hunset hres => ?_, fun f hf => ((hlosses f hf).mp (htake f hf)).1,
      fun hF j hlo hj => ?_⟩
    · exact (mem_countedFrames bitmapLen_lt).mp
        (hstale (mem_clearBits.mpr ⟨ht.len ▸ hj, (ht.bits j).mpr ⟨hres, Or.inl hunset⟩⟩))
    · by_contra hno
      rw [← ht.bits, Bool.not_eq_false] at hno
      exact ((hlosses _ hF).mp (htake _ hF)).2 j hj ⟨by omega, by omega, Or.inl hno⟩

section

variable (haligned : ∀ e ∈ mmap, e.PageAligned) (hapart : mmap.Pairwise MmapEntry.Apart)
  (hzero : m.pmm_free_pages = 0)

include haligned hapart hzero

theorem pmm_init_bitmap_count {u : Unit}
    (h : pmm_init_bitmap mmap m = some (u, t)) :
    t.pmm_free_pages = BitVec.ofNat 64 (countedFrames (bitmapLen mmap) mmap).card
      ∧ (countedFrames (bitmapLen mmap) mmap).card ≤ 2 ^ 36 := by
  obtain ⟨t1, hentries, rfl⟩ := pmm_init_bitmap_cases h
  obtain ⟨hcount, hin⟩ := pmm_init_entries_count bitmapLen_lt _ _ hentries rfl haligned hapart
  constructor
  · rw [(Machine.setBits_vars true _ _ _).2]
    refine hcount.trans ?_
    show m.pmm_free_pages + _ = _
    rw [hzero, BitVec.ofNat_eq_ofNat, BitVec.zero_add]
  · have hsub : countedFrames (bitmapLen mmap) mmap ⊆ Finset.range (2 ^ 36) :=
      fun j hj => Finset.mem_range.mpr (hin j hj).1
    have hle := Finset.card_le_card hsub
    rwa [Finset.card_range] at hle

theorem pmm_init_accounts {u : Unit}
    (hsome : ∀ f, Taken mmap m f → (countedFrames (bitmapLen mmap) mmap).Nonempty)
    (h : pmm_init mmap m = some (u, m0)) :
    ∃ t lost, SetUp mmap m t
      ∧ (Accounts m0 ↔ t.clearBits.card + lost = (countedFrames (bitmapLen mmap) mmap).card)
      ∧ (lost = 0 ↔ ∀ f, Taken mmap m f →
        t.spilt f (bitmapFrames mmap) = ∅ ∧ t.wiped f (bitmapFrames mmap) = ∅) := by
  have hbound := @bitmapLen_lt mmap
  have hpages := bitmapFrames_eq mmap
  unfold pmm_init at h
  simp only [Prog.bind_eq_some, Prog.check_eq_some] at h
  obtain ⟨_, t, hbitmap, p, m1, halloc, -, rfl⟩ := h
  have ht := pmm_init_bitmap_eq_some hbitmap
  obtain ⟨hcount, hcard⟩ := pmm_init_bitmap_count haligned hapart hzero hbitmap
  have hlen : t.pmm_bitmap_len < 2 ^ 32 := by
    rw [ht.len]
    exact hbound
  rcases ht.alloc halloc with ⟨-, rfl, hno⟩ | ⟨f, -, hf, rfl⟩
  · refine ⟨m1, 0, ht, ?_, iff_of_true rfl fun f hf => absurd hf (hno f)⟩
    unfold Accounts
    rw [hcount, BitVec.toNat_ofNat]
    omega
  · have htotal : t.pmm_total_pages ≠ 0 := by
      rw [ht.total, hcount]
      intro h0
      have hpos := Finset.card_pos.mpr (hsome f hf)
      have := congrArg BitVec.toNat h0
      rw [BitVec.toNat_ofNat] at this
      change _ = 0 at this
      omega
    refine ⟨t, _, ht, (accounts_takeRange hlen (by omega) htotal
      ((ht.free_iff f _).mpr hf.2.2.1) (by omega) hcount).trans (by rw [Nat.add_assoc]), ?_⟩
    rw [Nat.add_eq_zero_iff, Finset.card_eq_zero, Finset.card_eq_zero]
    exact ⟨fun hlost g hg => hg.unique hf ▸ hlost, fun hall => hall f hf⟩

end

theorem accounts_run (hinit : pmm_init mmap m = some ((), m0)) (hacc : Accounts m0)
    (ops : List PmmOp) :
    Always pmmCall (fun s => Accounts s.machine) ⟨m0, []⟩ ops
      ↔ Along pmmCall Clean ⟨m0, []⟩ ops := by
  by_cases htotal : m0.pmm_total_pages = 0
  · have hempty : EmptyInv ⟨m0, []⟩ := by
      have hfree : m0.pmm_free_pages = 0 := pmm_init_total_zero hinit htotal
      have hlen : m0.pmm_bitmap_len < 2 ^ 32 := (pmm_init_bit hinit).1 ▸ bitmapLen_lt
      refine ⟨hlen, htotal, hfree, fun j hj => ?_, rfl⟩
      unfold Accounts at hacc
      rw [hfree, show (0 : U64).toNat = 0 from rfl, eq_comm, Finset.card_eq_zero,
        Finset.eq_empty_iff_forall_notMem] at hacc
      have hno := hacc j
      rw [mem_clearBits, not_and] at hno
      simpa using hno hj
    exact always_iff_along pmmCall EmptyInv (fun _ h => h.accounts)
      (fun _ _ _ h hclean hs => h.step hclean hs) (fun _ _ h hno => h.bad hno) ops _ hempty
  · exact always_iff_along pmmCall CountInv (fun _ h => h.accounts)
      (fun _ _ _ h hclean hs => h.step hclean hs) (fun _ _ h hno => h.bad hno) ops _
      ⟨PmmInv.of_total hinit htotal, hacc⟩

/-- **Free-page accounting.**  For every aligned map without overlaps: if every frame is
counted once and none is missed, the count is right after `pmm_init` and in every state of
a run exactly if no call loses a bit.  And both are necessary, unless a frame that is
counted too often makes up for one that is missed. -/
theorem pmm_free_pages_accounts (mmap : List MmapEntry) (haligned : ∀ e ∈ mmap, e.PageAligned)
    (hapart : mmap.Pairwise MmapEntry.Apart) (m m0 : Machine) (hzero : m.pmm_free_pages = 0)
    (hinit : pmm_init mmap m = some ((), m0)) :
    (CountedOnce mmap → NothingMissed mmap m → ∀ ops,
        (Always pmmCall (fun s => Accounts s.machine) ⟨m0, []⟩ ops
          ↔ Along pmmCall Clean ⟨m0, []⟩ ops))
      ∧ ((∃ e ∈ mmap, ∃ j, Freed (bitmapLen mmap) e j) → Accounts m0 →
          (CountedOnce mmap ↔ NothingMissed mmap m)) := by
  have hpages := bitmapFrames_eq mmap
  constructor
  · intro honce hmissed ops
    -- a frame that is taken has a clear bit, and none is missed
    have hsome : ∀ f, Taken mmap m f → (countedFrames (bitmapLen mmap) mmap).Nonempty := by
      intro f hf
      have hlow := hf.1
      have hlt := hf.2.1
      obtain ⟨hres, hunset | hfreed⟩ := hf.2.2.1 f (Nat.le_refl f) (by omega)
      · exact ⟨f, (mem_countedFrames bitmapLen_lt).mpr (hmissed.stale f hlt hunset hres)⟩
      · exact ⟨f, (mem_countedFrames bitmapLen_lt).mpr hfreed⟩
    obtain ⟨t, lost, ht, hacc, hlost⟩ := pmm_init_accounts haligned hapart hzero hsome hinit
    have hcounted := ht.countedOnce_iff.mp honce
    obtain ⟨hclear, htake⟩ := ht.nothingMissed_iff.mp hmissed
    refine accounts_run hinit (hacc.mpr ?_) ops
    rw [hlost.mpr htake, hclear.antisymm hcounted, Nat.add_zero]
  · rintro ⟨e, he, j, hfreed⟩ hacc
    obtain ⟨t, lost, ht, hbalance, hlost⟩ := pmm_init_accounts haligned hapart hzero
      (fun _ _ => ⟨j, (mem_countedFrames bitmapLen_lt).mpr ⟨e, he, hfreed⟩⟩) hinit
    have hbalance := hbalance.mp hacc
    rw [ht.countedOnce_iff, ht.nothingMissed_iff, ← hlost]
    constructor
    · intro hcounted
      have hle := Finset.card_le_card hcounted
      refine ⟨?_, by omega⟩
      rw [Finset.eq_of_subset_of_card_le hcounted (by omega)]
    · rintro ⟨hclear, hzero⟩
      rw [Finset.eq_of_subset_of_card_le hclear (by omega)]

/-- Memory behind the bitmap's frame, in two ranges. -/
def behindBitmap : List MmapEntry := [⟨0x2001000, 0x5000, 1⟩, ⟨0x2018000, 0x8000, 1⟩]

theorem behindBitmap_counted (m : Machine) :
    CountedOnce behindBitmap ∧ NothingMissed behindBitmap m := by
  have hlen : bitmapLen behindBitmap = 0x2020 := by decide +kernel
  have hpages : bitmapFrames behindBitmap = 1 := by decide +kernel
  constructor
  · intro e he j hfreed
    have hfirst := hfreed.first
    have hstop := hfreed.stop
    unfold Reserved
    rw [hpages, hlen]
    have hall : ∀ e ∈ behindBitmap, 0x2001 ≤ e.first ∧ e.stop ≤ 0x2020 := by decide
    have := hall e he
    omega
  · constructor
    · intro j hj hunset
      unfold Unset at hunset
      rw [hlen] at hj hunset
      omega
    · rintro f ⟨-, hlt, -⟩
      rw [hlen] at hlt ⊢
      rw [hpages]
      omega
    · intro _ j hlo hj
      rw [hlen] at hj
      rw [hpages] at hlo
      omega

theorem pmm_free_pages_accounts_behind :
    ∃ m0 s, pmm_init behindBitmap (Machine.boot 0) = some ((), m0)
      ∧ run pmmCall ⟨m0, []⟩ twoAllocs = some s ∧ s.machine.pmm_free_pages = 10
      ∧ s.live = [⟨0x2003000, 2⟩]
      ∧ Always pmmCall (fun s => Accounts s.machine) ⟨m0, []⟩ twoAllocs := by
  have hrun : (pmm_init behindBitmap (Machine.boot 0)).map (fun x =>
      (decide (Along pmmCall Room ⟨x.2, []⟩ twoAllocs),
        (run pmmCall ⟨x.2, []⟩ twoAllocs).map fun s => (s.machine.pmm_free_pages, s.live)))
        = some (true, some (10, [⟨0x2003000, 2⟩])) := by
    decide +kernel
  obtain ⟨⟨_, m0⟩, hm0, hall⟩ := Option.map_eq_some_iff.mp hrun
  injection hall with hroom hall
  obtain ⟨s, hs, hall⟩ := Option.map_eq_some_iff.mp hall
  injection hall with hfree hlive
  have hapart : behindBitmap.Pairwise MmapEntry.Apart := by
    refine List.pairwise_pair.mpr fun x hx => ?_
    obtain ⟨⟨-, hlt⟩, hge, -⟩ := hx
    exact absurd (Nat.lt_of_le_of_lt hge hlt) (by decide)
  obtain ⟨honce, hmissed⟩ := behindBitmap_counted (Machine.boot 0)
  refine ⟨m0, s, hm0, hs, hfree, hlive, ?_⟩
  exact ((pmm_free_pages_accounts behindBitmap (by unfold MmapEntry.PageAligned; decide) hapart
    (Machine.boot 0) m0 rfl hm0).1 honce hmissed twoAllocs).mpr
    (Room.along (of_decide_eq_true hroom))

theorem clearBits_card_from {lo : Nat} (hlow : ∀ j, j < lo → m.bit j = true)
    (hle : lo ≤ m.pmm_bitmap_len) :
    m.clearBits.card
      = ((List.range' lo (m.pmm_bitmap_len - lo)).filter fun j => !m.bit j).length := by
  have hnodup : ((List.range' lo (m.pmm_bitmap_len - lo)).filter fun j => !m.bit j).Nodup :=
    List.Nodup.filter _ List.nodup_range'
  rw [← List.toFinset_card_of_nodup hnodup]
  congr 1
  ext j
  rw [mem_clearBits, List.mem_toFinset, List.mem_filter, List.mem_range'_1]
  constructor
  · rintro ⟨hlt, hbit⟩
    refine ⟨⟨?_, by omega⟩, by rw [hbit]; rfl⟩
    by_contra hgt
    rw [hlow j (by omega)] at hbit
    exact Bool.noConfusion hbit
  · rintro ⟨⟨-, hlt⟩, hbit⟩
    exact ⟨by omega, by simpa using hbit⟩

/-- All memory up to a little over 32 MiB. -/
def lowMemory : List MmapEntry := [⟨0, 0x2010000, 1⟩]

/-- Frame `0x2000` is counted with its entry, then set aside for the bitmap: one page too
many is counted from the start. -/
theorem pmm_free_pages_overcounts :
    ∃ m0, pmm_init lowMemory (Machine.boot 0) = some ((), m0) ∧ m0.pmm_free_pages = 14
      ∧ m0.clearBits.card = 13 ∧ ¬ Accounts m0 := by
  have hrun : (pmm_init lowMemory (Machine.boot 0)).map (fun x => (x.2.pmm_free_pages,
      x.2.pmm_bitmap_len, ((List.range' 0x2000 16).filter fun j => !x.2.bit j).length))
        = some (14, 0x2010, 13) := by
    decide +kernel
  obtain ⟨⟨_, m0⟩, hm0, hall⟩ := Option.map_eq_some_iff.mp hrun
  injection hall with hfree hall
  injection hall with hlen hbits
  have hlen' : m0.pmm_bitmap_len = 0x2010 := hlen
  have hlow : ∀ j, j < 0x2000 → m0.bit j = true := by
    intro j hj
    exact pmm_init_low hm0 (by decide +kernel) (Nat.le_of_lt hj)
  have hcard : m0.clearBits.card = 13 := by
    rw [clearBits_card_from hlow (by omega), hlen']
    exact hbits
  refine ⟨m0, hm0, hfree, hcard, fun hacc => ?_⟩
  unfold Accounts at hacc
  rw [hcard, show m0.pmm_free_pages = 14 from hfree] at hacc
  exact absurd hacc (by decide)

end Count

end Quack.Arch
