/-
  Quack.Arch.Pmm
  **THE FRAME ALLOCATOR (`pmm.cpp`).**

  One bit per frame, set when the frame is in use, in 64-bit words from
  `PMM_MEMORY_BASE` on.  The search starts at frame `0x2000`, the frame of the
  bitmap itself.

  What the two do to the contents of the other frames and to the other bits is
  said once, by the lemmas on `take` and `give`; a frame that holds a part of
  the bitmap (`BitmapFrame`) is the exception everywhere.
-/
import Quack.Arch.Machine

namespace Quack.Arch

open Lib

/-! ## §1. The code. -/

def PMM_MEMORY_BASE : Nat := 0x2000000

def PAGE_SIZE : Nat := 4096

/-- The mask of bit `idx` in its word. -/
def pmm_mask (idx : Nat) : U64 := 1#64 <<< (idx % 64)

def pmm_bit_read (idx : Nat) : Prog Machine Bool := do
  let w ← load64 (PMM_MEMORY_BASE + 8 * (idx / 64))
  pure (w &&& pmm_mask idx == pmm_mask idx)

def pmm_bit_write (idx : Nat) (bit : Bool) : Nat → Prog Machine Unit
  | 0 => pure ()
  | count + 1 => do
    let w ← load64 (PMM_MEMORY_BASE + 8 * (idx / 64))
    store64 (PMM_MEMORY_BASE + 8 * (idx / 64))
      (if bit then w ||| pmm_mask idx else w &&& ~~~ pmm_mask idx)
    pmm_bit_write (idx + 1) bit count

def pmm_bitmap_is_free (idx : Nat) : Nat → Prog Machine Bool
  | 0 => pure true
  | count + 1 => do
    if ← pmm_bit_read idx then pure false
    else pmm_bitmap_is_free (idx + 1) count

def pmm_search (count alignment max_idx : Nat) : Nat → Nat → Prog Machine (Option Nat)
  | 0, idx => do
    Prog.check (max_idx ≤ idx)
    pure none
  | fuel + 1, idx =>
    if idx < max_idx then do
      if ← pmm_bitmap_is_free idx count then pure (some idx)
      else pmm_search count alignment max_idx fuel ((idx + alignment) % 2 ^ 64)
    else pure none

/-- The first index past the search. -/
def pmm_max_idx (len : Nat) (upper : U64) : Nat :=
  if upper = 0 then len else min len (upper.toNat / PAGE_SIZE)

def pmm_alloc_ex (count alignment upper : U64) : Prog Machine U64 := do
  let max_idx ← Prog.read (fun m => pmm_max_idx m.pmm_bitmap_len upper)
  -- upwards the sequence leaves the bitmap after at most `max_idx` passes; an
  -- alignment that wraps around steps down, at most to index 0
  match ← pmm_search count.toNat alignment.toNat max_idx
      (max_idx + PMM_MEMORY_BASE / PAGE_SIZE) (PMM_MEMORY_BASE / PAGE_SIZE) with
  | none => pure 0
  | some idx => do
    pmm_bit_write idx true count.toNat
    Prog.update (fun m =>
      if m.pmm_total_pages = 0 then m
      else { m with pmm_free_pages := m.pmm_free_pages - count })
    memset_page (idx * PAGE_SIZE)
    pure (BitVec.ofNat 64 (idx * PAGE_SIZE))

def pmm_alloc (count : U64) : Prog Machine U64 := pmm_alloc_ex count 1 0

def pmm_free (mem count : U64) : Prog Machine Unit := do
  pmm_bit_write (mem.toNat / PAGE_SIZE) false count.toNat
  Prog.update (fun m => { m with pmm_free_pages := m.pmm_free_pages + count })

/-! ## §2. Bits. -/

namespace Machine

/-- Is the bit of frame `idx` set? -/
def bit (m : Machine) (idx : Nat) : Bool := (m.mem (0x400000 + idx / 64)).getLsbD (idx % 64)

/-- Write the bit of frame `idx`. -/
def setBit (m : Machine) (idx : Nat) (b : Bool) : Machine :=
  m.setWord (0x400000 + idx / 64)
    (if b then m.mem (0x400000 + idx / 64) ||| pmm_mask idx
      else m.mem (0x400000 + idx / 64) &&& ~~~ pmm_mask idx)

/-- The frame holds a part of the bitmap. -/
def BitmapFrame (m : Machine) (f : Nat) : Prop :=
  0x2000 ≤ f ∧ 32768 * (f - 0x2000) < m.pmm_bitmap_len

/-- Hand out frame `f`: set its bit, count it, and clear it. -/
def take (m : Machine) (f : Nat) : Machine :=
  let m := m.setBit f true
  let m := if m.pmm_total_pages = 0 then m
    else { m with pmm_free_pages := m.pmm_free_pages - 1 }
  m.zeroWords (512 * f) 512

/-- Take frame `f` back. -/
def give (m : Machine) (f : Nat) : Machine :=
  { m.setBit f false with pmm_free_pages := m.pmm_free_pages + 1 }

end Machine

/-- The word of the bitmap with a bit. -/
theorem bitmap_word (idx : Nat) : (PMM_MEMORY_BASE + 8 * (idx / 64)) / 8 = 0x400000 + idx / 64 := by
  unfold PMM_MEMORY_BASE
  omega

/-- The test of `pmm_bit_read` is the bit. -/
theorem and_pmm_mask (w : U64) (idx : Nat) :
    (w &&& pmm_mask idx == pmm_mask idx) = w.getLsbD (idx % 64) := by
  have hk : idx % 64 < 64 := Nat.mod_lt _ (by omega)
  show (w &&& BitVec.twoPow 64 (idx % 64) == BitVec.twoPow 64 (idx % 64)) = _
  rw [BitVec.and_twoPow]
  cases h : w.getLsbD (idx % 64) with
  | true => simp
  | false =>
    have hne : (0#64 == BitVec.twoPow 64 (idx % 64)) = false := by
      rw [beq_eq_false_iff_ne]
      intro he
      have hbit := congrArg (fun v : U64 => v.getLsbD (idx % 64)) he
      simp [hk] at hbit
    simpa using hne

/-- The mask has one bit. -/
theorem getLsbD_pmm_mask (idx k : Nat) (hk : k < 64) :
    (pmm_mask idx).getLsbD k = decide (idx % 64 = k) := by
  show (BitVec.twoPow 64 (idx % 64)).getLsbD k = _
  rw [BitVec.getLsbD_twoPow]
  simp
  omega

namespace Machine

/-- **Writing a bit changes that bit only.** -/
theorem bit_setBit (m : Machine) (idx j : Nat) (b : Bool) :
    (m.setBit idx b).bit j = if j = idx then b else m.bit j := by
  have hj : j % 64 < 64 := Nat.mod_lt _ (by omega)
  unfold bit setBit
  by_cases hw : j / 64 = idx / 64
  · rw [hw, setWord_mem_self]
    have hiff : (idx % 64 = j % 64) ↔ j = idx := by omega
    cases b with
    | true =>
      simp only [if_true, BitVec.getLsbD_or, getLsbD_pmm_mask idx _ hj, hiff]
      by_cases h : j = idx <;> simp [h]
    | false =>
      simp only [Bool.false_eq_true, if_false, BitVec.getLsbD_and, BitVec.getLsbD_not,
        getLsbD_pmm_mask idx _ hj, hiff, hj]
      by_cases h : j = idx <;> simp [h]
  · rw [setWord_mem_ne _ _ (by omega), if_neg (by omega)]

/-- A write to the bitmap leaves the other frames alone. -/
theorem setBit_slot (m : Machine) {idx g j : Nat} (b : Bool) (hidx : idx < m.pmm_bitmap_len)
    (hj : j < 512) (hg : ¬ m.BitmapFrame g) : (m.setBit idx b).slot g j = m.slot g j := by
  apply setWord_slot_ne _ _ hj
  intro he
  apply hg
  unfold BitmapFrame
  omega

/-- A write outside the bitmap leaves the bits alone. -/
theorem setWord_bit (m : Machine) {w idx : Nat} (v : U64) (hidx : idx < m.pmm_bitmap_len)
    (hw : ¬ m.BitmapFrame (w / 512)) : (m.setWord w v).bit idx = m.bit idx := by
  unfold bit
  rw [setWord_mem_ne]
  intro he
  apply hw
  unfold BitmapFrame
  omega

/-- So does clearing a frame outside it. -/
theorem zeroWords_bit (m : Machine) {f idx : Nat} (hidx : idx < m.pmm_bitmap_len)
    (hf : ¬ m.BitmapFrame f) : (m.zeroWords (512 * f) 512).bit idx = m.bit idx := by
  unfold bit zeroWords
  simp only
  rw [if_neg]
  intro he
  apply hf
  unfold BitmapFrame
  omega

end Machine

/-! ## §3. Single bits. -/

variable {m m' : Machine}

/-- `pmm_bit_read` returns the bit. -/
@[simp] theorem pmm_bit_read_eq_some {idx : Nat} {b : Bool} :
    pmm_bit_read idx m = some (b, m')
      ↔ PMM_MEMORY_BASE + 8 * (idx / 64) < phys_window ∧ m.bit idx = b ∧ m = m' := by
  unfold pmm_bit_read
  simp only [Prog.bind_eq_some, load64_eq_some, Prog.pure_eq_some, bitmap_word, and_pmm_mask]
  constructor
  · rintro ⟨w, t, ⟨hwin, rfl, rfl⟩, hb, rfl⟩
    exact ⟨hwin, hb, rfl⟩
  · rintro ⟨hwin, hb, rfl⟩
    exact ⟨_, m, ⟨hwin, rfl, rfl⟩, hb, rfl⟩

/-- `pmm_bit_write` of one page writes the bit. -/
@[simp] theorem pmm_bit_write_one {idx : Nat} {b : Bool} {u : Unit} :
    pmm_bit_write idx b 1 m = some (u, m')
      ↔ PMM_MEMORY_BASE + 8 * (idx / 64) < phys_window ∧ m.setBit idx b = m' := by
  unfold pmm_bit_write pmm_bit_write
  simp only [Prog.bind_eq_some, load64_eq_some, store64_eq_some, Prog.pure_eq_some, bitmap_word]
  constructor
  · rintro ⟨w, t, ⟨hwin, rfl, rfl⟩, _, t', ⟨-, rfl⟩, -, rfl⟩
    exact ⟨hwin, rfl⟩
  · rintro ⟨hwin, rfl⟩
    exact ⟨_, m, ⟨hwin, rfl, rfl⟩, (), _, ⟨hwin, rfl⟩, trivial, rfl⟩

/-! ## §4. Taking and giving. -/

namespace Machine

/-- Taking a frame changes no variable but the count. -/
theorem take_vars (m : Machine) (f : Nat) : m.SameVars (m.take f) := by
  unfold take
  dsimp only
  split <;> exact ⟨rfl, rfl, rfl, rfl⟩

@[simp] theorem take_pmm_bitmap_len (m : Machine) (f : Nat) :
    (m.take f).pmm_bitmap_len = m.pmm_bitmap_len :=
  (m.take_vars f).len

/-- The count goes down by one. -/
theorem take_free_pages (m : Machine) (f : Nat) (h : m.pmm_total_pages ≠ 0) :
    (m.take f).pmm_free_pages = m.pmm_free_pages - 1 := by
  unfold take
  dsimp only
  rw [if_neg (show ¬ (m.setBit f true).pmm_total_pages = 0 from h)]
  rfl

theorem take_mem (m : Machine) (f : Nat) :
    (m.take f).mem = ((m.setBit f true).zeroWords (512 * f) 512).mem := by
  unfold take
  dsimp only
  split <;> rfl

variable {f j g : Nat}

/-- A frame that is taken is zero. -/
theorem take_slot_self (m : Machine) (hj : j < 512) : (m.take f).slot f j = 0 := by
  unfold slot
  rw [take_mem]
  exact zeroWords_slot_self _ hj

/-- The other frames keep their words. -/
theorem take_slot (m : Machine) (hf : f < m.pmm_bitmap_len) (hj : j < 512)
    (hg : ¬ m.BitmapFrame g) (hne : g ≠ f) : (m.take f).slot g j = m.slot g j := by
  have hzero := zeroWords_slot_ne (m.setBit f true) hj hne
  have hset := setBit_slot m true hf hj hg
  unfold slot at hzero hset ⊢
  rw [take_mem, hzero, hset]

/-- **The bit of the frame is set**, the others are kept. -/
theorem take_bit (m : Machine) (hj : j < m.pmm_bitmap_len)
    (hf : ¬ m.BitmapFrame f) : (m.take f).bit j = if j = f then true else m.bit j := by
  have hzero : ((m.setBit f true).zeroWords (512 * f) 512).bit j = (m.setBit f true).bit j :=
    zeroWords_bit (m.setBit f true) hj hf
  have hset := bit_setBit m f j true
  unfold bit at hzero hset ⊢
  rw [take_mem, hzero, hset]

/-- Giving a frame back touches the bitmap only. -/
theorem give_slot (m : Machine) (hf : f < m.pmm_bitmap_len) (hj : j < 512)
    (hg : ¬ m.BitmapFrame g) : (m.give f).slot g j = m.slot g j :=
  setBit_slot m false hf hj hg

/-- **The bit of the frame is cleared**, the others are kept. -/
theorem give_bit (m : Machine) (f j : Nat) :
    (m.give f).bit j = if j = f then false else m.bit j :=
  bit_setBit m f j false

end Machine

end Quack.Arch
