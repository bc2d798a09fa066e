/-
  Quack.Arch.PmmInit
  **`pmm_init`: FROM THE MEMORY MAP TO THE BITMAP.**

  The bitmap is put at 32 MiB, one bit per frame up to the top of the available
  memory, and all bits are set; then the frames of the available entries are
  freed, and the frames of the bitmap taken out again.

  `Freed` says which frames an entry frees, and `LeftClear` which bits are clear at
  the end, both in terms of the map and of what the memory held before:

    • `pmm_init_sound`    — every frame that is left free is fit for use exactly
      if the map is `Fitting`.
-/
import Quack.Arch.PmmRanges

namespace Quack.Arch

open Lib

/-! ## §1. The code. -/

/-- `multiboot_memory_map_t`. -/
structure MmapEntry where
  addr : U64
  len : U64
  type : BitVec 32
  deriving Repr, DecidableEq

def MULTIBOOT_MEMORY_AVAILABLE : BitVec 32 := 1

def ROUND_UP (n s : U64) : U64 := (n + s - 1) / s * s

def ROUND_DOWN (n s : U64) : U64 := n / s * s

/-- `OVERLAPS`: `a` is inside `b`. -/
def OVERLAPS (a size_a b size_b : U64) : Bool := a ≥ b && a + size_a ≤ b + size_b

def pmm_find_avail_memory_top (mmap : List MmapEntry) : U64 :=
  mmap.foldl (fun top e =>
    if e.type = MULTIBOOT_MEMORY_AVAILABLE then
      if e.addr + e.len > top then e.addr + e.len else top
    else top) 0

def boot_window : Nat := 512 * 0x200000

/-- Set `n` bytes from word `w` on to `0xFF`. -/
def Machine.fillBytes (m : Machine) (w n : Nat) : Machine :=
  { m with mem := fun x =>
      if w ≤ x then (m.mem x) ||| BitVec.ofNat 64 (2 ^ (8 * min 8 (n - 8 * (x - w))) - 1)
      else (m.mem x) }

/-- `memset(phys, 0xFF, n)`. -/
def memset_ones (phys n : Nat) : Prog Machine Unit := do
  Prog.check (phys + n ≤ phys_window)
  Prog.update (fun m => m.fillBytes (phys / 8) n)

/-- The physical address of the bitmap. -/
def bitmap_phys : U64 := BitVec.ofNat 64 PMM_MEMORY_BASE

namespace MmapEntry

/-- `start` and `len`, rounded. -/
def start (e : MmapEntry) : U64 := ROUND_UP e.addr 4096

def size (e : MmapEntry) : U64 := ROUND_DOWN e.len 4096

/-- `start` and `len`, clipped at the base. -/
def clippedStart (e : MmapEntry) : U64 := if e.start < bitmap_phys then bitmap_phys else e.start

def clippedSize (e : MmapEntry) : U64 :=
  if e.start < bitmap_phys then e.size - (bitmap_phys - e.start) else e.size

/-- The entry is not passed over. -/
def counts (e : MmapEntry) : Bool :=
  e.type = MULTIBOOT_MEMORY_AVAILABLE && e.size ≠ 0 && !(e.start + e.size < bitmap_phys)

end MmapEntry

/-- The body of the loop of `pmm_init`. -/
def pmm_init_entry (e : MmapEntry) : Prog Machine Unit := do
  if e.counts then
    let start := e.clippedStart
    let len := e.clippedSize
    let bytes ← Prog.read (fun m => BitVec.ofNat 64 (m.pmm_bitmap_len / 8))
    if OVERLAPS bitmap_phys bytes start len then
      if start < bitmap_phys then pmm_free start ((start - bitmap_phys) / 4096)
      pmm_free (bitmap_phys + bytes) ((len - bytes) / 4096)
    else pmm_free start (len / 4096)

/-- The loop over the map. -/
def pmm_init_entries : List MmapEntry → Prog Machine Unit
  | [] => pure ()
  | e :: mmap => do
    pmm_init_entry e
    pmm_init_entries mmap

/-- `mem_pages`, a `uint32_t`. -/
def pmm_mem_pages (mmap : List MmapEntry) : BitVec 32 :=
  ((pmm_find_avail_memory_top mmap + 4096 - 1) / 4096).setWidth 32

/-- The number of frames of a bitmap of `len` bits, as `pmm_init` computes it. -/
def pmm_bitmap_pages (len : Nat) : U64 := (BitVec.ofNat 64 (len / 8) + 4096 - 1) / 4096

/-- `pmm_init` up to its last step: the bitmap is filled in. -/
def pmm_init_bitmap (mmap : List MmapEntry) : Prog Machine Unit := do
  let len := (pmm_mem_pages mmap).toNat
  Prog.update (fun m => { m with pmm_bitmap_len := len })
  memset_ones bitmap_phys.toNat (len / 8)
  pmm_init_entries mmap
  Prog.update (fun m => { m with pmm_total_pages := m.pmm_free_pages })
  pmm_bit_write (bitmap_phys.toNat / PAGE_SIZE) true (pmm_bitmap_pages len).toNat

def pmm_init (mmap : List MmapEntry) : Prog Machine Unit := do
  pmm_init_bitmap mmap
  let page ← pmm_alloc (pmm_bitmap_pages (pmm_mem_pages mmap).toNat)
  -- the page is cleared through the window of `boot.asm`
  Prog.check (page.toNat + 4096 ≤ boot_window)

/-! ## §2. What an entry frees. -/

def freedBy (bits : Nat) (e : MmapEntry) : Option (U64 × U64) :=
  let bytes := BitVec.ofNat 64 (bits / 8)
  if e.counts then
    if OVERLAPS bitmap_phys bytes e.clippedStart e.clippedSize then
      some (bitmap_phys + bytes, (e.clippedSize - bytes) / 4096)
    else some (e.clippedStart, e.clippedSize / 4096)
  else none

namespace MmapEntry

/-- The rounded range begins with this frame, … -/
def first (e : MmapEntry) : Nat := (e.addr.toNat + 4095) % 2 ^ 64 / 4096

/-- … and ends before this one. -/
def stop (e : MmapEntry) : Nat := e.first + e.len.toNat / 4096

/-- A bitmap of `bits` bits lies in the range. -/
def HoldsBitmap (e : MmapEntry) (bits : Nat) : Prop :=
  e.first ≤ 0x2000 ∧ PMM_MEMORY_BASE + bits / 8 ≤ 4096 * e.stop

end MmapEntry

/-- **The entry frees frame `j`.** -/
structure Freed (bits : Nat) (e : MmapEntry) (j : Nat) : Prop where
  available : e.type = MULTIBOOT_MEMORY_AVAILABLE
  /-- The end of the range is computed in 64 bits. -/
  counted : PMM_MEMORY_BASE ≤ 4096 * e.stop % 2 ^ 64
  low : 0x2000 ≤ j
  first : e.first ≤ j
  stop : j < e.stop
  /-- The bytes of the bitmap are cut off in front, and the last frame with them, unless
  they are whole frames. -/
  bitmap : e.HoldsBitmap bits → 0x2000 + bits / 8 / 4096 ≤ j ∧ (bits / 8 % 4096 = 0 ∨ j + 1 < e.stop)

section Entries

variable {m m' : Machine} {u : Unit}

theorem clippedStart_ge (e : MmapEntry) : ¬ e.clippedStart < bitmap_phys := by
  unfold MmapEntry.clippedStart
  split
  · exact fun h => absurd h (by decide)
  · assumption

variable {e : MmapEntry}

theorem pmm_init_entry_eq (e : MmapEntry) (m : Machine) :
    pmm_init_entry e m
      = (freedBy m.pmm_bitmap_len e).elim (some ((), m)) (fun r => pmm_free r.1 r.2 m) := by
  unfold pmm_init_entry freedBy
  dsimp only
  by_cases hcounts : e.counts
  · rw [if_pos hcounts, if_pos hcounts, Prog.bind_apply (Prog.read_eq_some.mpr ⟨rfl, rfl⟩),
      if_neg (clippedStart_ge e)]
    split_ifs <;> rfl
  · rw [if_neg hcounts, if_neg hcounts]
    rfl

theorem pmm_init_entry_free (h : pmm_init_entry e m = some (u, m')) :
    (freedBy m.pmm_bitmap_len e = none ∧ m' = m)
    ∨ ∃ s c, freedBy m.pmm_bitmap_len e = some (s, c) ∧ pmm_free s c m = some (u, m') := by
  rw [pmm_init_entry_eq] at h
  cases hfree : freedBy m.pmm_bitmap_len e with
  | none =>
    rw [hfree] at h
    exact Or.inl ⟨rfl, (Prog.pure_eq_some.mp h).2.symm⟩
  | some r =>
    rw [hfree] at h
    exact Or.inr ⟨r.1, r.2, rfl, h⟩

theorem pmm_init_entry_eq_some (h : pmm_init_entry e m = some (u, m')) :
    (freedBy m.pmm_bitmap_len e = none ∧ m' = m)
    ∨ ∃ s c, freedBy m.pmm_bitmap_len e = some (s, c)
        ∧ m' = m.giveRange (s.toNat / 4096) c.toNat := by
  rcases pmm_init_entry_free h with hnone | ⟨s, c, hsome, hfree⟩
  · exact Or.inl hnone
  · exact Or.inr ⟨s, c, hsome, pmm_free_range hfree⟩

theorem MmapEntry.start_toNat (e : MmapEntry) : e.start.toNat = 4096 * e.first := by
  have hsum : (e.addr + 4096 - 1).toNat = (e.addr.toNat + 4095) % 2 ^ 64 := by
    rw [BitVec.toNat_sub, BitVec.toNat_add]
    show (2 ^ 64 - 1 + (e.addr.toNat + 4096) % 2 ^ 64) % 2 ^ 64 = _
    omega
  unfold MmapEntry.start ROUND_UP MmapEntry.first
  rw [BitVec.toNat_mul, BitVec.toNat_udiv, hsum]
  show (e.addr.toNat + 4095) % 2 ^ 64 / 4096 * 4096 % 2 ^ 64 = _
  omega

theorem MmapEntry.size_toNat (e : MmapEntry) : e.size.toNat = 4096 * (e.len.toNat / 4096) := by
  have hlt := e.len.isLt
  unfold MmapEntry.size ROUND_DOWN
  rw [BitVec.toNat_mul, BitVec.toNat_udiv]
  show e.len.toNat / 4096 * 4096 % 2 ^ 64 = _
  omega

theorem MmapEntry.counts_iff :
    e.counts ↔ e.type = MULTIBOOT_MEMORY_AVAILABLE ∧ e.first < e.stop
      ∧ PMM_MEMORY_BASE ≤ 4096 * e.stop % 2 ^ 64 := by
  have hbase : bitmap_phys.toNat = PMM_MEMORY_BASE := rfl
  have hsize : e.size ≠ 0 ↔ e.first < e.stop := by
    rw [ne_eq, ← BitVec.toNat_inj, e.size_toNat, show (0 : U64).toNat = 0 from rfl]
    unfold MmapEntry.stop
    omega
  have hsum : (e.start + e.size).toNat = 4096 * e.stop % 2 ^ 64 := by
    rw [BitVec.toNat_add, e.start_toNat, e.size_toNat]
    unfold MmapEntry.stop
    rw [Nat.mul_add]
  unfold MmapEntry.counts
  simp only [Bool.and_eq_true, decide_eq_true_eq, Bool.not_eq_true', decide_eq_false_iff_not,
    BitVec.lt_def, hsum, hbase, hsize, Nat.not_lt, and_assoc]

theorem MmapEntry.clipped_toNat (hcounts : e.counts) :
    e.clippedStart.toNat = 4096 * max 0x2000 e.first
      ∧ e.clippedStart.toNat + e.clippedSize.toNat = 4096 * e.stop
      ∧ (e.first ≤ 0x2000 → 4096 * e.stop < 2 ^ 64) := by
  have hbase : bitmap_phys.toNat = 0x2000000 := rfl
  have hstart := e.start_toNat
  have hsize := e.size_toNat
  have hlt := e.size.isLt
  obtain ⟨-, -, hge⟩ := MmapEntry.counts_iff.mp hcounts
  unfold PMM_MEMORY_BASE at hge
  unfold MmapEntry.stop at hge ⊢
  unfold MmapEntry.clippedStart MmapEntry.clippedSize
  by_cases hclip : e.start < bitmap_phys
  · rw [if_pos hclip, if_pos hclip, BitVec.toNat_sub, BitVec.toNat_sub, hbase]
    rw [BitVec.lt_def, hstart, hbase] at hclip
    rw [hstart, hsize]
    omega
  · rw [if_neg hclip, if_neg hclip, hstart, hsize]
    rw [BitVec.lt_def, hstart, hbase] at hclip
    omega

theorem freedBy_range {bits : Nat} (hbits : bits < 2 ^ 32) {s c : U64}
    (h : freedBy bits e = some (s, c)) :
    e.counts
      ∧ (e.HoldsBitmap bits ∧ s.toNat / 4096 = 0x2000 + bits / 8 / 4096
          ∧ s.toNat / 4096 + c.toNat + (if bits / 8 % 4096 = 0 then 0 else 1) = e.stop
        ∨ ¬ e.HoldsBitmap bits ∧ s.toNat / 4096 = max 0x2000 e.first
          ∧ s.toNat / 4096 + c.toNat = e.stop) := by
  have hbase : bitmap_phys.toNat = 0x2000000 := rfl
  have hbytes : (BitVec.ofNat 64 (bits / 8)).toNat = bits / 8 := by
    rw [BitVec.toNat_ofNat]
    omega
  unfold freedBy at h
  dsimp only at h
  by_cases hcounts : e.counts
  swap
  · rw [if_neg hcounts] at h
    cases h
  obtain ⟨hstart, hsum, hwrap⟩ := MmapEntry.clipped_toNat hcounts
  have hlt := e.clippedStart.isLt
  have hov : OVERLAPS bitmap_phys (BitVec.ofNat 64 (bits / 8)) e.clippedStart e.clippedSize
      = true ↔ e.HoldsBitmap bits := by
    unfold OVERLAPS MmapEntry.HoldsBitmap PMM_MEMORY_BASE
    simp only [ge_iff_le, Bool.and_eq_true, decide_eq_true_eq, BitVec.le_def,
      BitVec.toNat_add, hbytes, hbase, hsum]
    omega
  refine ⟨hcounts, ?_⟩
  rw [if_pos hcounts] at h
  split at h
  · next hin =>
      have hin := hov.mp hin
      cases h
      refine Or.inl ⟨hin, ?_⟩
      unfold MmapEntry.HoldsBitmap PMM_MEMORY_BASE at hin
      rw [BitVec.toNat_udiv, BitVec.toNat_sub, BitVec.toNat_add, hbytes, hbase]
      show (0x2000000 + bits / 8) % 2 ^ 64 / 4096 = _ ∧ (0x2000000 + bits / 8) % 2 ^ 64 / 4096
        + (2 ^ 64 - bits / 8 + e.clippedSize.toNat) % 2 ^ 64 / 4096 + _ = _
      split <;> omega
  · next hout =>
      cases h
      refine Or.inr ⟨fun hin => hout (hov.mpr hin), ?_⟩
      rw [BitVec.toNat_udiv, hstart]
      show _ ∧ _ + e.clippedSize.toNat / 4096 = _
      omega

theorem freedBy_iff {bits : Nat} (hbits : bits < 2 ^ 32) {j : Nat} :
    (∃ s c, freedBy bits e = some (s, c) ∧ s.toNat / 4096 ≤ j ∧ j < s.toNat / 4096 + c.toNat)
      ↔ Freed bits e j := by
  constructor
  · rintro ⟨s, c, h, hlo, hhi⟩
    obtain ⟨hcounts, hcase⟩ := freedBy_range hbits h
    obtain ⟨htype, -, hend⟩ := MmapEntry.counts_iff.mp hcounts
    rcases hcase with ⟨hin, hs, hc⟩ | ⟨hout, hs, hc⟩
    · have hfirst := hin.1
      split at hc
      · exact ⟨htype, hend, by omega, by omega, by omega, fun _ => ⟨by omega, Or.inl ‹_›⟩⟩
      · exact ⟨htype, hend, by omega, by omega, by omega, fun _ => ⟨by omega, by omega⟩⟩
    · exact ⟨htype, hend, by omega, by omega, by omega, fun hin => absurd hin hout⟩
  · intro h
    have hcounts : e.counts :=
      MmapEntry.counts_iff.mpr ⟨h.available, Nat.lt_of_le_of_lt h.first h.stop, h.counted⟩
    obtain ⟨⟨s, c⟩, hsc⟩ : ∃ r, freedBy bits e = some r := by
      unfold freedBy
      rw [if_pos hcounts]
      split
      · exact ⟨_, rfl⟩
      · exact ⟨_, rfl⟩
    obtain ⟨-, ⟨hin, hs, hc⟩ | ⟨-, hs, hc⟩⟩ := freedBy_range hbits hsc
    · obtain ⟨hlo, hhi⟩ := h.bitmap hin
      have hstop := h.stop
      exact ⟨s, c, hsc, by omega, by split at hc <;> omega⟩
    · have hlow := h.low
      have hfirst := h.first
      have hstop := h.stop
      exact ⟨s, c, hsc, by omega, by omega⟩

theorem pmm_init_entries_eq_some (mmap : List MmapEntry) (m : Machine)
    (hlen : m.pmm_bitmap_len < 2 ^ 32) (h : pmm_init_entries mmap m = some (u, m')) :
    m.SameVars m'
      ∧ ∀ j, m'.bit j = false
          ↔ m.bit j = false ∨ ∃ e ∈ mmap, Freed m.pmm_bitmap_len e j := by
  induction mmap generalizing m with
  | nil =>
    obtain ⟨-, rfl⟩ := Prog.pure_eq_some.mp h
    exact ⟨Machine.SameVars.refl m, fun j => by simp⟩
  | cons e mmap ih =>
    unfold pmm_init_entries at h
    obtain ⟨_, t, hentry, hrest⟩ := Prog.bind_eq_some.mp h
    have hfreed : ∀ j, Freed m.pmm_bitmap_len e j ↔ _ := fun j => (freedBy_iff hlen).symm
    rcases pmm_init_entry_eq_some hentry with ⟨hnone, rfl⟩ | ⟨s, c, hsome, rfl⟩
    · obtain ⟨hsame, hbits⟩ := ih t hlen hrest
      refine ⟨hsame, fun j => ?_⟩
      rw [hbits]
      simp [hfreed, hnone]
    · have hvars := m.giveRange_vars (s.toNat / 4096) c.toNat
      obtain ⟨hsame, hbits⟩ := ih _ (by rw [hvars.len]; exact hlen) hrest
      rw [hvars.len] at hbits
      refine ⟨hvars.trans hsame, fun j => ?_⟩
      rw [hbits, m.giveRange_bit]
      by_cases hj : s.toNat / 4096 ≤ j ∧ j < s.toNat / 4096 + c.toNat
      · simp [hfreed, hsome, hj]
      · simp [hfreed, hsome, hj]

end Entries

/-! ## §3. The bitmap after `pmm_init`. -/

theorem Machine.fillBytes_bit (m : Machine) (n j : Nat) :
    (m.fillBytes 0x400000 n).bit j = (decide (j < 8 * n) || m.bit j) := by
  have hj : j % 64 < 64 := Nat.mod_lt _ (by omega)
  unfold Machine.bit Machine.fillBytes
  simp only
  rw [if_pos (by omega), BitVec.getLsbD_or, BitVec.getLsbD_ofNat, Nat.testBit_two_pow_sub_one,
    Bool.or_comm]
  have hiff : (j % 64 < 8 * min 8 (n - 8 * (j / 64))) ↔ j < 8 * n := by
    omega
  simp [hj, hiff]

section Init

variable (mmap : List MmapEntry) (m : Machine)

/-- The length of the bitmap. -/
def bitmapLen : Nat := (pmm_mem_pages mmap).toNat

/-- The number of frames set aside for the bitmap. -/
abbrev bitmapFrames : Nat := (pmm_bitmap_pages (bitmapLen mmap)).toNat

/-- The frame is one of those set aside for the bitmap. -/
def Reserved (j : Nat) : Prop :=
  0x2000 ≤ j ∧ j < 0x2000 + bitmapFrames mmap

/-- The bit was not set at the start: the bytes are counted with `len / 8`. -/
def Unset (j : Nat) : Prop := 8 * (bitmapLen mmap / 8) ≤ j ∧ m.bit j = false

/-- The bit is clear when the bitmap's frames have been set aside. -/
def Vacant (j : Nat) : Prop :=
  ¬ Reserved mmap j ∧ (Unset mmap m j ∨ ∃ e ∈ mmap, Freed (bitmapLen mmap) e j)

/-- The `pmm_alloc` at the end of `pmm_init` takes the frames from `f` on. -/
def Taken (f : Nat) : Prop :=
  0x2000 ≤ f ∧ f < bitmapLen mmap
    ∧ (∀ j, f ≤ j → j < f + bitmapFrames mmap → Vacant mmap m j)
    ∧ ∀ g, 0x2000 ≤ g → g < f →
        ∃ j, g ≤ j ∧ j < g + bitmapFrames mmap ∧ ¬ Vacant mmap m j

/-- The frame is not one of those. -/
def Spare (j : Nat) : Prop :=
  ∀ f, Taken mmap m f → ¬ (f ≤ j ∧ j < f + bitmapFrames mmap)

/-- The word of bit `j` lies in the frame that is cleared at the end. -/
def Wiped (j : Nat) : Prop := ∃ f, Taken mmap m f ∧ j / 32768 = f - 0x2000

/-- **The bits that are clear after `pmm_init`.** -/
def LeftClear (j : Nat) : Prop := (Vacant mmap m j ∧ Spare mmap m j) ∨ Wiped mmap m j

end Init

section Bits

variable {mmap : List MmapEntry} {m m' : Machine} {u : Unit}

theorem bitmapLen_lt : bitmapLen mmap < 2 ^ 32 := (pmm_mem_pages mmap).isLt

theorem bitmapFrames_eq (mmap : List MmapEntry) :
    bitmapFrames mmap = (bitmapLen mmap / 8 + 4095) / 4096 := by
  have hlen := @bitmapLen_lt mmap
  unfold bitmapFrames
  generalize bitmapLen mmap = len at hlen ⊢
  have hsum : (BitVec.ofNat 64 (len / 8) + 4096 - 1).toNat = len / 8 + 4095 := by
    rw [BitVec.toNat_sub, BitVec.toNat_add, BitVec.toNat_ofNat]
    show (2 ^ 64 - 1 + (len / 8 % 2 ^ 64 + 4096) % 2 ^ 64) % 2 ^ 64 = _
    omega
  unfold pmm_bitmap_pages
  rw [BitVec.toNat_udiv, hsum]
  rfl

/-- The machine before the last `pmm_alloc`. -/
structure SetUp (mmap : List MmapEntry) (m t : Machine) : Prop where
  len : t.pmm_bitmap_len = bitmapLen mmap
  total : t.pmm_total_pages = t.pmm_free_pages
  bits : ∀ j, t.bit j = false ↔ Vacant mmap m j

variable {t : Machine}

theorem pmm_init_bitmap_cases (h : pmm_init_bitmap mmap m = some (u, t)) :
    ∃ t1, pmm_init_entries mmap (Machine.fillBytes { m with pmm_bitmap_len := bitmapLen mmap }
        (bitmap_phys.toNat / 8) (bitmapLen mmap / 8)) = some ((), t1)
      ∧ t = Machine.setBits true (bitmap_phys.toNat / PAGE_SIZE)
        { t1 with pmm_total_pages := t1.pmm_free_pages }
        (bitmapFrames mmap) := by
  unfold pmm_init_bitmap memset_ones at h
  simp only [Prog.bind_eq_some, Prog.update_eq_some, Prog.check_eq_some] at h
  obtain ⟨_, _, rfl, _, _, ⟨_, _, ⟨-, rfl⟩, rfl⟩, _, t1, hentries, _, _, rfl, hwrite⟩ := h
  exact ⟨t1, hentries, pmm_bit_write_eq_some _ _ _ hwrite⟩

theorem pmm_init_bitmap_eq_some (h : pmm_init_bitmap mmap m = some (u, t)) :
    SetUp mmap m t := by
  obtain ⟨t1, hentries, rfl⟩ := pmm_init_bitmap_cases h
  obtain ⟨hsame, hbits⟩ := pmm_init_entries_eq_some _ _ bitmapLen_lt hentries
  obtain ⟨hvars, hfree⟩ := Machine.setBits_vars true (bitmapFrames mmap)
    (bitmap_phys.toNat / PAGE_SIZE) { t1 with pmm_total_pages := t1.pmm_free_pages }
  refine ⟨hvars.len.trans hsame.len, hvars.total.trans hfree.symm, fun j => ?_⟩
  rw [Machine.bit_setBits]
  have hword : bitmap_phys.toNat / 8 = 0x400000 := rfl
  have hframe : bitmap_phys.toNat / PAGE_SIZE = 0x2000 := rfl
  have hstart := (hbits j).trans (or_congr_left (b := Unset mmap m j) (by
    rw [hword, Machine.fillBytes_bit, Bool.or_eq_false_iff, decide_eq_false_iff_not]
    exact and_congr_left fun _ => Nat.not_lt))
  rw [hframe]
  show (if 0x2000 ≤ j ∧ j < 0x2000 + bitmapFrames mmap then true
    else t1.bit j) = false ↔ _
  split
  · next hres => exact iff_of_false (by decide) fun hv => hv.1 hres
  · next hres => exact hstart.trans ⟨fun hj => ⟨hres, hj⟩, fun hj => hj.2⟩

theorem pmm_init_eq_some (h : pmm_init mmap m = some (u, m')) :
    ∃ t p, SetUp mmap m t ∧ pmm_alloc (pmm_bitmap_pages (bitmapLen mmap)) t = some (p, m')
      ∧ p.toNat + 4096 ≤ boot_window := by
  unfold pmm_init at h
  simp only [Prog.bind_eq_some, Prog.check_eq_some] at h
  obtain ⟨_, t, hbitmap, p, _, halloc, hboot, rfl⟩ := h
  exact ⟨t, p, pmm_init_bitmap_eq_some hbitmap, halloc, hboot⟩

theorem SetUp.free_iff (ht : SetUp mmap m t) (f count : Nat) :
    t.Free f count ↔ ∀ j, f ≤ j → j < f + count → Vacant mmap m j := by
  unfold Machine.Free
  simp only [ht.bits]

theorem SetUp.firstFit_iff (ht : SetUp mmap m t) (f : Nat) :
    FirstFit t (bitmapFrames mmap) 1 (bitmapLen mmap) 0x2000 f
      ↔ Taken mmap m f := by
  have hno : ∀ g, ¬ t.Free g (bitmapFrames mmap)
      ↔ ∃ j, g ≤ j ∧ j < g + bitmapFrames mmap ∧ ¬ Vacant mmap m j := by
    intro g
    rw [ht.free_iff]
    push Not
    rfl
  constructor
  · rintro ⟨n, rfl, hlt, hfree, hbefore⟩
    refine ⟨by omega, hlt, (ht.free_iff _ _).mp hfree, ?_⟩
    intro g hg hgf
    have := hbefore (g - 0x2000) (by omega)
    rw [show 0x2000 + (g - 0x2000) * 1 = g by omega] at this
    exact (hno g).mp this
  · rintro ⟨hlow, hlt, hfree, hbefore⟩
    refine ⟨f - 0x2000, by omega, hlt, (ht.free_iff _ _).mpr hfree, ?_⟩
    intro i hi
    exact (hno _).mpr (hbefore (0x2000 + i * 1) (by omega) (by omega))

theorem Taken.unique {f g : Nat} (hf : Taken mmap m f) (hg : Taken mmap m g) : f = g := by
  obtain ⟨hf1, -, hf3, hf4⟩ := hf
  obtain ⟨hg1, -, hg3, hg4⟩ := hg
  rcases Nat.lt_trichotomy f g with hlt | heq | hlt
  · obtain ⟨j, hj1, hj2, hno⟩ := hg4 f hf1 hlt
    exact absurd (hf3 j hj1 hj2) hno
  · exact heq
  · obtain ⟨j, hj1, hj2, hno⟩ := hf4 g hg1 hlt
    exact absurd (hg3 j hj1 hj2) hno

theorem NoFit.not_taken (ht : SetUp mmap m t)
    (h : NoFit t (bitmapFrames mmap) 1 (bitmapLen mmap) 0x2000) (f : Nat) :
    ¬ Taken mmap m f := by
  intro hf
  obtain ⟨n, rfl, hlt, hfree, -⟩ := (ht.firstFit_iff f).mpr hf
  exact h n hlt hfree

theorem SetUp.alloc (ht : SetUp mmap m t) {p : U64}
    (h : pmm_alloc (pmm_bitmap_pages (bitmapLen mmap)) t = some (p, m')) :
    (p = 0 ∧ m' = t ∧ ∀ f, ¬ Taken mmap m f)
    ∨ ∃ f, p = BitVec.ofNat 64 (4096 * f) ∧ Taken mmap m f
        ∧ m' = t.takeRange f (bitmapFrames mmap) := by
  have hlen := @bitmapLen_lt mmap
  have hmax : pmm_max_idx t.pmm_bitmap_len 0 = bitmapLen mmap := ht.len
  rcases pmm_alloc_ex_cases (by rw [ht.len]; omega) (fun hal => absurd hal (by decide)) h with
    ⟨rfl, rfl, hno⟩ | ⟨f, rfl, rfl, -, hfit⟩
  · rw [hmax] at hno
    exact Or.inl ⟨rfl, rfl, NoFit.not_taken ht hno⟩
  · rw [hmax] at hfit
    exact Or.inr ⟨f, rfl, (ht.firstFit_iff f).mp hfit, rfl⟩

theorem pmm_init_bit (h : pmm_init mmap m = some (u, m')) :
    m'.pmm_bitmap_len = bitmapLen mmap
      ∧ ∀ j, m'.bit j = false ↔ LeftClear mmap m j := by
  obtain ⟨t, p, ht, halloc, -⟩ := pmm_init_eq_some h
  rcases ht.alloc halloc with ⟨-, rfl, hno⟩ | ⟨f, -, hf, rfl⟩
  · refine ⟨ht.len, fun j => (ht.bits j).trans ?_⟩
    constructor
    · exact fun hv => Or.inl ⟨hv, fun f hf => absurd hf (hno f)⟩
    · rintro (hv | ⟨f, hf, -⟩)
      · exact hv.1
      · exact absurd hf (hno f)
  · refine ⟨(t.takeRange_vars f _).len.trans ht.len, fun j => ?_⟩
    have hspare : Spare mmap m j
        ↔ ¬ (f ≤ j ∧ j < f + bitmapFrames mmap) := by
      constructor
      · exact fun h => h f hf
      · intro h g hg
        rw [← hf.unique hg]
        exact h
    have hwiped : Wiped mmap m j ↔ 0x2000 ≤ f ∧ j / 32768 = f - 0x2000 := by
      constructor
      · rintro ⟨g, hg, hj⟩
        rw [← hf.unique hg] at hj
        exact ⟨hf.1, hj⟩
      · exact fun hj => ⟨f, hf, hj.2⟩
    rw [t.takeRange_bit]
    unfold LeftClear
    rw [hspare, hwiped, ← ht.bits]
    split_ifs with h1 h2 <;> simp [*]

theorem pmm_init_low (h : pmm_init mmap m = some (u, m')) (hlt : 0x2000 < bitmapLen mmap) {j : Nat}
    (hj : j ≤ 0x2000) : m'.bit j = true := by
  have hbound := @bitmapLen_lt mmap
  have hpages := bitmapFrames_eq mmap
  by_contra hbit
  rw [Bool.not_eq_true] at hbit
  rcases ((pmm_init_bit h).2 j).mp hbit with
    ⟨⟨hres, hunset | ⟨e, -, hfreed⟩⟩, -⟩ | ⟨f, hf, hword⟩
  · unfold Unset at hunset
    unfold Reserved at hres
    omega
  · have := hfreed.low
    unfold Reserved at hres
    omega
  · obtain ⟨hf1, -, hvacant, -⟩ := hf
    have hres := (hvacant f (Nat.le_refl f) (by omega)).1
    unfold Reserved at hres
    omega

end Bits

/-! ## §4. Free frames are fit for use. -/

/-- The frame lies inside one available entry. -/
def InEntry (mmap : List MmapEntry) (j : Nat) : Prop :=
  ∃ e ∈ mmap, e.type = MULTIBOOT_MEMORY_AVAILABLE
    ∧ e.addr.toNat ≤ 4096 * j ∧ 4096 * j + 4096 ≤ e.addr.toNat + e.len.toNat

/-- What a free frame must be. -/
structure FrameFit (mmap : List MmapEntry) (j : Nat) : Prop where
  available : InEntry mmap j
  base : PMM_MEMORY_BASE ≤ 4096 * j
  /-- Apart from every word of the bitmap. -/
  bitmap : ∀ i, i < bitmapLen mmap →
    PMM_MEMORY_BASE + 8 * (i / 64) + 8 ≤ 4096 * j ∨ 4096 * j + 4096 ≤ PMM_MEMORY_BASE + 8 * (i / 64)

/-- **Every clear bit is one of a frame that may be used.** -/
def PmmSound (mmap : List MmapEntry) (m : Machine) : Prop :=
  ∀ j, j < m.pmm_bitmap_len → m.bit j = false → FrameFit mmap j

/-- What the map, and the memory under the bitmap, must be like. -/
structure Fitting (mmap : List MmapEntry) (m : Machine) : Prop where
  /-- The start of an entry is rounded up, and its length down.  Where the rounded range
  runs over the end of the entry, its last frame is not left free, or another entry has it. -/
  ends : ∀ e ∈ mmap, e.addr.toNat + e.len.toNat < 4096 * e.stop →
    Freed (bitmapLen mmap) e (e.stop - 1) → e.stop ≤ bitmapLen mmap →
    ¬ Reserved mmap (e.stop - 1) → Spare mmap m (e.stop - 1) → InEntry mmap (e.stop - 1)
  /-- The up to seven bits past the last whole byte stay as the memory was. -/
  stale : ∀ j, j < bitmapLen mmap → Unset mmap m j → ¬ Reserved mmap j → Spare mmap m j →
    0x2000 ≤ j ∧ InEntry mmap j
  /-- They may lie in the frame behind those set aside.  It is then not free, or it is the
  first of those taken, and they are cleared with it. -/
  behind : 32768 * bitmapFrames mmap < bitmapLen mmap →
    Vacant mmap m (0x2000 + bitmapFrames mmap) →
    0x2000 + bitmapFrames mmap < bitmapLen mmap →
    Taken mmap m (0x2000 + bitmapFrames mmap)
      ∧ ∀ j, 32768 * bitmapFrames mmap ≤ j → j < bitmapLen mmap →
          InEntry mmap j

/-! ## §5. Maps below 16 TiB. -/

/-- The available entries do not wrap around and end below 2^44. -/
def Below16T (mmap : List MmapEntry) : Prop :=
  ∀ e ∈ mmap, e.type = MULTIBOOT_MEMORY_AVAILABLE → e.addr.toNat + e.len.toNat < 2 ^ 44

section Returns

variable {mmap : List MmapEntry} {m : Machine}

theorem pmm_free_returns {mem count : U64}
    (h : mem.toNat / 4096 + count.toNat ≤ 8 * (phys_window - PMM_MEMORY_BASE)) :
    ∃ m', pmm_free mem count m = some ((), m') := by
  unfold pmm_free
  rw [Prog.bind_apply (pmm_bit_write_apply false count.toNat (mem.toNat / PAGE_SIZE) m h)]
  exact ⟨_, rfl⟩

theorem pmm_init_entries_returns (mmap : List MmapEntry) (m : Machine) (hmap : Below16T mmap)
    (hlen : m.pmm_bitmap_len < 2 ^ 32) : ∃ m', pmm_init_entries mmap m = some ((), m') := by
  induction mmap generalizing m with
  | nil =>
    exact ⟨m, rfl⟩
  | cons e mmap ih =>
    have hentry : ∃ t, pmm_init_entry e m = some ((), t) := by
      rw [pmm_init_entry_eq]
      cases hsc : freedBy m.pmm_bitmap_len e with
      | none => exact ⟨m, rfl⟩
      | some r =>
        obtain ⟨hcounts, hrange⟩ := freedBy_range hlen hsc
        have hend := hmap e List.mem_cons_self (MmapEntry.counts_iff.mp hcounts).1
        have hstop : e.stop = (e.addr.toNat + 4095) % 2 ^ 64 / 4096 + e.len.toNat / 4096 := rfl
        apply pmm_free_returns
        rw [phys_window_eq]
        unfold PMM_MEMORY_BASE
        omega
    obtain ⟨t, ht⟩ := hentry
    have htlen : t.pmm_bitmap_len = m.pmm_bitmap_len := by
      rcases pmm_init_entry_eq_some ht with ⟨-, rfl⟩ | ⟨s, c, -, rfl⟩
      · rfl
      · exact (m.giveRange_vars _ _).len
    unfold pmm_init_entries
    rw [Prog.bind_apply ht]
    exact ih t (fun e' he' => hmap e' (List.mem_cons_of_mem e he')) (by omega)

theorem pmm_init_bitmap_returns (hmap : Below16T mmap) :
    ∃ t, pmm_init_bitmap mmap m = some ((), t) := by
  have hlen := @bitmapLen_lt mmap
  have hpages := bitmapFrames_eq mmap
  unfold pmm_init_bitmap
  rw [Prog.bind_apply (Prog.update_eq_some (u := ()).mpr rfl)]
  have hfill : bitmap_phys.toNat + (pmm_mem_pages mmap).toNat / 8 ≤ phys_window := by
    rw [phys_window_eq, show bitmap_phys.toNat = 0x2000000 from rfl]
    unfold bitmapLen at hlen
    omega
  have hones : ∀ t, memset_ones bitmap_phys.toNat ((pmm_mem_pages mmap).toNat / 8) t
      = some ((), t.fillBytes (bitmap_phys.toNat / 8) ((pmm_mem_pages mmap).toNat / 8)) := by
    intro t
    unfold memset_ones
    rw [Prog.bind_apply (Prog.check_apply hfill t)]
    rfl
  rw [Prog.bind_apply (hones _)]
  obtain ⟨t, ht⟩ := pmm_init_entries_returns mmap (Machine.fillBytes
    { m with pmm_bitmap_len := (pmm_mem_pages mmap).toNat } (bitmap_phys.toNat / 8)
    ((pmm_mem_pages mmap).toNat / 8)) hmap hlen
  rw [Prog.bind_apply ht, Prog.bind_apply (Prog.update_eq_some (u := ()).mpr rfl)]
  refine ⟨_, pmm_bit_write_apply true _ _ _ ?_⟩
  show 0x2000 + bitmapFrames mmap ≤ _
  rw [phys_window_eq, hpages]
  unfold PMM_MEMORY_BASE
  omega

theorem pmm_init_returns (hmap : Below16T mmap) :
    (∃ m', pmm_init mmap m = some ((), m'))
      ↔ ∀ f, Taken mmap m f → 4096 * f + 4096 ≤ boot_window := by
  have hboot_eq : boot_window = 0x40000000 := rfl
  constructor
  · rintro ⟨m', h⟩ f hf
    obtain ⟨t, p, ht, halloc, hboot⟩ := pmm_init_eq_some h
    rcases ht.alloc halloc with ⟨-, -, hno⟩ | ⟨g, rfl, hg, rfl⟩
    · exact absurd hf (hno f)
    · rw [hf.unique hg]
      have hlt := hg.2.1
      have hlen := @bitmapLen_lt mmap
      rw [BitVec.toNat_ofNat] at hboot
      omega
  · intro hboot
    have hlen := @bitmapLen_lt mmap
    have hpages := bitmapFrames_eq mmap
    obtain ⟨t, hbitmap⟩ := pmm_init_bitmap_returns (m := m) hmap
    have ht := pmm_init_bitmap_eq_some hbitmap
    have hmax : pmm_max_idx t.pmm_bitmap_len 0 = bitmapLen mmap := ht.len
    have halloc : ∃ p m', pmm_alloc (pmm_bitmap_pages (bitmapLen mmap)) t = some (p, m') := by
      refine pmm_alloc_ex_returns (by rw [ht.len]; omega) (by decide)
        (fun hal => absurd hal (by decide)) ?_ ?_
      · show _ + bitmapFrames mmap ≤ _
        rw [ht.len, hpages, phys_window_eq]
        unfold PMM_MEMORY_BASE
        omega
      · intro f hf
        rw [hmax] at hf
        have := hboot f ((ht.firstFit_iff f).mp hf)
        omega
    obtain ⟨p, m', hp⟩ := halloc
    refine ⟨m', ?_⟩
    unfold pmm_init
    rw [Prog.bind_apply hbitmap]
    unfold bitmapLen at hp
    rw [Prog.bind_apply hp]
    refine Prog.check_apply ?_ m'
    rcases ht.alloc hp with ⟨rfl, -, -⟩ | ⟨f, rfl, hf, -⟩
    · decide
    · have := hboot f hf
      rw [BitVec.toNat_ofNat]
      omega

end Returns

section Sound

variable {mmap : List MmapEntry} {m : Machine}

theorem Taken.of_behind {f : Nat} (hf : Taken mmap m f)
    (h : f ≤ 0x2000 + bitmapFrames mmap ∧ 0x2000 + bitmapFrames mmap < f + bitmapFrames mmap) :
    f = 0x2000 + bitmapFrames mmap := by
  have hres := (hf.2.2.1 f (Nat.le_refl f) (by omega)).1
  have hlow := hf.1
  unfold Reserved at hres
  omega

theorem Fitting.apart (hfit : Fitting mmap m) {j : Nat} (hj : j < bitmapLen mmap)
    (hlow : 0x2000 ≤ j) (hvacant : Vacant mmap m j) (hspare : Spare mmap m j) (i : Nat)
    (hi : i < bitmapLen mmap) :
    PMM_MEMORY_BASE + 8 * (i / 64) + 8 ≤ 4096 * j
      ∨ 4096 * j + 4096 ≤ PMM_MEMORY_BASE + 8 * (i / 64) := by
  have hpages := bitmapFrames_eq mmap
  have hres := hvacant.1
  unfold Reserved at hres
  unfold PMM_MEMORY_BASE
  by_cases hF : j = 0x2000 + bitmapFrames mmap
  · -- in the frame behind the bitmap's there may be up to seven of its bits
    by_cases hover : 32768 * bitmapFrames mmap < bitmapLen mmap
    · rw [hF] at hvacant hspare hj
      exact absurd ⟨Nat.le_refl _, by omega⟩ (hspare _ (hfit.behind hover hvacant hj).1)
    · omega
  · omega

theorem Freed.inEntry {e : MmapEntry} {j bits : Nat} (hmap : Below16T mmap) (he : e ∈ mmap)
    (h : Freed bits e j)
    (hend : e.addr.toNat + e.len.toNat < 4096 * e.stop → j ≠ e.stop - 1) : InEntry mmap j := by
  have hbelow := hmap e he h.available
  have hfirst := h.first
  have hstop := h.stop
  unfold MmapEntry.stop at hend hstop
  unfold MmapEntry.first at hend hstop hfirst
  exact ⟨e, he, h.available, by omega, by omega⟩

theorem fitting_iff (hmap : Below16T mmap) :
    (∀ j, j < bitmapLen mmap → LeftClear mmap m j → FrameFit mmap j) ↔ Fitting mmap m := by
  have hpages := bitmapFrames_eq mmap
  constructor
  · intro h
    refine ⟨fun e he _ hfreed hlen hres hspare => ?_, fun j hj hunset hres hspare => ?_,
      fun hover hvacant hlen => ?_⟩
    · have hstop := hfreed.stop
      exact (h _ (by omega) (Or.inl ⟨⟨hres, Or.inr ⟨e, he, hfreed⟩⟩, hspare⟩)).available
    · have hfit := h j hj (Or.inl ⟨⟨hres, Or.inl hunset⟩, hspare⟩)
      have hbase := hfit.base
      unfold PMM_MEMORY_BASE at hbase
      exact ⟨by omega, hfit.available⟩
    · have htaken : Taken mmap m (0x2000 + bitmapFrames mmap) := by
        by_contra hno
        have hspare : Spare mmap m (0x2000 + bitmapFrames mmap) :=
          fun f hf hin => hno (hf.of_behind hin ▸ hf)
        have := (h _ hlen (Or.inl ⟨hvacant, hspare⟩)).bitmap _ hover
        unfold PMM_MEMORY_BASE at this
        omega
      exact ⟨htaken, fun j hlo hj => (h j hj (Or.inr ⟨_, htaken, by omega⟩)).available⟩
  · intro hfit j hj hclear
    rcases hclear with ⟨hvacant, hspare⟩ | ⟨f, hf, hword⟩
    · have hentry : 0x2000 ≤ j ∧ InEntry mmap j := by
        rcases hvacant.2 with hunset | ⟨e, he, hfreed⟩
        · exact hfit.stale j hj hunset hvacant.1 hspare
        · refine ⟨hfreed.low, ?_⟩
          by_cases hend : e.addr.toNat + e.len.toNat < 4096 * e.stop ∧ j = e.stop - 1
          · obtain ⟨hover, rfl⟩ := hend
            have hstop := hfreed.stop
            exact hfit.ends e he hover hfreed (by omega) hvacant.1 hspare
          · exact hfreed.inEntry hmap he fun hover heq => hend ⟨hover, heq⟩
      refine ⟨hentry.2, ?_, hfit.apart hj hentry.1 hvacant hspare⟩
      unfold PMM_MEMORY_BASE
      omega
    · -- only the frame behind those set aside has bits of the map in it
      have hlow := hf.1
      have hlt := hf.2.1
      have hvacant := hf.2.2.1 f (Nat.le_refl f) (by omega)
      have hres := hvacant.1
      unfold Reserved at hres
      obtain rfl : f = 0x2000 + bitmapFrames mmap := by omega
      refine ⟨(hfit.behind (by omega) hvacant hlt).2 j (by omega) hj, ?_, fun i hi => ?_⟩
      · unfold PMM_MEMORY_BASE
        omega
      · unfold PMM_MEMORY_BASE
        omega

end Sound

/-- **Soundness of `pmm_init`.**  For every map below 16 TiB: it returns, unless the
frames it takes at the end are past the window of `boot.asm`; and then every free
frame is fit for use exactly if the map is `Fitting`. -/
theorem pmm_init_sound (mmap : List MmapEntry) (m : Machine) (hmap : Below16T mmap) :
    ((∃ m', pmm_init mmap m = some ((), m'))
        ↔ ∀ f, Taken mmap m f → 4096 * f + 4096 ≤ boot_window)
      ∧ ∀ m', pmm_init mmap m = some ((), m') → (PmmSound mmap m' ↔ Fitting mmap m) := by
  refine ⟨pmm_init_returns hmap, fun m' h => ?_⟩
  obtain ⟨hlen, hbits⟩ := pmm_init_bit h
  rw [← fitting_iff hmap]
  unfold PmmSound
  simp only [hlen, hbits]

/-- The machine at boot, with `v` in every word of the memory. -/
def Machine.boot (v : U64) : Machine := ⟨fun _ => v, 64, 0, 0, 0, 0⟩

/-- One range from 32 MiB on. -/
def oneRange : List MmapEntry := [⟨0x2000000, 0x8000, 1⟩]

/-- Two ranges: the second begins inside a frame and ends with one. -/
def twoRanges : List MmapEntry := [⟨0x2000000, 0x8000, 1⟩, ⟨0x3000800, 0x1800, 1⟩]

theorem pmm_init_sound_two_ranges :
    ∃ m', pmm_init twoRanges (Machine.boot (-1)) = some ((), m')
      ∧ m'.pmm_free_pages = 7 ∧ PmmSound twoRanges m' := by
  have hrun : (pmm_init twoRanges (Machine.boot (-1))).map (fun x => x.2.pmm_free_pages)
      = some 7 := by
    decide +kernel
  obtain ⟨⟨_, m'⟩, hm', hfree⟩ := Option.map_eq_some_iff.mp hrun
  have hmap : Below16T twoRanges := by
    unfold Below16T
    decide
  have hfitting : Fitting twoRanges (Machine.boot (-1)) := by
    refine ⟨fun e he hover => ?_, fun j _ hunset => ?_, fun hover => absurd hover (by decide)⟩
    · exact absurd hover ((by decide : ∀ e ∈ twoRanges,
        ¬ e.addr.toNat + e.len.toNat < 4096 * e.stop) e he)
    · -- every bit of the memory is set
      have hbit : (Machine.boot (-1)).bit j = true := by
        show (BitVec.allOnes 64).getLsbD (j % 64) = true
        rw [BitVec.getLsbD_allOnes]
        exact decide_eq_true (Nat.mod_lt j (by decide))
      exact absurd hunset.2 (by rw [hbit]; decide)
  exact ⟨m', hm', hfree,
    ((pmm_init_sound twoRanges (Machine.boot (-1)) hmap).2 m' hm').mpr hfitting⟩

/-- The second range is not aligned. -/
def unalignedRange : List MmapEntry := [⟨0x2001000, 0x2000, 1⟩, ⟨0x3000800, 0x1000, 1⟩]

/-- The start of a range is rounded up, and its length is not shortened: a frame is
left free that ends behind the range. -/
theorem pmm_init_frees_past_end :
    Below16T unalignedRange ∧
      ∃ m', pmm_init unalignedRange (Machine.boot (-1)) = some ((), m')
        ∧ m'.bit 0x3001 = false ∧ ¬ PmmSound unalignedRange m' := by
  have hrun : (pmm_init unalignedRange (Machine.boot (-1))).map
      (fun x => (x.2.pmm_bitmap_len, x.2.bit 0x3001)) = some (0x3002, false) := by
    decide +kernel
  obtain ⟨⟨_, m'⟩, hm', hbit⟩ := Option.map_eq_some_iff.mp hrun
  injection hbit with hlen hbit
  refine ⟨by unfold Below16T; decide, m', hm', hbit, fun hsound => ?_⟩
  obtain ⟨e, he, -, hlo, hhi⟩ :=
    (hsound 0x3001 (by rw [show m'.pmm_bitmap_len = 0x3002 from hlen]; omega) hbit).available
  simp only [unalignedRange, List.mem_cons, List.not_mem_nil, or_false] at he
  rcases he with rfl | rfl
  · exact absurd hhi (by decide)
  · exact absurd hhi (by decide)

end Quack.Arch
