/-
  Quack.Arch.WindowBytes
  **WHICH BYTES A COPY THROUGH THE WINDOW TOUCHES.**

  While a region is in the window, byte `off` of the window is byte
  `windowAddr pages off` of physical memory, whether the page has a frame or not;
  one byte past the last page there is no translation.
-/
import Quack.Arch.Window

namespace Quack.Arch

open Lib Mm

variable {κ : Type}

/-! ## §1. Bytes. -/

theorem getLsbD_byte_mask (a j : Nat) (hj : j < 64) :
    (0xFF#64 <<< (8 * a)).getLsbD j = decide (8 * a ≤ j ∧ j < 8 * a + 8) := by
  rw [show (0xFF#64) = BitVec.ofNat 64 (2 ^ 8 - 1) from rfl, BitVec.getLsbD_shiftLeft,
    BitVec.getLsbD_ofNat, Nat.testBit_two_pow_sub_one, Bool.eq_iff_iff]
  simp only [Bool.and_eq_true, decide_eq_true_eq, Bool.not_eq_true', decide_eq_false_iff_not]
  omega

theorem Machine.byte_setByte (m : Machine) (p q : Nat) (b : BitVec 8) :
    (m.setByte p b).byte q = if q = p then b else m.byte q := by
  unfold Machine.byte Machine.setByte
  by_cases hw : q / 8 = p / 8
  · rw [hw, Machine.setWord_mem_self]
    apply BitVec.eq_of_getLsbD_eq
    intro i hi
    have hq : 8 * (q % 8) + i < 64 := by omega
    have hmask := getLsbD_byte_mask (p % 8) (8 * (q % 8) + i) hq
    rw [BitVec.getLsbD_extractLsb']
    simp only [hi, decide_true, Bool.true_and, BitVec.getLsbD_or, BitVec.getLsbD_and,
      BitVec.getLsbD_not, BitVec.getLsbD_shiftLeft, hq, hmask]
    by_cases he : q = p
    · subst he
      have h1 : 8 * (q % 8) ≤ 8 * (q % 8) + i ∧ 8 * (q % 8) + i < 8 * (q % 8) + 8 := by omega
      rw [if_pos rfl]
      simp only [h1, and_self, decide_true, Bool.not_true, Bool.and_false, Bool.false_or,
        BitVec.getLsbD_setWidth, Nat.add_sub_cancel_left]
      rw [decide_eq_false (by omega), decide_eq_true (by omega)]
      simp
    · have h1 : ¬ (8 * (p % 8) ≤ 8 * (q % 8) + i ∧ 8 * (q % 8) + i < 8 * (p % 8) + 8) := by omega
      have h2 : (!decide (8 * (q % 8) + i < 8 * (p % 8))
          && (BitVec.zeroExtend 64 b).getLsbD (8 * (q % 8) + i - 8 * (p % 8))) = false := by
        by_cases hlt : 8 * (q % 8) + i < 8 * (p % 8)
        · simp [hlt]
        · rw [BitVec.getLsbD_setWidth, BitVec.getLsbD_of_ge b _ (by omega)]
          simp
      rw [if_neg he, h2, BitVec.getLsbD_extractLsb']
      simp [h1, hi]
  · rw [Machine.setWord_mem_ne _ _ hw, if_neg (by rintro rfl; exact hw rfl)]

theorem Machine.byte_congr {m m' : Machine} {p : Nat}
    (h : m'.slot (p / 4096) (p % 4096 / 8) = m.slot (p / 4096) (p % 4096 / 8)) :
    m'.byte p = m.byte p := by
  unfold Machine.slot at h
  have hword : 512 * (p / 4096) + p % 4096 / 8 = p / 8 := by omega
  rw [hword] at h
  unfold Machine.byte
  rw [h]

/-! ## §2. The window, filled. -/

/-- The pages of a region are in the window. -/
structure Shown (k : Nat) (m : Machine) (G : Ledger κ) (pages : List BackingPage) : Prop where
  accounted : Accounted k m G
  kernel : m.kernel_pml4.toNat = 4096 * k
  fits : pageOf copy_base + pages.length < 2 ^ 35
  entries : ∀ (i : Nat) (page : BackingPage), pages[i]? = some page →
    m.entry k (pageOf copy_base + i) = page.ptr ||| VMM_FLAG_WRITE ||| VMM_FLAG_PRESENT
  beyond : ∀ v, pageOf copy_base + pages.length ≤ v → v < 2 ^ 35 → m.entry k v = 0

/-- The physical address of byte `off` of the window. -/
def windowAddr (pages : List BackingPage) (off : Nat) : Nat :=
  4096 * frameOf ((pages[off / 4096]?.map BackingPage.ptr).getD 0) + off % 4096

def windowBytes (pages : List BackingPage) (off n : Nat) : List Nat :=
  (List.range' off (min n (4096 * pages.length - off))).map (windowAddr pages)

section Pages

variable {pages : List BackingPage} {off n : Nat}

theorem windowAddr_of_page {page : BackingPage} (h : pages[off / 4096]? = some page) :
    windowAddr pages off = 4096 * frameOf page.ptr + off % 4096 := by
  unfold windowAddr
  rw [h]
  rfl

theorem framesOf_windowAddr (h : off < 4096 * pages.length) :
    framesOf pages (windowAddr pages off / 4096) := by
  have hi : off / 4096 < pages.length := by omega
  refine ⟨pages[off / 4096], List.getElem_mem hi, ?_⟩
  rw [windowAddr_of_page (List.getElem?_eq_getElem hi)]
  omega

@[simp] theorem windowBytes_zero : windowBytes pages off 0 = [] := by
  simp [windowBytes]

theorem windowBytes_end (h : 4096 * pages.length ≤ off) : windowBytes pages off n = [] := by
  unfold windowBytes
  rw [show min n (4096 * pages.length - off) = 0 by omega]
  rfl

theorem windowBytes_succ (h : off < 4096 * pages.length) :
    windowBytes pages off (n + 1) = windowAddr pages off :: windowBytes pages (off + 1) n := by
  unfold windowBytes
  rw [show min (n + 1) (4096 * pages.length - off)
    = min n (4096 * pages.length - (off + 1)) + 1 by omega]
  rfl

theorem mem_windowBytes {p : Nat} :
    p ∈ windowBytes pages off n
      ↔ ∃ o, off ≤ o ∧ o < off + n ∧ o < 4096 * pages.length ∧ p = windowAddr pages o := by
  unfold windowBytes
  simp only [List.mem_map, List.mem_range'_1]
  constructor
  · rintro ⟨o, ⟨hlo, hhi⟩, rfl⟩
    exact ⟨o, hlo, by omega, by omega, rfl⟩
  · rintro ⟨o, hlo, hn, hlen, rfl⟩
    exact ⟨o, ⟨hlo, by omega⟩, rfl⟩

end Pages

section Window

variable {k off n : Nat} {m m' : Machine} {G : Ledger κ} {pages : List BackingPage}

theorem windowMap_shown {u : Unit} (h : Accounted k m G) (hk : m.kernel_pml4.toNat = 4096 * k)
    (hzero : ∀ v, pageOf copy_base ≤ v → v < 2 ^ 35 → m.entry k v = 0)
    (hrun : windowMap copy_base pages m = some (u, m')) :
    ∃ G', Shown k m' G' pages ∧ Touches k m G m' G' := by
  have hbase : pageOf copy_base = 0x700000000 := rfl
  obtain ⟨G', h', ht, hlen, hshown, hkeep⟩ := windowMap_spec pages copy_base m m' G u h hk
    (Nat.le_refl _) (by rw [hbase]; omega) (fun v h1 h2 => absurd h1 (by omega)) hrun
  refine ⟨G', ⟨h', ?_, hlen, hshown, ?_⟩, ht⟩
  · rw [ht.vars.kernel]
    exact hk
  · intro v hlo hv
    rw [hkeep v hv (Or.inr hlo)]
    exact hzero v (by omega) hv

theorem Shown.writes {P : Nat → Prop} (h : Shown k m G pages) (hw : Writes P m m')
    (hP : ∀ f, P f → Plain m G f) : Shown k m' G pages where
  accounted := hw.accounted h.accounted hP
  kernel := by
    rw [hw.vars.kernel]
    exact h.kernel
  fits := h.fits
  entries i page hi := by
    have hlt : i < pages.length := (List.getElem?_eq_some_iff.mp hi).1
    have hfits := h.fits
    rw [hw.entry h.accounted hP h.accounted.kernel (by omega)]
    exact h.entries i page hi
  beyond v hlo hv := by
    rw [hw.entry h.accounted hP h.accounted.kernel hv]
    exact h.beyond v hlo hv

theorem Shown.physOf (h : Shown k m G pages) {virt : U64}
    (hvirt : virt.toNat = copy_base.toNat + off) (hoff : off ≤ 4096 * pages.length) :
    m.physOf virt = if off < 4096 * pages.length then some (windowAddr pages off) else none := by
  have hbase : pageOf copy_base = 0x700000000 := rfl
  have hbase' : copy_base.toNat = 4096 * 0x700000000 := rfl
  have hfits := h.fits
  have hpage : pageOf virt = pageOf copy_base + off / 4096 := by
    unfold pageOf
    rw [hvirt]
    omega
  unfold Machine.physOf
  rw [if_pos (by omega), rootOf_eq h.kernel, h.accounted.translate_lower h.accounted.kernel (by omega),
    hpage]
  by_cases hin : off < 4096 * pages.length
  · have hi : off / 4096 < pages.length := by omega
    have hget := List.getElem?_eq_getElem hi
    have hent := h.entries _ _ hget
    have hframe := child_leaf pages[off / 4096].ptr VMM_FLAG_WRITE (by decide)
    rw [if_pos hin, hent, hframe, windowAddr_of_page hget]
    simp only [Option.map_some, Leaf.phys]
    rw [frameOf_eq_of_child hframe, hvirt]
    congr 1
    omega
  · rw [if_neg hin, h.beyond _ (by omega) (by omega), child_zero]
    rfl

theorem writes_windowAddr (hoff : off < 4096 * pages.length) (b : BitVec 8) :
    Writes (framesOf pages) m (m.setByte (windowAddr pages off) b) := by
  refine ⟨⟨rfl, rfl, rfl, rfl⟩, fun w hw => ?_⟩
  apply m.setWord_mem_ne
  rintro rfl
  apply hw
  have hframe : windowAddr pages off / 8 / 512 = windowAddr pages off / 4096 := by omega
  rw [hframe]
  exact framesOf_windowAddr hoff

theorem next_byte {virt : U64} (hvirt : virt.toNat = copy_base.toNat + off) (h : Shown k m G pages)
    (hoff : off < 4096 * pages.length) : (virt + 1).toNat = copy_base.toNat + (off + 1) := by
  have hfits := h.fits
  have hbase : pageOf copy_base = 0x700000000 := rfl
  have hbase' : copy_base.toNat = 4096 * 0x700000000 := rfl
  rw [BitVec.toNat_add, show (1 : U64).toNat = 1 from rfl, hvirt]
  omega

end Window

/-! ## §3. Frames without tables. -/

/-- The frames that hold no table keep their words. -/
def KeepsPlain (m : Machine) (G : Ledger κ) (m' : Machine) : Prop :=
  ∀ f j, Plain m G f → j < 512 → m'.slot f j = m.slot f j

section Plain

variable {k r f i c : Nat} {m m' m'' : Machine} {G G' : Ledger κ}

theorem KeepsPlain.refl (m : Machine) (G : Ledger κ) : KeepsPlain m G m := fun _ _ _ _ => rfl

theorem KeepsPlain.trans (h1 : KeepsPlain m G m') (h2 : KeepsPlain m' G' m'')
    (hplain : ∀ f, Plain m G f → Plain m' G' f) : KeepsPlain m G m'' := by
  intro f j hf hj
  rw [h2 f j (hplain f hf) hj, h1 f j hf hj]

theorem KeepsPlain.byte (h : KeepsPlain m G m') {p : Nat} (hp : Plain m G (p / 4096)) :
    m'.byte p = m.byte p :=
  Machine.byte_congr (h _ _ hp (by omega))

theorem Plain.ne_free (h : Plain m G f) (hA : Accounted k m G) (hlow : 0x2000 ≤ c)
    (hlen : c < m.pmm_bitmap_len) (hbit : m.bit c = false) : f ≠ c := by
  rintro rfl
  rcases h with h | h | ⟨d, hd⟩
  · omega
  · omega
  · rw [hA.free_of_bit hbit] at hd
    cases hd

theorem take_plain (hA : Accounted k m G) (hlow : 0x2000 ≤ c) (hlen : c < m.pmm_bitmap_len)
    (hbit : m.bit c = false) : KeepsPlain m G (m.take c) :=
  fun _ _ hf hj => m.take_slot hlen hj (hf.not_bitmapFrame hA) (hf.ne_free hA hlow hlen hbit)

theorem Enter.plain (he : Enter m f i m' c) (hA : Accounted k m G) {p : List Nat}
    (hf : G f = some (.table r p)) (hi : i < 512) : KeepsPlain m G m' := by
  cases he with
  | present _ _ => exact KeepsPlain.refl m G
  | linked _ hnone hlow hlen hwin hbit =>
    intro g j hg hj
    have hne : ¬ (g = f ∧ j = i) := by
      rintro ⟨rfl, -⟩
      obtain ⟨d, hd⟩ := hg.is_data hA hf
      cases hd
    rw [Machine.link_slot m hlen hi hj (hg.not_bitmapFrame hA),
      if_neg (hg.ne_free hA hlow hlen hbit), if_neg hne]

theorem setWord_plain (hA : Accounted k m G) {p : List Nat} (hf : G f = some (.table r p))
    (hi : i < 512) (ent : U64) : KeepsPlain m G (m.setWord (512 * f + i) ent) := by
  intro g j hg hj
  apply m.setWord_slot_ne ent hj
  rintro rfl
  rw [show (512 * f + i) / 512 = f by omega] at hg
  obtain ⟨d, hd⟩ := hg.is_data hA hf
  cases hd

theorem vmm_map_page_plain (hA : Accounted k m G) (hr : G r = some (.table r []))
    {pml4 virt phys perms : U64} {u : Unit} (hpml4 : pml4.toNat = 4096 * r)
    (hv : pageOf virt < 2 ^ 35) (hrun : vmm_map_page pml4 virt phys perms m = some (u, m')) :
    KeepsPlain m G m' := by
  obtain ⟨m1, c1, m2, c2, m3, c3, e1, e2, e3, rfl⟩ :=
    vmm_map_page_spec hA.bitmap_len_le hpml4 hrun
  obtain ⟨hp1, hp2, hp3⟩ := inner_levels hv
  obtain ⟨G1, h1, t1, w1, -⟩ := e1.accounted hA hr hp1 rfl
  have hr1 := t1.ext r _ hr
  obtain ⟨G2, h2, t2, w2, -⟩ := e2.accounted h1 hr1 hp2 w1
  have hr2 := t2.ext r _ hr1
  obtain ⟨G3, h3, t3, w3, -⟩ := e3.accounted h2 hr2 hp3 w2
  have hr3 := t3.ext r _ hr2
  have k1 := e1.plain hA hr (Nat.mod_lt _ (by decide))
  have k2 := e2.plain h1 (h1.walk_typed hr1 hp1 w1) (Nat.mod_lt _ (by decide))
  have k3 := e3.plain h2 (h2.walk_typed hr2 hp2 w2) (Nat.mod_lt _ (by decide))
  have k4 := setWord_plain h3 (h3.walk_typed hr3 hp3 w3)
    (Nat.mod_lt (pageOf virt) (by decide : 0 < 512)) (phys ||| perms ||| VMM_FLAG_PRESENT)
  exact ((k1.trans k2 fun f hf => hf.touches t1).trans k3
    fun f hf => (hf.touches t1).touches t2).trans k4
      fun f hf => ((hf.touches t1).touches t2).touches t3

end Plain

/-! ## §4. The bytes a copy touches. -/

/-- The physical bytes that `copyIn` writes, until it ends or faults. -/
def copyInTrace : (dst : U64) → List (BitVec 8) → Machine → List Nat
  | _, [], _ => []
  | dst, b :: data, m =>
    match m.physOf dst with
    | none => []
    | some phys => phys :: copyInTrace (dst + 1) data (m.setByte phys b)

/-- The physical bytes that `copyOut` reads, until it ends or faults. -/
def copyOutTrace : (src : U64) → (size : Nat) → Machine → List Nat
  | _, 0, _ => []
  | src, size + 1, m =>
    match m.physOf src with
    | none => []
    | some phys => phys :: copyOutTrace (src + 1) size m

theorem copyIn_trace (data : List (BitVec 8)) (dst : U64) (m m' : Machine) (u : Unit)
    (h : copyIn dst data m = some (u, m')) :
    (copyInTrace dst data m).length = data.length
      ∧ ∀ p, p ∉ copyInTrace dst data m → m'.byte p = m.byte p := by
  induction data generalizing dst m with
  | nil =>
    simp only [copyIn, Prog.pure_eq_some] at h
    rw [h.2]
    exact ⟨rfl, fun _ _ => rfl⟩
  | cons b data ih =>
    simp only [copyIn, Prog.bind_eq_some] at h
    obtain ⟨_, m1, hstore, hrest⟩ := h
    obtain ⟨phys, hphys, rfl⟩ := storeVirt8_eq_some hstore
    obtain ⟨hlen, hold⟩ := ih _ _ hrest
    unfold copyInTrace
    rw [hphys]
    refine ⟨congrArg (· + 1) hlen, fun p hp => ?_⟩
    obtain ⟨hne, hp⟩ := List.ne_and_not_mem_of_not_mem_cons hp
    rw [hold p hp, Machine.byte_setByte, if_neg hne]

section Traces

variable {k : Nat} {G : Ledger κ} {pages : List BackingPage}

theorem copyOutTrace_eq {m : Machine} (h : Shown k m G pages) (n off : Nat) (src : U64)
    (hsrc : src.toNat = copy_base.toNat + off) (hoff : off ≤ 4096 * pages.length) :
    copyOutTrace src n m = windowBytes pages off n := by
  induction n generalizing off src with
  | zero =>
    rw [windowBytes_zero]
    rfl
  | succ n ih =>
    unfold copyOutTrace
    rw [h.physOf hsrc hoff]
    by_cases hin : off < 4096 * pages.length
    · rw [if_pos hin, windowBytes_succ hin]
      show _ :: _ = _
      rw [ih (off + 1) (src + 1) (next_byte hsrc h hin) (by omega)]
    · rw [if_neg hin, windowBytes_end (by omega)]

theorem copyInTrace_eq (data : List (BitVec 8)) (m : Machine) (off : Nat) (dst : U64)
    (h : Shown k m G pages) (hplain : (∀ f, framesOf pages f → Plain m G f))
    (hdst : dst.toNat = copy_base.toNat + off) (hoff : off ≤ 4096 * pages.length) :
    copyInTrace dst data m = windowBytes pages off data.length := by
  induction data generalizing m off dst with
  | nil =>
    rw [List.length_nil, windowBytes_zero]
    rfl
  | cons b data ih =>
    unfold copyInTrace
    rw [h.physOf hdst hoff]
    by_cases hin : off < 4096 * pages.length
    · have hw := writes_windowAddr (m := m) hin b
      rw [if_pos hin, List.length_cons, windowBytes_succ hin]
      show _ :: _ = _
      rw [ih _ (off + 1) (dst + 1) (h.writes hw hplain) hplain (next_byte hdst h hin) (by omega)]
    · rw [if_neg hin, windowBytes_end (by omega)]

end Traces

/-! ## §5. What a copy reads and writes. -/

section Contents

variable {k : Nat} {G : Ledger κ} {pages : List BackingPage}

theorem virtToPhys_eq_none {m : Machine} {virt : U64} (h : m.physOf virt = none) :
    virtToPhys virt m = none := by
  unfold virtToPhys
  rw [Prog.bind_apply (Prog.read_eq_some.mpr ⟨rfl, rfl⟩), h]
  rfl

/-- What a copy to the window leaves: `data` from byte `off` on. -/
structure CopiedIn (pages : List BackingPage) (off : Nat) (data : List (BitVec 8))
    (m m' : Machine) : Prop where
  writes : Writes (framesOf pages) m m'
  new : ∀ i (hi : i < data.length), m'.byte (windowAddr pages (off + i)) = data[i]
  old : ∀ p, (∀ i, i < data.length → p ≠ windowAddr pages (off + i)) → m'.byte p = m.byte p

theorem copyIn_returns (data : List (BitVec 8)) (m : Machine) (off : Nat) (dst : U64)
    (h : Shown k m G pages) (hplain : (∀ f, framesOf pages f → Plain m G f))
    (hdst : dst.toNat = copy_base.toNat + off) (hend : off + data.length ≤ 4096 * pages.length)
    (hne : (∀ i j, i < j → j < data.length → windowAddr pages (off + i) ≠ windowAddr pages (off + j))) :
    ∃ m', copyIn dst data m = some ((), m') ∧ CopiedIn pages off data m m' := by
  induction data generalizing m off dst with
  | nil =>
    exact ⟨m, rfl, Writes.refl _ m, fun i hi => absurd hi (Nat.not_lt_zero i), fun _ _ => rfl⟩
  | cons b data ih =>
    rw [List.length_cons] at hend hne
    have hin : off < 4096 * pages.length := by omega
    have hphys := h.physOf hdst (by omega)
    rw [if_pos hin] at hphys
    have hw := writes_windowAddr (m := m) hin b
    have hstore : storeVirt8 dst b m = some ((), m.setByte (windowAddr pages off) b) := by
      unfold storeVirt8
      rw [Prog.bind_apply (virtToPhys_eq_some.mpr ⟨hphys, rfl⟩)]
      rfl
    obtain ⟨m', hrest, hc⟩ := ih _ (off + 1) (dst + 1) (h.writes hw hplain) hplain
      (next_byte hdst h hin) (by omega) (fun i j hij hj => by
        rw [Nat.add_right_comm off 1 i, Nat.add_right_comm off 1 j]
        exact hne (i + 1) (j + 1) (by omega) (by omega))
    have hshift : ∀ i, windowAddr pages (off + 1 + i) = windowAddr pages (off + (i + 1)) :=
      fun i => by rw [Nat.add_right_comm off 1 i]; rfl
    refine ⟨m', ?_, hw.trans hc.writes, ?_, ?_⟩
    · unfold copyIn
      rw [Prog.bind_apply hstore]
      exact hrest
    · intro i hi
      cases i with
      | zero =>
        rw [hc.old]
        · rw [Machine.byte_setByte]
          exact if_pos rfl
        · intro i hi'
          rw [hshift]
          exact hne 0 (i + 1) (by omega) (by omega)
      | succ i =>
        rw [← hshift]
        exact hc.new i (by simpa using hi)
    · intro p hp
      rw [hc.old p fun i hi => by rw [hshift]; exact hp (i + 1) (by simpa using hi),
        Machine.byte_setByte]
      exact if_neg (hp 0 (by simp))

theorem copyIn_faults (data : List (BitVec 8)) (m : Machine) (off : Nat) (dst : U64)
    (h : Shown k m G pages) (hplain : (∀ f, framesOf pages f → Plain m G f))
    (hdst : dst.toNat = copy_base.toNat + off) (hoff : off ≤ 4096 * pages.length)
    (hend : 4096 * pages.length < off + data.length) : copyIn dst data m = none := by
  cases hrun : copyIn dst data m with
  | none => rfl
  | some r =>
    -- the bytes written would be more than the region has
    have hlen := (copyIn_trace data dst m r.2 r.1 hrun).1
    rw [copyInTrace_eq data m off dst h hplain hdst hoff, windowBytes, List.length_map,
      List.length_range'] at hlen
    omega

end Contents

end Quack.Arch
