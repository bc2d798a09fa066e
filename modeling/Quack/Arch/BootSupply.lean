/-
  Quack.Arch.BootSupply
  **A BOOT THAT RETURNS.**

  With enough memory behind the bitmap, `pmm_init` leaves its own frames marked,
  and `vmm_init` has the frames for its tables.
-/
import Quack.Arch.PhysWindow
import Quack.Arch.PmmCount
import Quack.Arch.FreshFrames
import Quack.Arch.Supply

namespace Quack.Arch

open Lib

/-! ## §1. `pmm_init`. -/

section Ready

variable {mmap : List MmapEntry} {m m0 : Machine}

theorem pmm_init_marks (h : pmm_init mmap m = some ((), m0)) (hbytes : bitmapLen mmap % 8 = 0)
    {f : Nat} (hb : m0.BitmapFrame f) (hf : f < m0.pmm_bitmap_len) : m0.bit f = true := by
  obtain ⟨hlen, hbits⟩ := pmm_init_bit h
  have hpages := bitmapFrames_eq mmap
  obtain ⟨hlow, hword⟩ := hb
  rw [← Bool.not_eq_false, hbits]
  rintro (⟨⟨hres, -⟩, -⟩ | ⟨g, hg, hwiped⟩)
  · exact hres ⟨hlow, by omega⟩
  · -- the frame that is taken is behind the bitmap
    have hvacant := hg.2.2.1 g (Nat.le_refl _) (by omega)
    have hge := hg.1
    have hout : ¬ g < 0x2000 + bitmapFrames mmap :=
      fun hlt => hvacant.1 ⟨hge, hlt⟩
    omega

theorem pmm_init_ready (haligned : ∀ e ∈ mmap, e.PageAligned)
    (hapart : mmap.Pairwise MmapEntry.Apart) (hzero : m.pmm_free_pages = 0)
    (hbytes : bitmapLen mmap % 8 = 0) (hsome : (countedFrames (bitmapLen mmap) mmap).Nonempty)
    (h : pmm_init mmap m = some ((), m0)) : PmmReady m0 := by
  have hlen := @bitmapLen_lt mmap
  refine ⟨by rwa [← (pmm_init_bit h).1] at hlen, fun f hf hb => pmm_init_marks h hbytes hb hf, ?_⟩
  unfold pmm_init at h
  simp only [Prog.bind_eq_some, Prog.check_eq_some] at h
  obtain ⟨_, t, hbitmap, p, m', halloc, -, rfl⟩ := h
  obtain ⟨hcount, hle⟩ := pmm_init_bitmap_count haligned hapart hzero hbitmap
  have ht := pmm_init_bitmap_eq_some hbitmap
  have htotal : m'.pmm_total_pages = t.pmm_total_pages := by
    rcases pmm_alloc_ex_taken halloc with ⟨-, rfl⟩ | ⟨f, -, -, rfl, -⟩
    · rfl
    · exact (t.takeRange_vars f _).total
  rw [htotal, ht.total, hcount]
  intro h0
  have hcard := congrArg BitVec.toNat h0
  rw [BitVec.toNat_ofNat, Nat.mod_eq_of_lt (by omega), show (0 : U64).toNat = 0 from rfl] at hcard
  exact hsome.card_ne_zero hcard

theorem pmm_init_kernel (h : pmm_init mmap m = some ((), m0)) :
    m0.kernel_pml4 = m.kernel_pml4 := by
  unfold pmm_init at h
  simp only [Prog.bind_eq_some, Prog.check_eq_some] at h
  obtain ⟨_, t, hbitmap, p, m', halloc, -, rfl⟩ := h
  obtain ⟨t1, hentries, rfl⟩ := pmm_init_bitmap_cases hbitmap
  have hsame := (pmm_init_entries_eq_some _ _ bitmapLen_lt hentries).1.kernel
  have hset := (Machine.setBits_vars true (bitmapFrames mmap)
    (bitmap_phys.toNat / PAGE_SIZE) { t1 with pmm_total_pages := t1.pmm_free_pages }).1.kernel
  rcases pmm_alloc_ex_taken halloc with ⟨-, rfl⟩ | ⟨f, -, -, rfl, -⟩
  · exact hset.trans hsame
  · exact (Machine.takeRange_vars _ f _).kernel.trans (hset.trans hsame)

variable {stop : Nat} (hfreed : ∀ j, 0x2000 + bitmapFrames mmap ≤ j →
  j < stop → ∃ e ∈ mmap, Freed (bitmapLen mmap) e j)

include hfreed

section

variable (hpos : 0 < bitmapFrames mmap)
  (hroom : 0x2000 + 2 * bitmapFrames mmap ≤ stop)
  (hstop : stop ≤ bitmapLen mmap)

include hpos hroom hstop

theorem taken_next :
    Taken mmap m (0x2000 + bitmapFrames mmap) := by
  refine ⟨by omega, by omega, fun j hlo hhi => ⟨fun hres => ?_, Or.inr (hfreed j hlo (by omega))⟩,
    fun g hlo hhi => ⟨g, Nat.le_refl _, by omega, fun hvacant => ?_⟩⟩
  · have := hres.2
    omega
  · exact hvacant.1 ⟨hlo, hhi⟩

theorem pmm_init_free (h : pmm_init mmap m = some ((), m0)) {j : Nat}
    (hlo : 0x2000 + 2 * bitmapFrames mmap ≤ j)
    (hj : ∃ e ∈ mmap, Freed (bitmapLen mmap) e j) : m0.bit j = false := by
  have htaken := taken_next (m := m) hfreed hpos hroom hstop
  refine ((pmm_init_bit h).2 j).mpr (Or.inl ⟨⟨fun hres => ?_, Or.inr hj⟩, fun g hg hin => ?_⟩)
  · have := hres.2
    omega
  · have := hg.unique htaken
    omega

end

end Ready

/-! ## §2. `vmm_init`. -/

section Returns

variable {L : Nat → Prop} {k : Nat} {m m' : Machine} {G : Ledger Empty}

theorem Boots.enter_returns (h : Boots L k m G) {f i : Nat} {u : Use Empty} (hf : G f = some u)
    (hi : i < 512) (hfree : 0 < freeFrames m) :
    ∃ c m', vmm_get_or_alloc_ent (some (4096 * f)) i higher_perms m = some (some (4096 * c), m')
      ∧ Enter m f i m' c ∧ freeFrames m ≤ freeFrames m' + 1 := by
  have hA := h.accounted
  have hman := hA.managed f u hf
  obtain ⟨t, m', hrun⟩ := vmm_get_or_alloc_ent_returns hA hman.window hi (Or.inr hfree)
  obtain ⟨c, rfl, he⟩ := vmm_get_or_alloc_ent_spec hA.bitmap_len_le hrun
  exact ⟨c, m', hrun, he, he.freeFrames_le hA hman.bitmap hi⟩

theorem vmm_map_huge_page_returns (h : Boots L k m G) {pml4 virt : U64} (phys perms : U64)
    (hpml4 : pml4.toNat = 4096 * k) (ha : 256 ≤ pageOf virt / 2 ^ 27 % 512)
    (hfree : 2 ≤ freeFrames m) :
    ∃ m', vmm_map_huge_page pml4 virt phys perms m = some ((), m')
      ∧ freeFrames m ≤ freeFrames m' + 2 := by
  have hroot : ∀ a, 256 ≤ a → (Use.table k [] : Use Empty).child a = some (.upper [a]) := by
    intro a ha
    simp [Use.child, ha]
  obtain ⟨c1, m1, hrun1, e1, hle1⟩ := h.enter_returns h.accounted.kernel
    (slot_lt (pageOf virt / 2 ^ 27)) (by omega)
  obtain ⟨G1, h1, -, -, hc1⟩ := h.enter e1 h.accounted.kernel (slot_lt _) (hroot _ ha) (by simp)
  obtain ⟨c2, m2, hrun2, e2, hle2⟩ := h1.enter_returns hc1 (slot_lt (pageOf virt / 2 ^ 18)) (by omega)
  obtain ⟨G2, h2, -, -, hc2⟩ := h1.enter e2 hc1 (slot_lt _) rfl (by simp)
  have hman := h2.accounted.managed c2 _ hc2
  refine ⟨m2.setWord (512 * c2 + pageOf virt / 2 ^ 9 % 512)
    (phys ||| perms ||| VMM_FLAG_PRESENT ||| VMM_FLAG_LARGE), ?_, ?_⟩
  · unfold vmm_map_huge_page ctxTable
    rw [vmm_virt_to_offs_eq, hpml4, Prog.bind_apply hrun1, Prog.bind_apply hrun2]
    exact writeEnt_returns hman.window (slot_lt _) _
  · have hsame : freeFrames (m2.setWord (512 * c2 + pageOf virt / 2 ^ 9 % 512)
        (phys ||| perms ||| VMM_FLAG_PRESENT ||| VMM_FLAG_LARGE)) = freeFrames m2 := by
      refine freeFrames_congr rfl fun g hg => m2.setWord_bit _ hg ?_
      have := slot_lt (pageOf virt / 2 ^ 9)
      rw [show (512 * c2 + pageOf virt / 2 ^ 9 % 512) / 512 = c2 by omega]
      exact hman.bitmap
    omega

theorem vmm_map_huge_pages_returns {pml4 : U64} {a : Nat} (hpml4 : pml4.toNat = 4096 * k)
    (ha : 256 ≤ a) (hL : L a) (perms : U64) :
    ∀ count virt phys m G, Boots L k m G →
      pageOf virt + 512 * count < 2 ^ 52 →
      (∀ n, n < count → (pageOf virt + 512 * n) / 2 ^ 27 % 512 = a) → 2 * count ≤ freeFrames m →
      ∃ m', vmm_map_huge_pages pml4 virt phys count perms m = some (1, m')
        ∧ freeFrames m ≤ freeFrames m' + 2 * count := by
  intro count
  induction count with
  | zero => exact fun virt phys m G _ _ _ _ => ⟨m, rfl, by omega⟩
  | succ count ih =>
    intro virt phys m G h hv hslot hfree
    have hroom : pageOf virt + 512 < 2 ^ 52 :=
      Nat.lt_of_le_of_lt (Nat.add_le_add_left (by omega) _) hv
    have hfirst : pageOf virt / 2 ^ 27 % 512 = a := hslot 0 (by omega)
    obtain ⟨m1, hpage, hle1⟩ := vmm_map_huge_page_returns h phys perms hpml4
      (by rw [hfirst]; exact ha) (by omega)
    obtain ⟨G1, h1, -⟩ := vmm_map_huge_page_boots h hpml4 (by rw [hfirst]; exact ha)
      (by rw [hfirst]; exact hL) hpage
    have hnext : pageOf (virt + 0x200000) = pageOf virt + 512 :=
      pageOf_add (by decide) hroom
    obtain ⟨m2, hrest, hle2⟩ := ih (virt + 0x200000) (phys + 0x200000) m1 G1 h1 (by omega)
      (by
        intro n hn
        have := hslot (n + 1) (by omega)
        rwa [hnext, Nat.add_assoc, Nat.add_comm 512, ← Nat.mul_succ]) (by omega)
    refine ⟨m2, ?_, by omega⟩
    unfold vmm_map_huge_pages
    rw [Prog.bind_apply hpage]
    exact hrest

theorem vmm_init_returns (hready : PmmReady m) (hkernel : m.kernel_pml4 = 0)
    (hfree : 1 + 2 * (512 * 4) + 2 * 64 ≤ freeFrames m) :
    ∃ m', vmm_init none m = some ((), m') := by
  have hlen := hready.len
  obtain ⟨c, halloc, hmem⟩ := pmm_alloc_finds hlen (by omega)
  obtain ⟨hlow, hclen, hwin, hbit⟩ := mem_freeSet.mp hmem
  have haddr := toNat_addr (f := c) (by omega)
  have hpage : (BitVec.ofNat 64 (4096 * c)).toNat + 4096 ≤ phys_window := by
    rw [haddr, phys_window_eq]
    omega
  obtain ⟨G0, h0, v0⟩ := hready.first_root (hugeSlots none) hlow hclen hwin hbit
  have hnb : ¬ m.BitmapFrame c := fun hc => Bool.false_ne_true (hbit ▸ hready.bitmap c hclen hc)
  have hcount : freeFrames ((m.take c).zeroWords (512 * c) 512) + 1 = freeFrames m := by
    refine freeFrames_take hmem v0.vars.len fun j hj => ?_
    have hj' : j < (m.take c).pmm_bitmap_len := (m.take_vars c).len ▸ hj
    have hnb' : ¬ (m.take c).BitmapFrame c := by
      unfold Machine.BitmapFrame at hnb ⊢
      rwa [(m.take_vars c).len]
    rw [(m.take c).zeroWords_bit hj' hnb', m.take_bit hj hnb]
  -- the window
  obtain ⟨m1, hmap, hle⟩ := vmm_map_huge_pages_returns haddr (by omega) (Or.inl rfl) 3 (512 * 4)
    0xFFFF800000000000 0 _ G0 h0 (by decide) (fun n hn => window_slot hn) (by omega)
  obtain ⟨G1, h1, -⟩ := vmm_map_huge_pages_boots haddr (by omega) _ h0 (Or.inl rfl)
    (by decide) (fun n hn => window_slot hn) hmap
  -- the image
  have himage : ∀ n, n < 64 → (pageOf 0xFFFFFFFF80000000 + 512 * n) / 2 ^ 27 % 512 = 511 := by
    intro n hn
    rw [show pageOf 0xFFFFFFFF80000000 = 2 ^ 52 - 2 ^ 19 from by decide]
    omega
  obtain ⟨m2, hmap', -⟩ := vmm_map_huge_pages_returns haddr (by omega) (Or.inr ⟨rfl, rfl⟩) 3 64
    0xFFFFFFFF80000000 0 m1 G1 h1 (by decide) himage (by omega)
  refine ⟨{ m2 with kernel_pml4 := BitVec.ofNat 64 (4096 * c) }, ?_⟩
  have hk : ((m.take c).zeroWords (512 * c) 512).kernel_pml4 = 0 := v0.vars.kernel.trans hkernel
  have hspace : vmm_new_address_space none m = some (BitVec.ofNat 64 (4096 * c), m2) := by
    unfold vmm_new_address_space
    rw [Prog.bind_apply halloc, Prog.bind_apply (memset_page_eq_some (u := ()).mpr ⟨hpage, rfl⟩),
      haddr, show 4096 * c / 8 = 512 * c by omega,
      Prog.bind_apply (Prog.read_eq_some.mpr ⟨hk, rfl⟩), if_neg (by simp), Prog.bind_apply hmap]
    exact Prog.bind_apply hmap'
  unfold vmm_init
  rw [Prog.bind_apply hspace]
  rfl

end Returns

end Quack.Arch
