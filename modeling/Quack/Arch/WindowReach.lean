/-
  Quack.Arch.WindowReach
  **FRAMES BEHIND THE WINDOW.**

  The window covers 4 GiB, and the bitmap is as long as the memory map says.  So
  `pmm_alloc` may find a frame that it cannot clear.  It takes low frames first;
  the others are found once those are used up.

    • `window_reaches_iff` — after `vmm_init`, for every memory map.
-/
import Quack.Arch.BootSupply
import Quack.Arch.PmmBounds

namespace Quack.Arch

open Lib

/-! ## §1. The bitmap cut at 4 GiB. -/

/-- `m` has a bitmap of `len` bits, and `n` is `m` with at most 4 GiB of it. -/
structure Cut (len : Nat) (m n : Machine) : Prop where
  mem : n.mem = m.mem
  kernel : n.kernel_pml4 = m.kernel_pml4
  short : n.pmm_bitmap_len = min len (2 ^ 20)
  full : m.pmm_bitmap_len = len
  bound : len < 2 ^ 32

/-- Where the program returns, it does so with the cut bitmap as well. -/
def Sims {α : Type} (x : Prog Machine α) : Prop :=
  ∀ len m n a m', Cut len m n → x m = some (a, m') → ∃ n', x n = some (a, n') ∧ Cut len m' n'

namespace Cut

variable {len : Nat} {m n : Machine}

theorem bit (h : Cut len m n) (j : Nat) : n.bit j = m.bit j := by
  unfold Machine.bit
  rw [h.mem]

theorem setWord (h : Cut len m n) (w : Nat) (v : U64) : Cut len (m.setWord w v) (n.setWord w v) :=
  ⟨by unfold Machine.setWord; rw [h.mem], h.kernel, h.short, h.full, h.bound⟩

theorem zeroWords (h : Cut len m n) (w c : Nat) : Cut len (m.zeroWords w c) (n.zeroWords w c) :=
  ⟨by unfold Machine.zeroWords; rw [h.mem], h.kernel, h.short, h.full, h.bound⟩

theorem copyWords (h : Cut len m n) (d s c : Nat) : Cut len (m.copyWords d s c) (n.copyWords d s c) :=
  ⟨by unfold Machine.copyWords; rw [h.mem], h.kernel, h.short, h.full, h.bound⟩

theorem setBits (b : Bool) :
    ∀ count idx m n, Cut len m n →
      Cut len (Machine.setBits b idx m count) (Machine.setBits b idx n count) := by
  intro count
  induction count with
  | zero => exact fun _ _ _ h => h
  | succ count ih =>
    intro idx m n h
    refine ih (idx + 1) _ _ ?_
    unfold Machine.setBit
    rw [h.mem]
    exact h.setWord _ _

theorem count (h : Cut len m n) {m' n' : Machine} (hm : m'.mem = m.mem ∧ m.SameVars m')
    (hn : n'.mem = n.mem ∧ n.SameVars n') : Cut len m' n' :=
  ⟨by rw [hn.1, hm.1, h.mem], by rw [hn.2.kernel, hm.2.kernel, h.kernel],
    by rw [hn.2.len, h.short], by rw [hm.2.len, h.full], h.bound⟩

theorem takeRange (h : Cut len m n) (f c : Nat) : Cut len (m.takeRange f c) (n.takeRange f c) := by
  unfold Machine.takeRange
  apply zeroWords
  refine (setBits true c f m n h).count ?_ ?_
  · split <;> exact ⟨rfl, rfl, rfl, rfl, rfl⟩
  · split <;> exact ⟨rfl, rfl, rfl, rfl, rfl⟩

end Cut

namespace Sims

variable {α β : Type}

theorem pure (a : α) : Sims (pure a : Prog Machine α) := by
  intro len m n b m' hc h
  obtain ⟨rfl, rfl⟩ := Prog.pure_eq_some.mp h
  exact ⟨n, rfl, hc⟩

theorem bind {x : Prog Machine α} {f : α → Prog Machine β} (hx : Sims x) (hf : ∀ a, Sims (f a)) :
    Sims (x >>= f) := by
  intro len m n b m'' hc h
  obtain ⟨a, m', hfirst, hrest⟩ := Prog.bind_eq_some.mp h
  obtain ⟨n', hn', hc'⟩ := hx len m n a m' hc hfirst
  obtain ⟨n'', hn'', hc''⟩ := hf a len m' n' b m'' hc' hrest
  exact ⟨n'', (Prog.bind_apply hn').trans hn'', hc''⟩

theorem kernel_pml4 : Sims (Prog.read Machine.kernel_pml4) := by
  intro len m n a m' hc h
  obtain ⟨rfl, rfl⟩ := Prog.read_eq_some.mp h
  exact ⟨n, Prog.read_eq_some.mpr ⟨hc.kernel, rfl⟩, hc⟩

theorem readEnt (tab : Table) (off : Nat) : Sims (readEnt tab off) := by
  intro len m n ent m' hc h
  obtain ⟨t, rfl, hwin, rfl, rfl⟩ := readEnt_eq_some h
  refine ⟨n, ?_, hc⟩
  show load64 _ n = _
  exact load64_eq_some.mpr ⟨hwin, congrFun hc.mem _, rfl⟩

theorem writeEnt (tab : Table) (off : Nat) (ent : U64) : Sims (writeEnt tab off ent) := by
  intro len m n u m' hc h
  obtain ⟨t, rfl, hwin, rfl⟩ := writeEnt_eq_some h
  refine ⟨_, ?_, hc.setWord _ _⟩
  show store64 _ _ n = _
  exact store64_eq_some.mpr ⟨hwin, rfl⟩

theorem memset_page (phys : Nat) : Sims (memset_page phys) := by
  intro len m n u m' hc h
  obtain ⟨hwin, rfl⟩ := memset_page_eq_some.mp h
  exact ⟨_, memset_page_eq_some.mpr ⟨hwin, rfl⟩, hc.zeroWords _ _⟩

theorem memcpy_half_page (dst src : Nat) : Sims (memcpy_half_page dst src) := by
  intro len m n u m' hc h
  obtain ⟨hwin, rfl⟩ := memcpy_half_page_eq_some.mp h
  exact ⟨_, memcpy_half_page_eq_some.mpr ⟨hwin, rfl⟩, hc.copyWords _ _ _⟩

theorem pmm_alloc : Sims (pmm_alloc 1) := by
  intro len m n p m' hc h
  have hbound := hc.bound
  have hfull := hc.full
  have hshort := hc.short
  -- with the cut bitmap every frame that is found can be cleared
  obtain ⟨q, n', hn'⟩ : ∃ q n', Quack.Arch.pmm_alloc 1 n = some (q, n') := by
    refine pmm_alloc_one_returns (by omega) fun f _ hlt _ _ => ?_
    omega
  rcases pmm_alloc_cases (by omega) h with
    ⟨rfl, rfl, hall⟩ | ⟨f, rfl, rfl, hlow, hflen, hwin, hclear, hbefore⟩
  · rcases pmm_alloc_cases (by omega) hn' with ⟨rfl, rfl, -⟩ | ⟨g, -, -, hlow, hlt, -, hclear, -⟩
    · exact ⟨_, hn', hc⟩
    · rw [hc.bit, hall g hlow (by omega)] at hclear
      cases hclear
  · rcases pmm_alloc_cases (by omega) hn' with
      ⟨-, -, hall⟩ | ⟨g, rfl, rfl, hlow', hlt, -, hclear', hbefore'⟩
    · have hset := hall f hlow (by omega)
      rw [hc.bit, hclear] at hset
      cases hset
    · obtain rfl : g = f := by
        rcases Nat.lt_trichotomy g f with hgf | heq | hfg
        · rw [hc.bit, hbefore g hlow' hgf] at hclear'
          cases hclear'
        · exact heq
        · have hset := hbefore' f hlow hfg
          rw [hc.bit, hclear] at hset
          cases hset
      exact ⟨_, hn', hc.takeRange g 1⟩

theorem vmm_get_or_alloc_ent (tab : Table) (off : Nat) (flags : U64) :
    Sims (vmm_get_or_alloc_ent tab off flags) := by
  refine (readEnt tab off).bind fun ent => ?_
  split
  · refine pmm_alloc.bind fun ent_addr => (writeEnt _ _ _).bind fun _ => ?_
    split
    · exact pure _
    · exact (readEnt _ _).bind fun _ => (writeEnt _ _ _).bind fun _ =>
        (memset_page _).bind fun _ => pure _
  · exact pure _

theorem vmm_map_page (pml4 virt phys perms : U64) : Sims (vmm_map_page pml4 virt phys perms) :=
  (vmm_get_or_alloc_ent _ _ _).bind fun _ => (vmm_get_or_alloc_ent _ _ _).bind fun _ =>
    (vmm_get_or_alloc_ent _ _ _).bind fun _ => writeEnt _ _ _

theorem vmm_map_pages (pml4 perms : U64) :
    ∀ count virt phys, Sims (vmm_map_pages pml4 virt phys count perms) := by
  intro count
  induction count with
  | zero => exact fun _ _ => pure _
  | succ count ih => exact fun virt phys => (vmm_map_page _ _ _ _).bind fun _ => ih _ _

theorem vmm_map_huge_page (pml4 virt phys perms : U64) :
    Sims (vmm_map_huge_page pml4 virt phys perms) :=
  (vmm_get_or_alloc_ent _ _ _).bind fun _ => (vmm_get_or_alloc_ent _ _ _).bind fun _ =>
    writeEnt _ _ _

theorem vmm_map_huge_pages (pml4 perms : U64) :
    ∀ count virt phys, Sims (vmm_map_huge_pages pml4 virt phys count perms) := by
  intro count
  induction count with
  | zero => exact fun _ _ => pure _
  | succ count ih => exact fun virt phys => (vmm_map_huge_page _ _ _ _).bind fun _ => ih _ _

theorem vmm_map_segments (pml4 : U64) :
    ∀ phdrs, Sims (vmm_map_segments pml4 phdrs) := by
  intro phdrs
  induction phdrs with
  | nil => exact pure _
  | cons phdr phdrs ih =>
    unfold Quack.Arch.vmm_map_segments
    split
    · exact (vmm_map_pages _ _ _ _ _).bind fun _ => ih
    · exact ih

theorem vmm_new_address_space (ehdr : Option (List Elf64Phdr)) :
    Sims (vmm_new_address_space ehdr) := by
  refine pmm_alloc.bind fun new_pml4 => (memset_page _).bind fun _ => kernel_pml4.bind fun k => ?_
  split
  · exact (memcpy_half_page _ _).bind fun _ => pure _
  · refine (vmm_map_huge_pages _ _ _ _ _).bind fun _ => ?_
    cases ehdr with
    | none => exact (vmm_map_huge_pages _ _ _ _ _).bind fun _ => pure _
    | some phdrs => exact (vmm_map_segments _ _).bind fun _ => pure _

end Sims

/-! ## §2. After `vmm_init`. -/

variable {f j len : Nat} {m m0 m1 : Machine} {ehdr : Option (List Elf64Phdr)} {s s' : PmmState}

theorem pmm_init_aside {mmap : List MmapEntry}
    (h : pmm_init mmap m = some ((), m0)) (hlong : 2 ^ 20 ≤ m0.pmm_bitmap_len)
    (hlo : 0x2000 ≤ f) (hhi : f < 0x2020) : m0.bit f = true := by
  obtain ⟨hlen, hbits⟩ := pmm_init_bit h
  have hpages := bitmapFrames_eq mmap
  rw [← Bool.not_eq_false, hbits]
  rintro (⟨⟨hres, -⟩, -⟩ | ⟨g, hg, hword⟩)
  · exact hres ⟨hlo, by omega⟩
  · -- only frame 0x2000 has their bits
    have hlow := hg.1
    exact (hg.2.2.1 g (Nat.le_refl _) (by omega)).1 ⟨hlow, by omega⟩

theorem vmm_init_aside
    (hkernel : m0.kernel_pml4 = 0) (hseg : SegmentsFit ehdr) (hlen : m0.pmm_bitmap_len < 2 ^ 32)
    (haside : 2 ^ 20 ≤ m0.pmm_bitmap_len → ∀ f, 0x2000 ≤ f → f < 0x2020 → m0.bit f = true)
    (hrun : vmm_init ehdr m0 = some ((), m1)) :
    m1.pmm_bitmap_len = m0.pmm_bitmap_len
    ∧ (2 ^ 20 ≤ m0.pmm_bitmap_len → ∀ f, 0x2000 ≤ f → f < 0x2020 → m1.bit f = true) := by
  unfold vmm_init at hrun
  simp only [Prog.bind_eq_some, Prog.update_eq_some] at hrun
  obtain ⟨pml4, m', hspace, rfl⟩ := hrun
  let n0 : Machine :=
    { m0 with pmm_bitmap_len := min m0.pmm_bitmap_len (2 ^ 20), pmm_total_pages := 1 }
  have hcut : Cut m0.pmm_bitmap_len m0 n0 := ⟨rfl, rfl, rfl, rfl, hlen⟩
  obtain ⟨n', hn', hcut'⟩ := Sims.vmm_new_address_space ehdr _ _ _ _ _ hcut hspace
  refine ⟨hcut'.full, fun hlong f hlo hhi => ?_⟩
  have hshort : n0.pmm_bitmap_len = 2 ^ 20 := Nat.min_eq_right hlong
  have hready : PmmReady n0 := by
    refine ⟨by omega, fun g hg hb => ?_, show (1 : U64) ≠ 0 by decide⟩
    have hword := hb.2
    exact haside hlong g hb.1 (by omega)
  obtain ⟨L, k, G, -, -, hgrown⟩ := vmm_new_address_space_first hready hkernel hseg hn'
  show m'.bit f = true
  rw [← hcut'.bit f]
  exact hgrown.bits f (by omega) (haside hlong f hlo hhi)

theorem vmm_init_high (hready : PmmReady m0)
    (hkernel : m0.kernel_pml4 = 0) (hseg : SegmentsFit ehdr)
    (hrun : vmm_init ehdr m0 = some ((), m1)) (hj : 2 ^ 20 ≤ j)
    (hlt : j < m0.pmm_bitmap_len) : m1.bit j = m0.bit j := by
  unfold vmm_init at hrun
  simp only [Prog.bind_eq_some, Prog.update_eq_some] at hrun
  obtain ⟨pml4, m', hspace, rfl⟩ := hrun
  obtain ⟨L, k, G, -, -, -, -, -, hhigh⟩ := window_dirs hready hkernel hseg hspace
  exact hhigh j hj hlt

/-! ## §3. Runs that keep to the window. -/

theorem pmmStep_len {op : PmmOp} (h : pmmStep s op = some s') :
    s'.machine.pmm_bitmap_len = s.machine.pmm_bitmap_len := by
  cases op with
  | alloc count alignment upper =>
    simp only [pmmStep] at h
    split at h
    · obtain ⟨⟨p, m'⟩, hrun, rfl⟩ := Option.map_eq_some_iff.mp h
      rcases pmm_alloc_ex_taken hrun with ⟨-, rfl⟩ | ⟨f, -, -, rfl, -⟩
      · rfl
      · exact (s.machine.takeRange_vars f _).len
    · cases h
  | free i =>
    simp only [pmmStep] at h
    obtain ⟨e, -, h⟩ := Option.bind_eq_some_iff.mp h
    obtain ⟨⟨u, m'⟩, hrun, rfl⟩ := Option.map_eq_some_iff.mp h
    obtain rfl := pmm_free_range hrun
    exact (s.machine.giveRange_vars _ _).len

def Guard (len j : Nat) : Prop :=
  2 ^ 20 < len ∧ ((2 ^ 20 ≤ j ∧ j < len) ∨ (∃ i, 2 ^ 20 ≤ i ∧ i < len ∧ j = 0x2000 + i / 32768)
    ∨ (0x2000 ≤ j ∧ j < 0x2020))

theorem Guard.holder (h : Guard len j) (hlen : len < 2 ^ 32) :
    Guard len (0x2000 + j / 32768) := by
  obtain ⟨hlong, ⟨hlo, hhi⟩ | ⟨i, hlo, hhi, rfl⟩ | ⟨hlo, hhi⟩⟩ := h
  · exact ⟨hlong, Or.inr (Or.inl ⟨j, hlo, hhi, rfl⟩)⟩
  · exact ⟨hlong, Or.inr (Or.inr ⟨by omega, by omega⟩)⟩
  · exact ⟨hlong, Or.inr (Or.inr ⟨by omega, by omega⟩)⟩

/-- The guarded bits are set, and no live allocation has one. -/
structure Guarded (len : Nat) (s : PmmState) : Prop where
  len_eq : s.machine.pmm_bitmap_len = len
  bits : ∀ j, Guard len j → s.machine.bit j = true
  live : ∀ e ∈ s.live, ∀ j, e.first ≤ j → j < e.stop → ¬ Guard len j

theorem Guarded.step (hlen : len < 2 ^ 32) {op : PmmOp}
    (h : Guarded len s) (hs : pmmStep s op = some s') : Guarded len s' := by
  cases op with
  | alloc count alignment upper =>
    simp only [pmmStep] at hs
    split at hs
    · next hpos =>
        obtain ⟨⟨p, m'⟩, hrun, rfl⟩ := Option.map_eq_some_iff.mp hs
        rcases pmm_alloc_ex_taken hrun with ⟨rfl, rfl⟩ | ⟨f, hp, -, rfl, hfree⟩
        · exact h
        · have hclear : ∀ j, Guard len j → ¬ (f ≤ j ∧ j < f + count.toNat) := by
            intro j hj hin
            exact Bool.false_ne_true ((hfree j hin.1 hin.2).symm.trans (h.bits j hj))
          refine ⟨(s.machine.takeRange_vars f _).len.trans h.len_eq, fun j hj => ?_,
            fun e he j hlo hhi hj => ?_⟩
          · show (s.machine.takeRange f count.toNat).bit j = true
            rw [Machine.takeRange_bit, if_neg, if_neg (hclear j hj)]
            · exact h.bits j hj
            · -- the frame that is cleared would be guarded
              rintro ⟨hlow, hword⟩
              refine hclear f ?_ ⟨Nat.le_refl _, by omega⟩
              rw [show f = 0x2000 + j / 32768 by omega]
              exact hj.holder hlen
          · dsimp only at he
            split at he
            · exact h.live e he j hlo hhi hj
            · rcases List.mem_cons.mp he with rfl | he
              · refine hclear j hj ?_
                unfold Extent.stop Extent.first at hhi
                unfold Extent.first at hlo
                dsimp only at hlo hhi
                omega
              · exact h.live e he j hlo hhi hj
    · cases hs
  | free i =>
    simp only [pmmStep] at hs
    obtain ⟨e, he, hs⟩ := Option.bind_eq_some_iff.mp hs
    obtain ⟨⟨u, m'⟩, hrun, rfl⟩ := Option.map_eq_some_iff.mp hs
    obtain rfl := pmm_free_range hrun
    refine ⟨(s.machine.giveRange_vars _ _).len.trans h.len_eq, fun j hj => ?_,
      fun e' he' => h.live e' (List.mem_of_mem_eraseIdx he')⟩
    show (s.machine.giveRange _ _).bit j = true
    rw [Machine.giveRange_bit, if_neg]
    · exact h.bits j hj
    · rintro ⟨hlo, hhi⟩
      exact h.live e (List.mem_of_getElem? he) j hlo hhi hj

/-! ## §4. Runs that use up the low frames. -/

/-- A frame past 4 GiB is free, or the frame that holds its bit is. -/
def HighFree (m : Machine) : Prop :=
  ∃ j, 2 ^ 20 ≤ j ∧ j < m.pmm_bitmap_len ∧ (m.bit j = false ∨ m.bit (0x2000 + j / 32768) = false)

theorem HighFree.takeRange (h : HighFree m) (hlow : 0x2000 ≤ f)
    (hf : f < 2 ^ 20) : HighFree (m.takeRange f 1) := by
  obtain ⟨j, hj, hlt, hclear⟩ := h
  refine ⟨j, hj, by rw [(m.takeRange_vars f 1).len]; exact hlt, ?_⟩
  simp only [Machine.takeRange_bit]
  by_cases hholds : j / 32768 = f - 0x2000
  · exact Or.inl (if_pos ⟨hlow, hholds⟩)
  · rcases hclear with hclear | hclear
    · left
      rw [if_neg (fun he => hholds he.2), if_neg (by omega)]
      exact hclear
    · right
      split
      · rfl
      · rw [if_neg (by omega)]
        exact hclear

theorem HighFree.next {a : Nat} (h : HighFree m) (hlen : m.pmm_bitmap_len < 2 ^ 32)
    (hset : ∀ i, 0x2000 ≤ i → i < a → m.bit i = true) :
    pmm_alloc 1 m = none ∨ ∃ f p, pmm_alloc 1 m = some (p, m.takeRange f 1)
      ∧ a ≤ f ∧ 0x2000 ≤ f ∧ f < 2 ^ 20 ∧ ∀ i, 0x2000 ≤ i → i < f → m.bit i = true := by
  cases halloc : pmm_alloc 1 m with
  | none => exact Or.inl rfl
  | some r =>
    obtain ⟨p, m'⟩ := r
    rcases pmm_alloc_cases (by omega) halloc with
      ⟨-, -, hall⟩ | ⟨f, rfl, rfl, hlow, -, hlt, hclear, hbefore⟩
    · -- a frame that is free would be found
      obtain ⟨j, hj, hjlen, hclear | hclear⟩ := h
      · rw [hall j (by omega) hjlen] at hclear
        cases hclear
      · rw [hall _ (by omega) (by omega)] at hclear
        cases hclear
    · refine Or.inr ⟨f, _, rfl, ?_, hlow, hlt, hbefore⟩
      by_contra hlt'
      exact Bool.false_ne_true (hclear.symm.trans (hset f hlow (by omega)))

theorem HighFree.exhausts (left a : Nat) (s : PmmState) (ha : 2 ^ 20 ≤ a + left)
    (hlow : 0x2000 < a) (hlen : s.machine.pmm_bitmap_len < 2 ^ 32) (hhigh : HighFree s.machine)
    (hset : (∀ i, 0x2000 ≤ i → i < a → s.machine.bit i = true)) :
    ∃ ops s', run pmmStep s ops = some s' ∧ pmm_alloc 1 s'.machine = none := by
  induction left generalizing a s with
  | zero =>
    rcases hhigh.next hlen hset with hnone | ⟨f, p, -, hfrom, -, hlt, -⟩
    · exact ⟨[], s, rfl, hnone⟩
    · omega
  | succ left ih =>
    rcases hhigh.next hlen hset with hnone | ⟨f, p, halloc, hfrom, -, hlt, hbits⟩
    · exact ⟨[], s, rfl, hnone⟩
    · have hstep : pmmStep s (.alloc 1 1 0) = some
          ⟨s.machine.takeRange f 1, if p = 0 then s.live else ⟨p, 1⟩ :: s.live⟩ := by
        simp only [pmmStep]
        rw [if_pos (by decide), show pmm_alloc_ex 1 1 0 s.machine = _ from halloc]
        rfl
      obtain ⟨ops, s', hrun, hnone⟩ := ih (f + 1)
        ⟨s.machine.takeRange f 1, if p = 0 then s.live else ⟨p, 1⟩ :: s.live⟩ (by omega)
        (by omega) (by rw [(s.machine.takeRange_vars f 1).len]; exact hlen)
        (hhigh.takeRange (by omega) hlt) (by
          intro i hlo hhi
          show (s.machine.takeRange f 1).bit i = true
          rw [Machine.takeRange_bit, if_neg (by omega)]
          split
          · rfl
          · exact hbits i hlo (by omega))
      exact ⟨.alloc 1 1 0 :: ops, s', by rw [run_cons, hstep]; exact hrun, hnone⟩

/-! ## §5. The window and the allocator. -/

def FoundFrame (count : U64) (m : Machine) (f : Nat) : Prop :=
  pmm_search count.toNat 1 m.pmm_bitmap_len (m.pmm_bitmap_len + 0x2000) 0x2000 m = some (some f, m)

theorem pmm_alloc_faults (hlen : m.pmm_bitmap_len < 2 ^ 32)
    (h : pmm_alloc 1 m = none) : ∃ f, FoundFrame 1 m f ∧ 2 ^ 20 ≤ f := by
  have hwin : 8 * (phys_window - PMM_MEMORY_BASE) = 34091302912 := rfl
  obtain ⟨o, hsearch⟩ : ∃ o, pmm_search 1 1 m.pmm_bitmap_len (m.pmm_bitmap_len + 0x2000) 0x2000 m
      = some (o, m) :=
    pmm_search_returns (by omega) (by omega) (by omega) (by omega) _ _ (fun _ => by omega)
      (fun hal => by omega)
  by_contra hno
  -- what is found could be cleared
  obtain ⟨p, m', hrun⟩ : ∃ p m', pmm_alloc_ex 1 1 0 m = some (p, m') := by
    refine ⟨_, pmm_alloc_ex_of_search hsearch fun f hf => ?_⟩
    have hlt : f < 2 ^ 20 := by
      by_contra hge
      exact hno ⟨f, hsearch.trans (by rw [hf]), by omega⟩
    exact ⟨hlt, by rw [hwin, show (1 : U64).toNat = 1 from rfl]; omega⟩
  rw [show pmm_alloc_ex 1 1 0 m = none from h] at hrun
  cases hrun

/-- **Every frame is reachable**, in every state that is reached by allocating and
freeing. -/
structure WindowReaches (m : Machine) : Prop where
  /-- The frames that `pmm_alloc` returns. -/
  frames : ∀ ops s, run pmmStep ⟨m, []⟩ ops = some s → ∀ count f, FoundFrame count s.machine f →
    Covered (4096 * f)
  /-- Its own accesses for one frame. -/
  alloc : ∀ ops s, run pmmStep ⟨m, []⟩ ops = some s → ∃ r, pmm_alloc 1 s.machine = some r
  /-- Those made to a table in such a frame. -/
  tables : ∀ ops s, run pmmStep ⟨m, []⟩ ops = some s → ∀ tab off flags, Covered (4096 * tab) →
    off < 512 → ∃ r, vmm_get_or_alloc_ent (some (4096 * tab)) off flags s.machine = some r

theorem Guarded.found (h : Guarded len s) (hlen : len < 2 ^ 32)
    {count : U64} (hfound : FoundFrame count s.machine f) : f < 2 ^ 20 := by
  have hlen' := h.len_eq
  obtain ⟨-, hfit, -⟩ := pmm_search_up (by omega) (by omega) _ _ hfound
  obtain ⟨n, hf, hlt, hfree, hbefore⟩ := hfit f rfl
  by_contra hge
  rcases Nat.eq_zero_or_pos count.toNat with h0 | hpos
  · -- a range of no frames is found at once
    rcases Nat.eq_zero_or_pos n with rfl | hn
    · omega
    · refine hbefore 0 hn fun j hlo hhi => ?_
      omega
  · have hguard : Guard len f := ⟨by omega, Or.inl ⟨by omega, by omega⟩⟩
    exact Bool.false_ne_true ((hfree f (Nat.le_refl _) (by omega)).symm.trans (h.bits f hguard))

theorem Guarded.alloc (h : Guarded len s) (hlen : len < 2 ^ 32) :
    ∃ r, pmm_alloc 1 s.machine = some r := by
  have hlen' := h.len_eq
  have hone : ¬ 2 ^ 63 ≤ (1 : U64).toNat := by decide
  obtain ⟨p, m', hrun⟩ : ∃ p m', pmm_alloc 1 s.machine = some (p, m') := by
    refine pmm_alloc_one_returns (by omega) fun f _ hlt hclear _ => ?_
    by_contra hge
    have hguard : Guard len f := ⟨by omega, Or.inl ⟨by omega, by omega⟩⟩
    exact Bool.false_ne_true (hclear.symm.trans (h.bits f hguard))
  exact ⟨(p, m'), hrun⟩

theorem vmm_get_or_alloc_ent_window {tab off : Nat} (flags : U64)
    (htab : tab < 2 ^ 20) (hoff : off < 512) (halloc : ∃ r, pmm_alloc 1 m = some r) :
    ∃ r, vmm_get_or_alloc_ent (some (4096 * tab)) off flags m = some r := by
  obtain ⟨⟨p, m'⟩, hp⟩ := halloc
  unfold vmm_get_or_alloc_ent
  rw [Prog.bind_apply (readEnt_returns htab hoff)]
  split
  · rw [Prog.bind_apply hp, Prog.bind_apply (writeEnt_returns htab hoff p)]
    split
    · exact ⟨_, rfl⟩
    · next hne =>
        rcases pmm_alloc_ex_taken hp with ⟨h0, -⟩ | ⟨f, hf, hlt, -, -⟩
        · exact absurd h0 hne
        · have hpage : p.toNat + 4096 ≤ phys_window := by
            rw [phys_window_eq]
            omega
          rw [Prog.bind_apply (readEnt_returns htab hoff),
            Prog.bind_apply (writeEnt_returns htab hoff _),
            Prog.bind_apply (memset_page_eq_some (u := ()).mpr ⟨hpage, rfl⟩)]
          exact ⟨_, rfl⟩
  · exact ⟨_, rfl⟩

theorem Guarded.reaches (hlen : m.pmm_bitmap_len < 2 ^ 32)
    (h : Guarded m.pmm_bitmap_len ⟨m, []⟩) : WindowReaches m := by
  have hreached : ∀ ops s, run pmmStep ⟨m, []⟩ ops = some s → Guarded m.pmm_bitmap_len s :=
    fun ops s hrun => run_invariant pmmStep (Guarded m.pmm_bitmap_len)
      (fun _ _ _ hs hstep => hs.step hlen hstep) ops _ s h hrun
  have hcov : ∀ f, Covered (4096 * f) ↔ f < 2 ^ 20 := by
    intro f
    rw [covered_iff, phys_window_eq]
    omega
  constructor
  · intro ops s hrun count f hfound
    exact (hcov f).mpr ((hreached ops s hrun).found hlen hfound)
  · exact fun ops s hrun => (hreached ops s hrun).alloc hlen
  · intro ops s hrun tab off flags htab hoff
    exact vmm_get_or_alloc_ent_window flags ((hcov tab).mp htab) hoff
      ((hreached ops s hrun).alloc hlen)

/-- **Allocatable frames and the window**, for every memory map.  After `vmm_init` every
frame that `pmm_alloc` can find is reachable exactly if the frames from 4 GiB on are
all marked, and so are the frames that hold their marks.  What the window covers is
what the tables of `vmm_new_address_space` translate, if `pmm_init` has marked the
frames of the bitmap. -/
theorem window_reaches_iff (mmap : List MmapEntry) (m m0 m1 : Machine)
    (ehdr : Option (List Elf64Phdr)) (hinit : pmm_init mmap m = some ((), m0))
    (hkernel : m.kernel_pml4 = 0) (hseg : SegmentsFit ehdr)
    (hvmm : vmm_init ehdr m0 = some ((), m1)) :
    (WindowReaches m1 ↔ ∀ j, 2 ^ 20 ≤ j → j < m1.pmm_bitmap_len →
        m1.bit j = true ∧ m1.bit (0x2000 + j / 32768) = true)
    ∧ (PmmReady m0 → ∀ phys, phys < 2 ^ 44 →
        (m1.physOf (VIRT_PHYS_BASE + BitVec.ofNat 64 phys) = some phys ↔ Covered phys)) := by
  have hlen0 : m0.pmm_bitmap_len < 2 ^ 32 := (BaseKept.init hinit).len
  have hkernel0 : m0.kernel_pml4 = 0 := (pmm_init_kernel hinit).trans hkernel
  obtain ⟨hlen, haside⟩ := vmm_init_aside hkernel0 hseg hlen0
    (fun hlong f hlo hhi => pmm_init_aside hinit hlong hlo hhi) hvmm
  refine ⟨⟨fun hreach j hj hlt => ?_, fun hmarks => ?_⟩,
    fun hready phys hphys => window_physOf hready hkernel0 hseg hvmm hphys⟩
  · by_contra hno
    have hhigh : HighFree m1 := by
      refine ⟨j, hj, hlt, ?_⟩
      rcases Bool.eq_false_or_eq_true (m1.bit j) with h1 | h1
      · right
        rw [← Bool.not_eq_true]
        exact fun h2 => hno ⟨h1, h2⟩
      · exact Or.inl h1
    obtain ⟨ops, s, hrun, hnone⟩ := HighFree.exhausts (2 ^ 20) 0x2001 ⟨m1, []⟩ (by omega) (by omega)
      (hlen ▸ hlen0) hhigh (fun i hlo hhi => haside (by omega) i hlo (by omega))
    obtain ⟨r, hr⟩ := hreach.alloc ops s hrun
    rw [hnone] at hr
    cases hr
  · refine Guarded.reaches (hlen ▸ hlen0) ⟨rfl, ?_, fun _ he => absurd he List.not_mem_nil⟩
    rintro j ⟨hlong, ⟨hlo, hhi⟩ | ⟨i, hlo, hhi, rfl⟩ | ⟨hlo, hhi⟩⟩
    · exact (hmarks j hlo hhi).1
    · exact (hmarks i hlo hhi).2
    · exact haside (by omega) j hlo hhi

/-! ## §6. Two memory maps. -/

theorem boot_returns {mmap : List MmapEntry} (hmap : Below16T mmap)
    (haligned : ∀ e ∈ mmap, e.PageAligned) (hapart : mmap.Pairwise MmapEntry.Apart)
    (hbytes : bitmapLen mmap % 8 = 0) (hlong : 0x4000 ≤ bitmapLen mmap)
    (hshort : bitmapFrames mmap ≤ 0x40)
    (hfreed : ∀ j, 0x2000 + bitmapFrames mmap ≤ j → j < 0x3FFF →
      ∃ e ∈ mmap, Freed (bitmapLen mmap) e j) :
    ∃ m0 m1, pmm_init mmap (Machine.boot 0) = some ((), m0) ∧ vmm_init none m0 = some ((), m1)
      ∧ PmmReady m0 := by
  have hpages := bitmapFrames_eq mmap
  have hboot_eq : boot_window = 0x40000000 := rfl
  have htaken := taken_next (m := Machine.boot 0) hfreed (by omega) (by omega) (by omega)
  obtain ⟨m0, hinit⟩ := (pmm_init_returns (m := Machine.boot 0) hmap).mpr (by
    intro f hf
    rw [hf.unique htaken]
    omega)
  have hready : PmmReady m0 := by
    refine pmm_init_ready haligned hapart rfl hbytes ⟨0x2040, ?_⟩ hinit
    exact (mem_countedFrames bitmapLen_lt).mpr (hfreed 0x2040 (by omega) (by omega))
  have hkernel : m0.kernel_pml4 = 0 := pmm_init_kernel hinit
  have hfree : 0x3FFF - 0x2080 ≤ freeFrames m0 := by
    refine le_freeFrames 0x2080 (by decide) ?_ (by decide) fun j hlo hhi => ?_
    · rw [(pmm_init_bit hinit).1]
      omega
    · exact pmm_init_free hfreed (by omega) (by omega) (by omega) hinit (by omega)
        (hfreed j (by omega) (by omega))
  obtain ⟨m1, hvmm⟩ := vmm_init_returns hready hkernel (by omega)
  exact ⟨m0, m1, hinit, hvmm, hready⟩

/-- 32 MiB behind the base of the bitmap. -/
def lowMap : List MmapEntry := [⟨0x2000000, 0x2000000, 1⟩]

theorem lowMap_boot :
    ∃ m0 m1, pmm_init lowMap (Machine.boot 0) = some ((), m0) ∧ vmm_init none m0 = some ((), m1)
      ∧ PmmReady m0 := by
  have hlen : bitmapLen lowMap = 0x4000 := by decide
  have hpages : bitmapFrames lowMap = 1 := by decide
  refine boot_returns (by unfold Below16T; decide)
    (by unfold MmapEntry.PageAligned; decide) (List.pairwise_singleton _ _) (by rw [hlen])
    (by rw [hlen]) (by rw [hpages]; decide) ?_
  rw [hlen, hpages]
  intro j hlo hhi
  refine ⟨_, List.mem_singleton_self _, rfl, by decide, by omega, ?_, ?_, fun _ => ?_⟩
  · show 0x2000 ≤ j
    omega
  · show j < 0x4000
    omega
  · show 0x2000 ≤ j ∧ (_ ∨ j + 1 < 0x4000)
    omega

theorem window_reaches_low :
    ∃ m0 m1, pmm_init lowMap (Machine.boot 0) = some ((), m0) ∧ vmm_init none m0 = some ((), m1)
      ∧ WindowReaches m1
      ∧ m1.physOf (VIRT_PHYS_BASE + BitVec.ofNat 64 0x2001000) = some 0x2001000 := by
  obtain ⟨m0, m1, hinit, hvmm, hready⟩ := lowMap_boot
  have hseg : SegmentsFit none := fun phdrs h => by cases h
  obtain ⟨hreach, hphys⟩ := window_reaches_iff lowMap (Machine.boot 0) m0 m1 none hinit rfl hseg hvmm
  have hlen : m0.pmm_bitmap_len = 0x4000 := (pmm_init_bit hinit).1.trans (by decide)
  have hlen1 : m1.pmm_bitmap_len = m0.pmm_bitmap_len :=
    (vmm_init_aside (pmm_init_kernel hinit) hseg (by omega)
      (fun hlong f hlo hhi => pmm_init_aside hinit hlong hlo hhi) hvmm).1
  refine ⟨m0, m1, hinit, hvmm, hreach.mpr fun j hj hlt => ?_,
    (hphys hready 0x2001000 (by decide)).mpr (covered_iff.mpr (by decide))⟩
  omega

/-- The same, and 32 KiB more from 4 GiB on. -/
def highMap : List MmapEntry := [⟨0x2000000, 0x2000000, 1⟩, ⟨0x100000000, 0x8000, 1⟩]

theorem highMap_freed (hj : (0x2021 ≤ j ∧ j < 0x3FFF) ∨ (2 ^ 20 ≤ j ∧ j < 2 ^ 20 + 8)) :
    ∃ e ∈ highMap, Freed (bitmapLen highMap) e j := by
  have hlen : bitmapLen highMap = 0x100008 := by decide
  rw [hlen]
  rcases hj with ⟨hlo, hhi⟩ | ⟨hlo, hhi⟩
  · refine ⟨_, List.mem_cons_self, rfl, by decide, by omega, ?_, ?_, fun _ => ?_⟩
    · show 0x2000 ≤ j
      omega
    · show j < 0x4000
      omega
    · show 0x2020 ≤ j ∧ (_ ∨ j + 1 < 0x4000)
      omega
  · -- the bitmap lies in the first range
    refine ⟨_, List.mem_cons_of_mem _ List.mem_cons_self, rfl, by decide, by omega, ?_, ?_,
      fun hin => absurd hin.1 (by decide)⟩
    · show 2 ^ 20 ≤ j
      omega
    · show j < 2 ^ 20 + 8
      omega

/-- **Memory past the window**: once the low frames are used up, `pmm_alloc` finds a
frame from 4 GiB on and clears it at an address that is not mapped. -/
theorem window_misses_high :
    ∃ m0 m1 ops s f, pmm_init highMap (Machine.boot 0) = some ((), m0)
      ∧ vmm_init none m0 = some ((), m1) ∧ run pmmStep ⟨m1, []⟩ ops = some s
      ∧ FoundFrame 1 s.machine f ∧ ¬ Covered (4096 * f) ∧ pmm_alloc 1 s.machine = none := by
  have hlen : bitmapLen highMap = 0x100008 := by decide
  have hpages : bitmapFrames highMap = 33 := by decide
  have hapart : highMap.Pairwise MmapEntry.Apart := by
    refine List.pairwise_pair.mpr fun x => ?_
    rintro ⟨⟨-, hlow⟩, hhigh, -⟩
    have hlow' : x < 0x4000000 := hlow
    have hhigh' : 0x100000000 ≤ x := hhigh
    omega
  have hfreed : ∀ j, 0x2000 + bitmapFrames highMap ≤ j → j < 0x3FFF →
      ∃ e ∈ highMap, Freed (bitmapLen highMap) e j := by
    intro j hlo hhi
    rw [hpages] at hlo
    exact highMap_freed (Or.inl ⟨hlo, hhi⟩)
  obtain ⟨m0, m1, hinit, hvmm, hready⟩ := boot_returns (by unfold Below16T; decide)
    (by unfold MmapEntry.PageAligned; decide) hapart (by rw [hlen]) (by rw [hlen]; decide)
    (by rw [hpages]; decide) hfreed
  have hseg : SegmentsFit none := fun phdrs h => by cases h
  have hlen0 : m0.pmm_bitmap_len = 0x100008 := (pmm_init_bit hinit).1.trans hlen
  obtain ⟨hlen1, haside⟩ := vmm_init_aside (pmm_init_kernel hinit) hseg (by omega)
    (fun hlong f hlo hhi => pmm_init_aside hinit hlong hlo hhi) hvmm
  -- frame 2^20 is free, and stays so
  have hfree : m0.bit (2 ^ 20) = false :=
    pmm_init_free hfreed (by omega) (by omega) (by omega) hinit (by omega) (highMap_freed (Or.inr ⟨by omega, by omega⟩))
  have hfree1 : m1.bit (2 ^ 20) = false := (vmm_init_high hready (pmm_init_kernel hinit) hseg hvmm
    (by omega) (by omega)).trans hfree
  obtain ⟨ops, s, hrun, hnone⟩ := HighFree.exhausts (2 ^ 20) 0x2001 ⟨m1, []⟩ (by omega) (by omega)
    (by show m1.pmm_bitmap_len < _; omega)
    ⟨2 ^ 20, by omega, by show _ < m1.pmm_bitmap_len; omega, Or.inl hfree1⟩
    (fun i hlo hhi => haside (by omega) i hlo (by omega))
  have hlen_s : s.machine.pmm_bitmap_len < 2 ^ 32 := by
    have := run_invariant pmmStep (fun t => t.machine.pmm_bitmap_len = m1.pmm_bitmap_len)
      (fun _ _ _ ht hstep => (pmmStep_len hstep).trans ht) ops _ s rfl hrun
    omega
  obtain ⟨f, hfound, hf⟩ := pmm_alloc_faults hlen_s hnone
  refine ⟨m0, m1, ops, s, f, hinit, hvmm, hrun, hfound, fun hcov => ?_, hnone⟩
  have := covered_iff.mp hcov
  rw [phys_window_eq] at this
  omega

end Quack.Arch
