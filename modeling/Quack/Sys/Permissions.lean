/-
  Quack.Sys.Permissions
  **WHAT BECOMES OF THE PERMISSIONS OF A REGION.**

  A region keeps the permissions it was placed with, and every entry that is
  installed for one of its pages has the write and user bits they ask for.  The
  no-execute bit is bit 63 of an entry, and `vmm_arch_to_vmm_flags` puts the
  flags together in an `int`: it is lost (`nx_lost`).  So the entries are right
  exactly as long as only regions placed with `execute` have pages
  (`permissions_of_runs`).
-/
import Quack.Sys.Coherence

namespace Quack.Sys

open Lib Mm Arch

/-! ## §1. Bits of an entry. -/

/-- The entry grants what `perms` grants. -/
def Enforces (perms : BitVec 32) (ent : U64) : Prop :=
  (ent &&& VMM_FLAG_WRITE ≠ 0 ↔ perms &&& vm_perm_write ≠ 0)
  ∧ (ent &&& VMM_FLAG_USER ≠ 0 ↔ perms &&& vm_perm_user ≠ 0)
  ∧ (ent &&& VMM_FLAG_NX ≠ 0 ↔ perms &&& vm_perm_execute = 0)

instance (perms : BitVec 32) (ent : U64) : Decidable (Enforces perms ent) :=
  inferInstanceAs (Decidable (_ ∧ _ ∧ _))

theorem and_flag_eq_zero {x flag : U64} {i : Nat} (hflag : flag.toNat = 2 ^ i)
    (h : x.toNat.testBit i = false) : x &&& flag = 0 := by
  apply BitVec.eq_of_toNat_eq
  rw [BitVec.toNat_and, hflag, Nat.and_two_pow, h]
  simp

theorem testBit_of_aligned {x i : Nat} (hal : x % 4096 = 0) (hi : i < 12) :
    x.testBit i = false := by
  have h := Nat.testBit_mod_two_pow x 12 i
  rw [show x % 2 ^ 12 = 0 from hal, Nat.zero_testBit, decide_eq_true hi, Bool.true_and] at h
  exact h.symm

theorem leafEnt_bits {reg : MemoryMapping} {page : BackingPage}
    (hal : page.ptr.toNat % 4096 = 0) (hlt : page.ptr.toNat < 2 ^ 63) :
    (leafEnt reg page &&& VMM_FLAG_WRITE ≠ 0 ↔ reg.perms &&& vm_perm_write ≠ 0)
    ∧ (leafEnt reg page &&& VMM_FLAG_USER ≠ 0 ↔ reg.perms &&& vm_perm_user ≠ 0)
    ∧ leafEnt reg page &&& VMM_FLAG_NX = 0 := by
  obtain ⟨⟨hwrite, huser⟩, hnx, -⟩ := vmm_arch_to_vmm_flags_bits reg.perms reg.cache_mode
  -- neither the address nor the present bit touches the three flags
  have hother : ∀ flag : U64, page.ptr &&& flag = 0 → VMM_FLAG_PRESENT &&& flag = 0 →
      leafEnt reg page &&& flag
        = (vmm_arch_to_vmm_flags reg.perms reg.cache_mode).signExtend 64 &&& flag := by
    intro flag hptr hpresent
    unfold leafEnt
    rw [BitVec.and_or_distrib_right, BitVec.and_or_distrib_right, hptr, hpresent]
    simp only [BitVec.ofNat_eq_ofNat, BitVec.or_zero, BitVec.zero_or]
  have hlow : ∀ i, i < 12 → page.ptr.toNat.testBit i = false :=
    fun i hi => testBit_of_aligned hal hi
  rw [hother VMM_FLAG_WRITE (and_flag_eq_zero (i := 1) rfl (hlow 1 (by decide))) rfl,
    hother VMM_FLAG_USER (and_flag_eq_zero (i := 2) rfl (hlow 2 (by decide))) rfl,
    hother VMM_FLAG_NX (and_flag_eq_zero (i := 63) rfl (Nat.testBit_lt_two_pow hlt)) rfl]
  exact ⟨hwrite, huser, hnx⟩

/-! ## §2. Permissions over a run. -/

/-- The permissions a region was placed with. -/
abbrev Grants := MemoryHole → Option (BitVec 32)

/-- A call that places a region records its permissions. -/
def SpaceOp.grant (op : SpaceOp) (as as' : AddressSpace) (granted : Grants) : Grants :=
  match op.perms with
  | none => granted
  | some perms => fun shape =>
    if shape ∈ as'.mapped_regions.map MemoryMapping.shape
        ∧ shape ∉ as.mapped_regions.map MemoryMapping.shape then some perms
    else granted shape

structure PermState where
  space : AddressSpace
  machine : Machine
  granted : Grants

def permStep (ehdr : Option (List Elf64Phdr)) (s : PermState) (op : SpaceOp) : Option PermState :=
  (spaceCall ehdr s.space op s.machine).map fun (as, m) => ⟨as, m, op.grant s.space as s.granted⟩

def PermsEnforced (s : PermState) : Prop :=
  ∀ reg ∈ s.space.mapped_regions, ∀ perms, s.granted reg.shape = some perms →
    ∀ v, Covers reg v → ∀ ent, s.machine.translate (root s.space) v = some (.page ent) →
      Enforces perms ent

/-- Every region with pages was placed with its permissions. -/
def Granted (s : PermState) : Prop :=
  ∀ reg ∈ s.space.mapped_regions, reg.size ≠ 0 → s.granted reg.shape = some reg.perms

section Runs

variable {Q : Nat → Prop} {k : Nat} {ehdr : Option (List Elf64Phdr)} {s s' : PermState}
  {G : Ledger Owner}

variable {reg : MemoryMapping}

theorem grant_of_old {op : SpaceOp} {as as' : AddressSpace} {granted : Grants}
    (h : reg ∈ as.mapped_regions) : op.grant as as' granted reg.shape = granted reg.shape := by
  unfold SpaceOp.grant
  cases op.perms with
  | none => rfl
  | some perms => exact if_neg (fun hc => hc.2 (List.mem_map_of_mem h))

theorem Granted.step (h : Granted s) {op : SpaceOp} (htiled : Tiled s'.space)
    (hstep : permStep ehdr s op = some s') : Granted s' := by
  obtain ⟨⟨as', m'⟩, hrun, rfl⟩ := Option.map_eq_some_iff.mp hstep
  rcases spaceCall_attrs hrun with hkeep | ⟨perms, hperms, c, hregions, hothers, hnew, -⟩
  · intro reg' hreg' hsize
    obtain ⟨reg, hreg, hattrs⟩ := hkeep reg' hreg'
    simp only [MemoryMapping.attrs, Prod.mk.injEq] at hattrs
    obtain ⟨hshape, hperms, -⟩ := hattrs
    have hsize' : reg.size ≠ 0 := by
      rw [show reg.size = reg'.size from (congrArg MemoryHole.size hshape).symm]
      exact hsize
    show op.grant s.space as' s.granted reg'.shape = _
    rw [hshape, hperms, grant_of_old hreg]
    exact h reg hreg hsize'
  · intro reg' hreg' hsize
    have hmem : reg' ∈ c.elem :: c.erase := by
      rw [show as'.mapped_regions = c.toList from hregions] at hreg'
      exact c.toList_perm.mem_iff.mp hreg'
    show op.grant s.space as' s.granted reg'.shape = _
    rcases List.mem_cons.mp hmem with rfl | hold
    · -- two regions of one shape would share their first page
      have hfresh : c.elem.shape ∉ s.space.mapped_regions.map MemoryMapping.shape := by
        intro hshape
        obtain ⟨x, hx, hxs⟩ := List.mem_map.mp hshape
        rw [← hothers] at hx
        have hpos : 0 < c.elem.backing_pages.length := by
          rw [c.elem.backing_length]
          exact Nat.pos_of_ne_zero fun hz => hsize (BitVec.eq_of_toNat_eq hz)
        have hcov : Covers c.elem (pageOf c.elem.base) := by
          unfold Covers
          omega
        exact apart_of_tiled htiled hregions.symm hx hcov ((covers_of_shape hxs _).mpr hcov)
      unfold SpaceOp.grant
      rw [hperms, hnew]
      exact if_pos ⟨List.mem_map_of_mem hreg', hfresh⟩
    · rw [hothers] at hold
      rw [grant_of_old hold]
      exact h reg' hold hsize

section

variable (h : SpaceInv Q k s.space s.machine G) (hA : Accounted k s.machine G)
  (hreg : reg ∈ s.space.mapped_regions)

include h hA hreg

theorem SpaceInv.entry_bits
    {v : Nat} (hv : Covers reg v) {ent : U64}
    (hwalk : s.machine.translate (root s.space) v = some (.page ent)) :
    ((ent &&& VMM_FLAG_WRITE ≠ 0 ↔ reg.perms &&& vm_perm_write ≠ 0)
      ∧ (ent &&& VMM_FLAG_USER ≠ 0 ↔ reg.perms &&& vm_perm_user ≠ 0)
      ∧ ent &&& VMM_FLAG_NX = 0)
    ∧ reg.size ≠ 0 ∧ reg.mapped = true ∧ ∃ page ∈ reg.backing_pages, page.exists_ = true := by
  have hle := pages_le_of_fits (h.tiled.fits_regions reg hreg)
  obtain ⟨i, rfl⟩ := Nat.exists_eq_add_of_le hv.1
  have hi : i < reg.backing_pages.length := by
    have := hv.2
    omega
  have hpage := List.getElem?_eq_getElem hi
  rw [hA.translate_lower h.is_root (by omega)] at hwalk
  obtain ⟨f, hchild, hent⟩ := Option.map_eq_some_iff.mp hwalk
  injection hent with hent
  have hshow := h.shown reg hreg i _ hpage
  unfold Shows at hshow
  split at hshow
  · next hex =>
      have hok := h.pages reg hreg i _ hpage
      have hframe := hok.frameOf_ptr_eq hA hex.2
      have hlt : frameOf reg.backing_pages[i].ptr < 2 ^ 51 := by
        unfold frameOf
        omega
      rw [← hent, hshow]
      refine ⟨leafEnt_bits (by omega) (by omega), ?_, hex.1, _, List.getElem_mem hi, hex.2⟩
      intro hz
      rw [reg.backing_length, hz] at hi
      exact Nat.not_lt_zero i hi
  · rw [hshow, child_zero] at hchild
    cases hchild

theorem SpaceInv.entry_present
    (hmapped : reg.mapped = true) {page : BackingPage} (hpage : page ∈ reg.backing_pages)
    (he : page.exists_ = true) :
    ∃ v, Covers reg v
      ∧ s.machine.translate (root s.space) v = some (.page (leafEnt reg page)) := by
  obtain ⟨i, hi⟩ := List.getElem?_of_mem hpage
  have hle := pages_le_of_fits (h.tiled.fits_regions reg hreg)
  have hcov := covers_of_getElem? hi
  refine ⟨pageOf reg.base + i, hcov, ?_⟩
  have hshow := h.shown reg hreg i page hi
  unfold Shows at hshow
  rw [if_pos ⟨hmapped, he⟩] at hshow
  rw [hA.translate_lower h.is_root (by unfold Covers at hcov; omega), hshow, child_leafEnt]
  rfl

end

/-- The regions through which the processor can reach memory. -/
def PermState.Live (s : PermState) (reg : MemoryMapping) : Prop :=
  reg ∈ s.space.mapped_regions ∧ reg.mapped = true
    ∧ ∃ page ∈ reg.backing_pages, page.exists_ = true

theorem permsEnforced_iff (h : SpaceInv Q k s.space s.machine G) (hA : Accounted k s.machine G)
    (hgranted : Granted s) :
    PermsEnforced s ↔ ∀ reg perms, s.Live reg → s.granted reg.shape = some perms →
      perms &&& vm_perm_execute ≠ 0 := by
  constructor
  · rintro henf reg perms ⟨hreg, hmapped, page, hpage, he⟩ hperms
    obtain ⟨v, hv, hwalk⟩ := h.entry_present hA hreg hmapped hpage he
    obtain ⟨-, -, hnx⟩ := henf reg hreg perms hperms v hv _ hwalk
    obtain ⟨⟨-, -, hzero⟩, -⟩ := h.entry_bits hA hreg hv hwalk
    intro hexec
    exact hnx.mpr hexec hzero
  · intro hexec reg hreg perms hperms v hv ent hwalk
    obtain ⟨⟨hwrite, huser, hzero⟩, hsize, hmapped, hpage⟩ := h.entry_bits hA hreg hv hwalk
    have hx := hexec reg perms ⟨hreg, hmapped, hpage⟩ hperms
    rw [hgranted reg hreg hsize] at hperms
    injection hperms with hperms
    subst hperms
    exact ⟨hwrite, huser, fun hne => absurd hzero hne, fun hz => absurd hz hx⟩

end Runs

/-- **Permissions over runs.**  In every state of every run of sound calls on a
fresh space, permissions are enforced exactly if every region that has a page
in the tables was placed with `execute`. -/
theorem permissions_of_runs (ehdr : Option (List Elf64Phdr)) (m : Machine) (hboot : Booted m)
    (as0 : AddressSpace) (m0 : Machine)
    (hnew : AddressSpace.new (x86Mm ehdr) m = some (as0, m0)) (hctx : as0.vmm_ctx ≠ 0)
    (ops : List SpaceOp)
    (hops : Along (permStep ehdr)
      (fun s op => op.Sound (fun _ => True) s.space s.machine.pmm_bitmap_len)
      ⟨as0, m0, fun _ => none⟩ ops)
    (s : PermState) (hrun : run (permStep ehdr) ⟨as0, m0, fun _ => none⟩ ops = some s) :
    (∀ reg ∈ s.space.mapped_regions, reg.size ≠ 0 → ∃ perms, s.granted reg.shape = some perms)
    ∧ (PermsEnforced s ↔ ∀ reg perms, s.Live reg → s.granted reg.shape = some perms →
        perms &&& vm_perm_execute ≠ 0) := by
  obtain ⟨k, G, hheap, -, -⟩ := HeapInv.booted hboot
  obtain ⟨G0, heff, hinv, -⟩ := SpaceInv.new (Q := fun _ => True) hheap.accounted hheap.kernel
    hctx hnew
  have hregions : as0.mapped_regions = [] := by
    simp only [AddressSpace.new, Prog.bind_eq_some, Prog.pure_eq_some] at hnew
    obtain ⟨_, _, -, rfl, -⟩ := hnew
    rfl
  obtain ⟨⟨G', hground, hspace⟩, hgranted⟩ := Along.invariant (permStep ehdr)
    (fun s => (∃ G, Ground k s.machine G ∧ SpaceInv (fun _ => True) k s.space s.machine G)
      ∧ Granted s)
    (by
      rintro s op s' ⟨⟨G, hg, hs⟩, hgr⟩ hop hstep
      obtain ⟨⟨as', m'⟩, hcall, rfl⟩ := Option.map_eq_some_iff.mp hstep
      obtain ⟨hctx', G', heff', hs'⟩ := hs.step hg hop hcall
      exact ⟨⟨G', hg.effect heff', hs'⟩, hgr.step hs'.tiled hstep⟩)
    ops _ s ⟨⟨G0, hheap.ground.effect heff, hinv⟩, fun reg hreg => by
      rw [hregions] at hreg
      cases hreg⟩ hops hrun
  exact ⟨fun reg hreg hsize => ⟨reg.perms, hgranted reg hreg hsize⟩,
    permsEnforced_iff hspace hground.accounted hgranted⟩

/-- A region placed with all permissions, and touched. -/
theorem permissions_of_runs_urwx :
    ∃ as0 m0 s, AddressSpace.new (x86Mm none) bootMachine = some (as0, m0)
      ∧ run (permStep none) ⟨as0, m0, fun _ => none⟩
          [.allocate 1 0xF 0, .touch 0x7FFFFFFFF000] = some s
      ∧ s.machine.translate (root s.space) 0x7FFFFFFFF = some (.page 0x200A007)
      ∧ PermsEnforced s := by
  have hruns : ((AddressSpace.new (x86Mm none) bootMachine).bind fun (as0, m0) =>
      (run (permStep none) ⟨as0, m0, fun _ => none⟩
        [.allocate 1 0xF 0, .touch 0x7FFFFFFFF000]).map fun s =>
          (as0.vmm_ctx, s.machine.translate (root s.space) 0x7FFFFFFFF,
            s.space.mapped_regions.map MemoryMapping.shape, s.granted ⟨0x7FFFFFFFF000, 1⟩))
      = some (0x2009000, some (.page 0x200A007), [⟨0x7FFFFFFFF000, 1⟩], some 0xF) := by
    decide +kernel
  obtain ⟨⟨as0, m0⟩, hnew, h⟩ := Option.bind_eq_some_iff.mp hruns
  obtain ⟨s, hrun, h⟩ := Option.map_eq_some_iff.mp h
  simp only [Prod.mk.injEq] at h
  obtain ⟨hctx, hwalk, hshapes, hgranted⟩ := h
  refine ⟨as0, m0, s, hnew, hrun, hwalk, ?_⟩
  refine (permissions_of_runs none bootMachine bootMachine_booted as0 m0 hnew
    (by rw [hctx]; decide) _ ?_ s hrun).2.mpr ?_
  · exact ⟨trivial, fun _ _ => ⟨trivial, fun _ _ => trivial⟩⟩
  · rintro reg perms ⟨hreg, -, -⟩ hperms
    have hshape : reg.shape ∈ s.space.mapped_regions.map MemoryMapping.shape :=
      List.mem_map_of_mem hreg
    rw [hshapes, List.mem_singleton] at hshape
    rw [hshape, hgranted] at hperms
    injection hperms with hperms
    subst hperms
    decide

/-- **The no-execute bit is lost.**  A region placed for reading and writing is
touched, and its page can be executed. -/
theorem nx_lost :
    ∃ as0 m0 s, AddressSpace.new (x86Mm none) bootMachine = some (as0, m0)
      ∧ run (permStep none) ⟨as0, m0, fun _ => none⟩
          [.allocate 1 0xB 0, .touch 0x7FFFFFFFF000] = some s
      ∧ ¬ PermsEnforced s := by
  have hruns : ((AddressSpace.new (x86Mm none) bootMachine).bind fun (as0, m0) =>
      (run (permStep none) ⟨as0, m0, fun _ => none⟩
        [.allocate 1 0xB 0, .touch 0x7FFFFFFFF000]).map fun s =>
          (s.machine.translate (root s.space) 0x7FFFFFFFF,
            s.space.mapped_regions.map MemoryMapping.shape, s.granted ⟨0x7FFFFFFFF000, 1⟩))
      = some (some (.page 0x200A007), [⟨0x7FFFFFFFF000, 1⟩], some 0xB) := by
    decide +kernel
  obtain ⟨⟨as0, m0⟩, hnew, h⟩ := Option.bind_eq_some_iff.mp hruns
  obtain ⟨s, hrun, h⟩ := Option.map_eq_some_iff.mp h
  simp only [Prod.mk.injEq] at h
  obtain ⟨hwalk, hshapes, hgranted⟩ := h
  obtain ⟨reg, hregs, hshape⟩ := List.map_eq_singleton_iff.mp hshapes
  refine ⟨as0, m0, s, hnew, hrun, fun henf => ?_⟩
  have hcov : Covers reg 0x7FFFFFFFF := by
    unfold Covers
    rw [reg.backing_length, show reg.base = 0x7FFFFFFFF000 from congrArg MemoryHole.base hshape,
      show reg.size = 1 from congrArg MemoryHole.size hshape]
    decide
  have hbad := henf reg (by simp [hregs]) 0xB (by rw [hshape]; exact hgranted) _ hcov _ hwalk
  exact absurd hbad (by decide)

end Quack.Sys
