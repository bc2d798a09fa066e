/-
  Quack.Sys.Coherence
  **THE PAGE TABLES OF A SPACE SHOW ITS BACKING PAGES, AND NOTHING ELSE.**

  `Coherent` compares the two representations of an address space: the lists of
  backing pages, and the tables the processor walks.  A call that takes a
  physical address takes the caller's word for it, and `load` writes to
  whatever is behind the region: a space can map the frame of its own root
  and overwrite it (`coherence_own_root`).  Apart from that, and from ranges
  that wrap around, the two agree in every state (`coherence_of_runs`).
-/
import Quack.Sys.System

namespace Quack.Sys

open Lib Mm Arch

/-! ## §1. Regions over a run. -/

variable {as as' : AddressSpace} {ehdr : Option (List Elf64Phdr)} {m m' : Machine} {op : SpaceOp}

/-- Every region of the space is mapped. -/
def AllMapped (as : AddressSpace) : Prop := ∀ reg ∈ as.mapped_regions, reg.mapped = true

theorem AllMapped.step (h : AllMapped as) (hop : op.KeepsMapped)
    (hrun : spaceCall ehdr as op m = some (as', m')) : AllMapped as' := by
  rcases spaceCall_regions hop hrun with hkeep | ⟨perms, -, c, hregions, hothers, -, hnew⟩
  · intro reg' hreg'
    obtain ⟨reg, hreg, -, hmapped⟩ := hkeep reg' hreg'
    exact hmapped (h reg hreg)
  · intro reg' hreg'
    rw [hregions] at hreg'
    rcases List.mem_cons.mp (c.toList_perm.mem_iff.mp hreg') with rfl | hold
    · exact hnew
    · rw [hothers] at hold
      exact h reg' hold

/-! ## §2. Two representations. -/

/-- Page `i` of a region of the space exists, and is page `v` of memory. -/
def Backs (as : AddressSpace) (v : Nat) (page : BackingPage) : Prop :=
  ∃ reg ∈ as.mapped_regions, ∃ i : Nat, reg.backing_pages[i]? = some page
    ∧ page.exists_ = true ∧ pageOf reg.base + i = v

def Coherent (m : Machine) (as : AddressSpace) : Prop :=
  ∀ v, v < 2 ^ 35 →
    (m.translate (root as) v ≠ none ↔ ∃ page, Backs as v page)
    ∧ ∀ page, Backs as v page → ∃ ent, m.translate (root as) v = some (.page ent)
        ∧ ent &&& VMM_ADDR_MASK = page.ptr

section Coherent

variable {Q : Nat → Prop} {k r : Nat} {as : AddressSpace} {m : Machine} {G : Ledger Owner}

theorem PageOk.leafEnt_addr {v : Nat} {page : BackingPage} (h : PageOk Q G r v page)
    (hA : Accounted k m G) (he : page.exists_ = true) (reg : MemoryMapping) :
    leafEnt reg page &&& VMM_ADDR_MASK = page.ptr := by
  apply BitVec.eq_of_toNat_eq
  rw [toNat_and_addr_mask, ← h.frameOf_ptr_eq hA he]
  have hchild := child_leafEnt reg page
  rw [frameOf_eq_of_child hchild]

theorem SpaceInv.coherent (h : SpaceInv Q k as m G) (hA : Accounted k m G)
    (hmapped : AllMapped as) : Coherent m as := by
  intro v hv
  have hwalk := hA.translate_lower h.is_root hv
  have hback : ∀ page, Backs as v page → ∃ ent, m.translate (root as) v = some (.page ent)
      ∧ ent &&& VMM_ADDR_MASK = page.ptr := by
    rintro page ⟨reg, hreg, i, hi, he, rfl⟩
    have hshow := h.shown reg hreg i page hi
    unfold Shows at hshow
    rw [if_pos ⟨hmapped reg hreg, he⟩] at hshow
    refine ⟨leafEnt reg page, ?_, (h.pages reg hreg i page hi).leafEnt_addr hA he reg⟩
    rw [hwalk, hshow, child_leafEnt]
    rfl
  refine ⟨⟨fun hne => ?_, ?_⟩, hback⟩
  · -- an entry that is not clear belongs to a region, at a page that exists
    have hent : m.entry (root as) v ≠ 0 := by
      intro hz
      rw [hwalk, hz, child_zero] at hne
      exact hne rfl
    have hcover : ∃ reg ∈ as.mapped_regions, Covers reg v := by
      by_contra hno
      push Not at hno
      exact hent (h.bare v hv hno)
    obtain ⟨reg, hreg, hlo, hhi⟩ := hcover
    obtain ⟨i, rfl⟩ := Nat.exists_eq_add_of_le hlo
    have hi : i < reg.backing_pages.length := by omega
    refine ⟨_, reg, hreg, i, List.getElem?_eq_getElem hi, ?_, rfl⟩
    by_contra hex
    exact hent ((h.shown reg hreg i _ (List.getElem?_eq_getElem hi)).absent (by simpa using hex))
  · rintro ⟨page, hpage⟩
    obtain ⟨ent, hent, -⟩ := hback page hpage
    rw [hent]
    exact Option.some_ne_none _

end Coherent

/-! ## §3. Runs. -/

def SysOp.KeepsMapped : SysOp → Prop
  | .call _ op => op.KeepsMapped
  | _ => True

theorem allMapped_step {s s' : System} {op : SysOp}
    (h : ∀ as ∈ s.spaces, AllMapped as) (hop : op.KeepsMapped)
    (hstep : sysStep ehdr s op = some s') : ∀ as ∈ s'.spaces, AllMapped as := by
  cases op with
  | create =>
    obtain ⟨⟨as, m⟩, hrun, rfl⟩ := Option.map_eq_some_iff.mp hstep
    simp only [AddressSpace.new, Prog.bind_eq_some, Prog.pure_eq_some] at hrun
    obtain ⟨_, _, -, rfl, -⟩ := hrun
    intro as' has'
    rcases List.mem_cons.mp has' with rfl | has'
    · exact fun reg hreg => absurd hreg List.not_mem_nil
    · exact h as' has'
  | delete space =>
    obtain ⟨c, hc, hstep⟩ := Option.bind_eq_some_iff.mp hstep
    obtain ⟨⟨u, m⟩, -, hstep⟩ := Option.bind_eq_some_iff.mp hstep
    injection hstep with hstep
    subst hstep
    intro as has
    exact h as (Cursor.mem_of_erase (Cursor.toList_of_at? hc) has)
  | call space op =>
    obtain ⟨c, hc, hstep⟩ := Option.bind_eq_some_iff.mp hstep
    obtain ⟨⟨as', m⟩, hrun, hstep⟩ := Option.bind_eq_some_iff.mp hstep
    injection hstep with hstep
    subst hstep
    have hl := Cursor.toList_of_at? hc
    intro as has
    rcases List.mem_cons.mp ((c.set_perm as').mem_iff.mp has) with rfl | hold
    · exact (h c.elem (Cursor.elem_mem hl)).step hop hrun
    · exact h as (Cursor.mem_of_erase hl hold)
  | heap op =>
    obtain ⟨t, -, rfl⟩ := Option.map_eq_some_iff.mp hstep
    exact h

/-- **Page-table coherence.**  In every run of sound calls that unmap no region,
every space is coherent after every call. -/
theorem coherence_of_runs (ehdr : Option (List Elf64Phdr)) (m : Machine) (hboot : Booted m)
    (ops : List SysOp)
    (hops : Along (sysStep ehdr) (fun s op => op.Sound (fun _ => True) s ∧ op.KeepsMapped)
      (System.init m) ops)
    (s : System) (hrun : run (sysStep ehdr) (System.init m) ops = some s) :
    ∀ as ∈ s.spaces, Coherent s.machine as := by
  obtain ⟨k, G0, h0⟩ := SysInv.init (Q := fun _ => True) hboot
  obtain ⟨⟨G, h⟩, hmapped⟩ := Along.invariant (sysStep ehdr)
    (fun s => (∃ G, SysInv (fun _ => True) k G s) ∧ ∀ as ∈ s.spaces, AllMapped as)
    (fun s op s' ⟨⟨G, h⟩, hm⟩ hop hs =>
      ⟨(h.step hop.1 hs).imp fun _ => And.left, allMapped_step hm hop.2 hs⟩)
    ops _ s ⟨⟨G0, h0⟩, fun as has => absurd has List.not_mem_nil⟩ hops hrun
  intro as has
  exact (h.spaces as has).coherent h.heap.accounted (hmapped as has)

/-- A space is made, two pages are promised and one is touched: its entry is
present, that of the other is not. -/
theorem coherence_of_runs_touch :
    ∃ s as, run (sysStep none) (System.init bootMachine)
        [.create, .call 0 (.allocate 2 0xB 0), .call 0 (.touch 0x7FFFFFFFE000)] = some s
      ∧ s.spaces = [as] ∧ Coherent s.machine as
      ∧ s.machine.translate (root as) 0x7FFFFFFFE = some (.page 0x200A007)
      ∧ s.machine.translate (root as) 0x7FFFFFFFF = none := by
  refine exists_single_space (f := fun s as => (s.machine.translate (root as) 0x7FFFFFFFE,
      s.machine.translate (root as) 0x7FFFFFFFF))
    (x := (some (.page 0x200A007), none)) (by decide +kernel) fun s as hrun hspaces has => ?_
  simp only [Prod.mk.injEq] at has
  refine ⟨?_, has⟩
  refine coherence_of_runs none bootMachine bootMachine_booted _ ?_ s hrun as (by simp [hspaces])
  exact ⟨⟨⟨0x2009, by decide, by decide, by decide +kernel⟩, trivial⟩, fun _ _ =>
    ⟨⟨fun _ _ => trivial, trivial⟩, fun _ _ => ⟨⟨fun _ _ => trivial, trivial⟩, fun _ _ => trivial⟩⟩⟩

/-- **A space overwrites its own root.**  The frame of the root is mapped and
loaded with zeros: the region's page exists, and its entry is gone. -/
theorem coherence_own_root :
    ∃ s as, run (sysStep none) (System.init bootMachine)
        [.create, .call 0 (.map 0x2009000 1 0xB 0),
          .call 0 (.load 0x7FFFFFFFF7F8 (List.replicate 8 0))] = some s
      ∧ s.spaces = [as] ∧ ¬ Coherent s.machine as := by
  refine exists_single_space (f := fun s as => (s.machine.translate (root as) 0x7FFFFFFFF,
      as.mapped_regions.map fun reg => (reg.base, reg.backing_pages)))
    (x := (none, [(0x7FFFFFFFF000, [⟨0x2009000, true, false⟩])])) (by decide +kernel)
    fun s as _ _ has hcoh => ?_
  simp only [Prod.mk.injEq] at has
  obtain ⟨hwalk, hregions⟩ := has
  obtain ⟨reg, hregs, hreg⟩ := List.map_eq_singleton_iff.mp hregions
  simp only [Prod.mk.injEq] at hreg
  refine (hcoh 0x7FFFFFFFF (by decide)).1.mpr ?_ hwalk
  refine ⟨⟨0x2009000, true, false⟩, reg, by simp [hregs], 0, ?_, rfl, ?_⟩
  · rw [hreg.2]
    rfl
  · rw [hreg.1]
    rfl

end Quack.Sys
