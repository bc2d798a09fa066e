/-
  Quack.Arch.Translation
  **WHAT `vmm_get_entry` READS AFTER `vmm_map_pages`.**

  In the lower half `vmm_get_entry` always returns, with the entry of the page.
  A row of pages that is mapped gets the entries asked for, and no other entry of
  the lower half changes: the tables linked on the way are empty.

    • `map_pages_translation`  — the law, in every state the contexts reach.
-/
import Quack.Arch.TableDemand
import Quack.Arch.Isolation
import Quack.Mm.Heap

namespace Quack.Arch

open Lib Mm

variable {κ : Type}

/-! ## §1. Reading. -/

theorem vmm_get_entry_returns {k r : Nat} {m : Machine} {G : Ledger κ} (hA : Accounted k m G)
    (hr : G r = some (.table r [])) {pml4 virt : U64} (hpml4 : pml4.toNat = 4096 * r)
    (hv : virt.toNat < 2 ^ 47) :
    vmm_get_entry pml4 virt m = some (m.entry r (pageOf virt), m) := by
  have hpage : pageOf virt < 2 ^ 35 := by
    unfold pageOf
    omega
  obtain ⟨ent, m', hrun⟩ : ∃ ent m', vmm_get_entry pml4 virt m = some (ent, m') := by
    obtain ⟨o, hfind⟩ := vmm_find_pt_returns hA hr hpml4 hpage
    unfold vmm_get_entry
    split
    · exact ⟨_, _, rfl⟩
    · split
      · exact ⟨_, _, rfl⟩
      · rw [Prog.bind_apply hfind]
        obtain ⟨-, ⟨rfl, -⟩ | ⟨pt, rfl, ht⟩⟩ := vmm_find_pt_cases hpml4 hfind
        · exact ⟨0, m, rfl⟩
        · have hpt := (hA.managed pt _ (hA.table_typed hr hpage ht)).window
          simp only [vmm_virt_to_offs_eq]
          exact ⟨_, m, readEnt_returns hpt (Nat.mod_lt _ (by decide))⟩
  obtain ⟨rfl, rfl⟩ := vmm_get_entry_spec hpml4 hv hrun
  exact hrun

/-! ## §2. A row of pages. -/

def rowEntry (v : Nat) (phys perms : U64) (w : Nat) : U64 :=
  (phys + BitVec.ofNat 64 (4096 * (w - v))) ||| perms ||| VMM_FLAG_PRESENT

theorem rowEntry_succ {v w : Nat} (h : v < w) (phys perms : U64) :
    rowEntry (v + 1) (phys + 0x1000) perms w = rowEntry v phys perms w := by
  have hadd : phys + 0x1000 + BitVec.ofNat 64 (4096 * (w - (v + 1)))
      = phys + BitVec.ofNat 64 (4096 * (w - v)) := by
    rw [BitVec.add_assoc, show (0x1000 : U64) = BitVec.ofNat 64 4096 from rfl, ← BitVec.ofNat_add]
    congr 2
    omega
  unfold rowEntry
  rw [hadd]

theorem row_address {dst : U64} {n j : Nat} (hrow : pageOf dst + n ≤ 2 ^ 35) (hj : j < n) :
    pageOf (dst + BitVec.ofNat 64 (4096 * j)) = pageOf dst + j
    ∧ (dst + BitVec.ofNat 64 (4096 * j)).toNat < 2 ^ 47 := by
  have hpage : pageOf (dst + BitVec.ofNat 64 (4096 * j)) = pageOf dst + j := by
    refine pageOf_add ?_ (by omega)
    rw [BitVec.toNat_ofNat, Nat.mod_eq_of_lt (by omega)]
  refine ⟨hpage, ?_⟩
  have hdiv : (dst + BitVec.ofNat 64 (4096 * j)).toNat / 4096 = pageOf dst + j := hpage
  omega

theorem vmm_map_pages_entries {k r : Nat} {pml4 : U64} (hpml4 : pml4.toNat = 4096 * r) :
    ∀ (count : Nat) (virt phys perms : U64) (m m' : Machine) (G : Ledger κ) (i : Int),
      Accounted k m G → G r = some (.table r []) → pageOf virt + count ≤ 2 ^ 35 →
      vmm_map_pages pml4 virt phys count perms m = some (i, m') →
      ∀ w, w < 2 ^ 35 → m'.entry r w
        = if pageOf virt ≤ w ∧ w < pageOf virt + count then rowEntry (pageOf virt) phys perms w
          else m.entry r w := by
  intro count
  induction count with
  | zero =>
    intro virt phys perms m m' G i _ _ _ hrun w _
    obtain ⟨-, rfl⟩ := Prog.pure_eq_some.mp hrun
    rw [if_neg (by omega)]
  | succ count ih =>
    intro virt phys perms m m' G i hA hr hrow hrun w hw
    have hv : pageOf virt < 2 ^ 35 := by omega
    obtain ⟨_, m1, hpage, hpages⟩ := Prog.bind_eq_some.mp hrun
    obtain ⟨G1, hA1, ht, -, hentry⟩ := vmm_map_page_touches hA hr hpml4 hv hpage
    rw [ih _ _ perms m1 m' G1 i hA1 (ht.ext r _ hr) (by rw [pageOf_succ hv]; omega) hpages w hw,
      pageOf_succ hv, hentry r w hr hw]
    -- the first page, the rest of the row, or neither
    by_cases hfirst : w = pageOf virt
    · rw [if_neg (by omega), if_pos ⟨rfl, hfirst⟩, if_pos (by omega), hfirst]
      simp [rowEntry]
    · rw [if_neg (c := r = r ∧ w = pageOf virt) (fun h => hfirst h.2)]
      by_cases hin : pageOf virt + 1 ≤ w ∧ w < pageOf virt + 1 + count
      · rw [if_pos hin, if_pos (by omega), rowEntry_succ (by omega)]
      · rw [if_neg hin, if_neg (by omega)]

/-! ## §3. The law. -/

/-- **The translation law.**  In every state the contexts reach by mapping and
unmapping pages of the lower half, for every row of pages there: `vmm_map_pages`
returns iff there are frames for the tables missing on the way; the entries of
the row are then those asked for, and those of all other pages of the lower half
are as before. -/
theorem map_pages_translation (ehdr : Option (List Elf64Phdr)) (m : Machine) (hboot : Booted m)
    (ops : List CtxOp) (s : CtxState)
    (hrun : run (ctxStep ehdr) (CtxState.init m) ops = some s) (hlower : ∀ op ∈ ops, op.Lower)
    (hnull : 0 ∉ s.contexts) (ctx : U64) (hctx : ctx ∈ s.contexts) (virt phys perms : U64)
    (count : Nat) (hrow : pageOf virt + count ≤ 2 ^ 35) :
    ((∃ m', vmm_map_pages ctx virt phys count perms s.machine = some (1, m'))
      ↔ tablesMissing s.machine (rootOf ctx) (Finset.Ico (pageOf virt) (pageOf virt + count))
        ≤ freeFrames s.machine)
    ∧ ∀ i m', vmm_map_pages ctx virt phys count perms s.machine = some (i, m') →
        (∀ j, j < count → vmm_get_entry ctx (virt + BitVec.ofNat 64 (4096 * j)) m'
          = some ((phys + BitVec.ofNat 64 (4096 * j)) ||| perms ||| VMM_FLAG_PRESENT, m'))
        ∧ ∀ w : U64, w.toNat < 2 ^ 47 →
            (∀ j, j < count → pageOf w ≠ pageOf virt + j) →
            ∃ ent, vmm_get_entry ctx w s.machine = some (ent, s.machine)
              ∧ vmm_get_entry ctx w m' = some (ent, m') := by
  obtain ⟨G, h⟩ := (Separated.run hboot hrun hlower).resolve_left hnull
  obtain ⟨hpml4, hr⟩ := h.roots ctx hctx
  refine ⟨vmm_map_pages_returns_iff hpml4 count virt phys perms s.machine G h.accounted hr hrow,
    fun i m' hmap => ?_⟩
  obtain ⟨G', hA', ht, -⟩ := vmm_map_pages_touches hpml4 count virt phys perms s.machine m' G i
    h.accounted hr hrow hmap
  have hentries := vmm_map_pages_entries hpml4 count virt phys perms s.machine m' G i h.accounted
    hr hrow hmap
  have hr' := ht.ext _ _ hr
  constructor
  · -- address `j` of the row is on its page `j`
    intro j hj
    obtain ⟨hpage, hlt⟩ := row_address hrow hj
    rw [vmm_get_entry_returns hA' hr' hpml4 hlt, hpage, hentries _ (by omega),
      if_pos ⟨by omega, by omega⟩, rowEntry, Nat.add_sub_cancel_left]
  · intro w hw hout
    have hpage : pageOf w < 2 ^ 35 := by
      unfold pageOf
      omega
    refine ⟨s.machine.entry (rootOf ctx) (pageOf w),
      vmm_get_entry_returns h.accounted hr hpml4 hw, ?_⟩
    rw [vmm_get_entry_returns hA' hr' hpml4 hw, hentries _ hpage, if_neg]
    rintro ⟨hlo, hhi⟩
    exact hout (pageOf w - pageOf virt) (by omega) (by omega)

/-- Two pages in a fresh context, across the end of a table. -/
theorem map_pages_translation_two_tables :
    ∃ s m', run (ctxStep none) (CtxState.init bootMachine) [.new_address_space] = some s
      ∧ vmm_map_pages 0x2009000 0x1FF000 0x5000 2 3 s.machine = some (1, m')
      ∧ vmm_get_entry 0x2009000 0x1FF000 m' = some (0x5003, m')
      ∧ vmm_get_entry 0x2009000 0x200000 m' = some (0x6003, m')
      ∧ vmm_get_entry 0x2009000 0x201000 m' = some (0, m') := by
  have heval : ((run (ctxStep none) (CtxState.init bootMachine) [.new_address_space]).bind fun s =>
      (vmm_map_pages 0x2009000 0x1FF000 0x5000 2 3 s.machine).map fun r =>
        (s.contexts, r.1, (vmm_get_entry 0x2009000 0x201000 s.machine).map Prod.fst))
      = some ([0x2009000, 0x2001000], 1, some 0) := by
    decide +kernel
  obtain ⟨s, hrun, h⟩ := Option.bind_eq_some_iff.mp heval
  obtain ⟨⟨i, m'⟩, hmap, h⟩ := Option.map_eq_some_iff.mp h
  simp only [Prod.mk.injEq] at h
  obtain ⟨hctx, rfl, hread⟩ := h
  obtain ⟨hin, hout⟩ := (map_pages_translation none bootMachine bootMachine_booted
    [.new_address_space] s hrun (by simp [CtxOp.Lower]) (by rw [hctx]; decide) 0x2009000
    (by rw [hctx]; decide) 0x1FF000 0x5000 3 2 (by decide)).2 1 m' hmap
  refine ⟨s, m', hrun, hmap, hin 0 (by decide), hin 1 (by decide), ?_⟩
  obtain ⟨ent, hbefore, hafter⟩ := hout 0x201000 (by decide) (by decide)
  rw [hbefore, Option.map_some, Option.some.injEq] at hread
  rwa [show ent = 0 from hread] at hafter

end Quack.Arch
