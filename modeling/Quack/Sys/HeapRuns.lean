/-
  Quack.Sys.HeapRuns
  **BLOCKS OF THE KERNEL'S HEAP ARE ISOLATED.**

  The heap after `vmm_init` is empty, and `HeapInv` holds of it
  (`HeapInv.booted`).  In a run of `kmalloc` and `kfree` of live blocks it
  therefore holds throughout (`HeapInv.step`), and says what the machine's own
  tables show of the blocks:

    • `heap_isolated` — in every state of every run, and `kfree` leaves the
      pages of all other blocks alone.
-/
import Quack.Sys.HeapFree

namespace Quack.Arch

/-! ## §1. A ledger without data is a ledger of any kind. -/

variable {κ κ' : Type} {k : Nat} {m : Machine} {G : Ledger κ}

/-- Rename the kinds of data. -/
def Use.relabel (g : κ → κ') : Use κ → Use κ'
  | .table r p => .table r p
  | .upper p => .upper p
  | .data d => .data (g d)

def Ledger.relabel (g : κ → κ') (G : Ledger κ) : Ledger κ' := fun f => (G f).map (Use.relabel g)

theorem Ledger.relabel_eq_some {g : κ → κ'} {f : Nat} {u' : Use κ'} :
    G.relabel g f = some u' ↔ ∃ u, G f = some u ∧ u.relabel g = u' :=
  Option.map_eq_some_iff

theorem Ledger.relabel_table {g : κ → κ'} {f r : Nat} {p : List Nat} :
    G.relabel g f = some (.table r p) ↔ G f = some (.table r p) := by
  rw [Ledger.relabel_eq_some]
  constructor
  · rintro ⟨u, hf, hu⟩
    cases u with
    | table r' p' =>
      cases hu
      exact hf
    | upper p' => cases hu
    | data d => cases hu
  · exact fun hf => ⟨_, hf, rfl⟩

theorem Use.relabel_child (g : κ → κ') (u : Use κ) (i : Nat) :
    (u.relabel g).child i = (u.child i).map (Use.relabel g) := by
  cases u with
  | table r p =>
    simp only [Use.relabel, Use.child]
    split
    · rfl
    · split <;> rfl
  | upper p =>
    simp only [Use.relabel, Use.child]
    split <;> rfl
  | data d => rfl

theorem Accounted.relabel (h : Accounted k m G) (g : κ → κ') : Accounted k m (G.relabel g) where
  len := h.len
  bitmap := h.bitmap
  managed f u' hf := by
    obtain ⟨u, hu, -⟩ := Ledger.relabel_eq_some.mp hf
    exact h.managed f u hu
  root f r p hf := Ledger.relabel_table.mpr (h.root f r p (Ledger.relabel_table.mp hf))
  root_self f r hf := h.root_self f r (Ledger.relabel_table.mp hf)
  slots f u' i hf hi := by
    obtain ⟨u, hu, rfl⟩ := Ledger.relabel_eq_some.mp hf
    intro w' hw'
    rw [Use.relabel_child] at hw'
    obtain ⟨w, hw, rfl⟩ := Option.map_eq_some_iff.mp hw'
    rcases h.slots f u i hu hi w hw with hz | ⟨c, hc, hGc⟩ | ⟨⟨p, rfl, hp⟩, hpresent, hlarge⟩
    · exact Or.inl hz
    · exact Or.inr (Or.inl ⟨c, hc, Ledger.relabel_eq_some.mpr ⟨w, hGc, rfl⟩⟩)
    · exact Or.inr (Or.inr ⟨⟨p, rfl, hp⟩, hpresent, hlarge⟩)
  kernel := Ledger.relabel_table.mpr h.kernel
  shared r i hr := h.shared r i (Ledger.relabel_table.mp hr)

theorem Accounted.entry_eq_zero (h : Accounted k m G)
    (honly : ∀ f r p, G f = some (.table r p) → r = k ∧ p = []) {v : Nat} (hv : v < 2 ^ 35) :
    m.entry k v = 0 := by
  have htable : m.table k v = none := by
    cases ht : m.table k v with
    | none => rfl
    | some f => cases (honly f k _ (h.table_typed h.kernel hv ht)).2
  unfold Machine.entry
  rw [htable]

end Quack.Arch

namespace Quack.Sys

open Lib Mm Arch

/-! ## §2. The heap after `vmm_init`. -/

theorem HeapInv.booted {m : Machine} (h : Booted m) :
    ∃ k G, HeapInv k m G [] ∧ m.kernel_pml4.toNat = 4096 * k
      ∧ ∀ f u, G f = some u → ∀ d, u ≠ .data d := by
  obtain ⟨k, G, hA, hk, honly, htop, -⟩ := h
  have hbase : pageOf m.top = pageOf vm_heap_base := congrArg pageOf htop
  refine ⟨k, G.relabel Empty.elim, ⟨⟨hA.relabel _, hk, ?_, ?_, ?_, ?_, ?_⟩, ?_, ?_, ?_, ?_⟩, hk, ?_⟩
  · rw [htop]
    decide
  · rw [hbase]
  · rw [hbase]
    decide
  · intro v h1 h2
    rw [hbase] at h2
    omega
  · intro v _ hv
    exact hA.entry_eq_zero honly hv
  · intro b hb
    cases hb
  · intro b hb
    cases hb
  · intro b hb
    cases hb
  · exact List.Pairwise.nil
  · intro f u hf d hd
    obtain ⟨w, -, rfl⟩ := Ledger.relabel_eq_some.mp hf
    cases w with
    | table r p => cases hd
    | upper p => cases hd
    | data e => exact e.elim

/-! ## §3. Runs. -/

structure HeapState where
  machine : Machine
  blocks : List HeapBlock

inductive HeapOp where
  | kmalloc (bytes : U64)
  /-- Free a live block, by position. -/
  | kfree (block : Nat)
  deriving Repr, DecidableEq

def heapStep (s : HeapState) : HeapOp → Option HeapState
  | .kmalloc bytes => (Mm.kmalloc bytes s.machine).map fun (ptr, m) =>
    ⟨m, if ptr = 0 then s.blocks else ⟨ptr, bytes⟩ :: s.blocks⟩
  | .kfree block => do
    let c ← Cursor.at? s.blocks block
    let (_, m) ← Mm.kfree c.elem.ptr s.machine
    pure ⟨m, c.erase⟩

section Runs

variable {k : Nat} {s s' : HeapState} {G : Ledger Owner}

theorem heapStep_kfree {block : Nat} (h : heapStep s (.kfree block) = some s') :
    ∃ c u, Cursor.at? s.blocks block = some c ∧ Mm.kfree c.elem.ptr s.machine = some (u, s'.machine)
      ∧ s'.blocks = c.erase := by
  obtain ⟨c, hc, h⟩ := Option.bind_eq_some_iff.mp h
  obtain ⟨⟨u, m⟩, hrun, h⟩ := Option.bind_eq_some_iff.mp h
  injection h with h
  subst h
  exact ⟨c, u, hc, hrun, rfl⟩

variable {m m' : Machine} {G' : Ledger Owner}

theorem BlockOk.ptr_ne_zero {b : HeapBlock} (h : BlockOk k m G b) : b.ptr ≠ 0 := by
  intro hz
  have hends := h.ends
  have hheader := h.header
  have hfits := h.fits
  have hle := h.pages_le
  rw [hz, show (0 : U64).toNat = 0 from rfl] at hends
  omega

/-- Nothing but pages of the heap is mapped in the kernel's lower half. -/
def OnlyHeap (k : Nat) (m : Machine) (G : Ledger Owner) : Prop :=
  ∀ v, v < 2 ^ 35 → m.entry k v = 0 ∨ (pageOf vm_heap_base ≤ v ∧ HeapPage k m G v)

theorem OnlyHeap.keep (h : OnlyHeap k m G)
    (hen : ∀ v, v < 2 ^ 35 → m'.entry k v = m.entry k v)
    (hext : ∀ f v, G f = some (.data (.heap v)) → G' f = some (.data (.heap v))) :
    OnlyHeap k m' G' := by
  intro v hv
  rw [hen v hv]
  refine (h v hv).imp id fun ⟨hlo, f, hchild, hf⟩ => ⟨hlo, f, ?_, hext f v hf⟩
  rw [hen v hv]
  exact hchild

theorem OnlyHeap.grew (h : OnlyHeap k m G)
    (ht : HeapTop k m G) (ht' : HeapTop k m' G') (hgrew : Grew k m G m' G') :
    OnlyHeap k m' G' := by
  intro v hv
  by_cases hold : v < pageOf m.top
  · rw [hgrew.entries v hold]
    refine (h v hv).imp id fun ⟨hlo, f, hchild, hf⟩ =>
      ⟨hlo, f, ?_, hgrew.confined.ext f _ hf id⟩
    rw [hgrew.entries v hold]
    exact hchild
  · by_cases hnew : v < pageOf m'.top
    · obtain ⟨f, hchild, hf, -⟩ := hgrew.pages v (by omega) hnew
      exact Or.inr ⟨Nat.le_trans ht.base (by omega), f, hchild, hf⟩
    · exact Or.inl (ht'.clear v (by omega) hv)

theorem OnlyHeap.released {lo hi : Nat}
    (h : OnlyHeap k m G) (hrel : Released k lo hi m G m' G') : OnlyHeap k m' G' := by
  intro v hv
  rw [hrel.entries v hv]
  by_cases hin : lo ≤ v ∧ v < hi
  · rw [if_pos hin]
    exact Or.inl rfl
  · rw [if_neg hin]
    exact (h v hv).imp id fun hp => ⟨hp.1, hrel.page hv hp.2 hin⟩

theorem HeapInv.step_only (h : HeapInv k s.machine G s.blocks) {op : HeapOp}
    (hstep : heapStep s op = some s') :
    ∃ G', Confined (fun u => ∃ v, u = .data (.heap v)) k s.machine G s'.machine G'
      ∧ HeapInv k s'.machine G' s'.blocks
      ∧ (OnlyHeap k s.machine G → OnlyHeap k s'.machine G') := by
  cases op with
  | kmalloc bytes =>
    obtain ⟨⟨ptr, m⟩, hrun, rfl⟩ := Option.map_eq_some_iff.mp hstep
    obtain ⟨b, m1, G', -, ht1, hgrew, hc, hcase⟩ := kmalloc_cases h hrun
    refine ⟨G', hc.mono (fun _ hu => hu.elim), ?_⟩
    show HeapInv k m G' (if ptr = 0 then _ else _) ∧ (_ → OnlyHeap k m G')
    rcases hcase with ⟨-, rfl, rfl, hinv⟩ | ⟨-, hinv, hplaced⟩
    · rw [if_pos rfl]
      exact ⟨hinv, fun honly => honly.grew h.toHeapTop ht1 hgrew⟩
    · rw [if_neg (hinv.ok _ List.mem_cons_self).ptr_ne_zero]
      exact ⟨hinv, fun honly => (honly.grew h.toHeapTop ht1 hgrew).keep hplaced.entries
        fun _ _ hf => hf⟩
  | kfree block =>
    obtain ⟨c, u, hc, hrun, hblocks⟩ := heapStep_kfree hstep
    obtain ⟨G', hrel, hinv⟩ := kfree_spec h (Cursor.toList_of_at? hc) hrun
    rw [hblocks]
    exact ⟨G', hrel.confined.mono (fun u ⟨v, _, _, hu⟩ => ⟨v, hu⟩), hinv,
      fun honly => honly.released hrel⟩

theorem HeapInv.step (h : HeapInv k s.machine G s.blocks) {op : HeapOp}
    (hstep : heapStep s op = some s') :
    ∃ G', Confined (fun u => ∃ v, u = .data (.heap v)) k s.machine G s'.machine G'
      ∧ HeapInv k s'.machine G' s'.blocks := by
  obtain ⟨G', hc, hinv, -⟩ := h.step_only hstep
  exact ⟨G', hc, hinv⟩

/-- The frame behind a page of the kernel. -/
def kernelFrame (m : Machine) (v : Nat) : Option Nat :=
  match m.translate (rootOf m.kernel_pml4) v with
  | some (.page ent) => child ent
  | _ => none

/-- **What the kernel's tables show of its blocks.** -/
structure Isolated (s : HeapState) : Prop where
  /-- Header and data `[p - 16, p + n)` are in the block's pages. -/
  inside : ∀ b ∈ s.blocks, ∀ a, b.ptr.toNat - 16 ≤ a → a < b.ptr.toNat + b.size.toNat →
    b.first ≤ a / 4096 ∧ a / 4096 < b.stop
  /-- These are mapped, to frames in use. -/
  mapped : ∀ b ∈ s.blocks, ∀ v, b.first ≤ v → v < b.stop →
    ∃ f, kernelFrame s.machine v = some f ∧ s.machine.bit f = true
  /-- No page is in two blocks. -/
  apart : s.blocks.Pairwise fun a b => ∀ v, ¬ (a.first ≤ v ∧ v < a.stop ∧ b.first ≤ v ∧ v < b.stop)
  /-- No frame is behind two pages. -/
  frames : ∀ a ∈ s.blocks, ∀ b ∈ s.blocks, ∀ v w f, a.first ≤ v → v < a.stop → b.first ≤ w →
    w < b.stop → kernelFrame s.machine v = some f → kernelFrame s.machine w = some f → v = w
  guard : ∀ b ∈ s.blocks, s.machine.translate (rootOf s.machine.kernel_pml4) b.stop = none

theorem HeapTop.kernelFrame_eq (h : HeapTop k m G) {v : Nat} (hv : v < 2 ^ 35) :
    kernelFrame m v = child (m.entry k v) := by
  unfold kernelFrame
  rw [rootOf_eq h.kernel, h.accounted.translate_lower h.accounted.kernel hv]
  cases hc : child (m.entry k v) with
  | none => rfl
  | some f => exact hc

theorem le_kmallocBytes {n : U64} (h : n.toNat + 4118 < 2 ^ 64) :
    n.toNat + 16 ≤ (kmallocBytes n).toNat := by
  unfold kmallocBytes
  rw [BitVec.toNat_add, BitVec.toNat_mul, BitVec.toNat_udiv, BitVec.toNat_add]
  rw [show (8 : U64).toNat = 8 from rfl, show (7 : U64).toNat = 7 from rfl,
    show (16 : U64).toNat = 16 from rfl]
  omega

theorem HeapInv.isolated (h : HeapInv k s.machine G s.blocks)
    (hsize : ∀ b ∈ s.blocks, b.size.toNat + 4118 < 2 ^ 64) : Isolated s := by
  have hwindow := h.top_lt
  have hpage : ∀ b ∈ s.blocks, ∀ v, b.first ≤ v → v < b.stop → v < 2 ^ 35
      ∧ ∃ f, kernelFrame s.machine v = some f ∧ G f = some (.data (.heap v)) := by
    intro b hb v h1 h2
    have hhigh := h.high b hb
    refine ⟨by omega, ?_⟩
    rw [h.kernelFrame_eq (by omega)]
    exact (h.ok b hb).mapped v h1 h2
  refine ⟨?_, ?_, ?_, ?_, ?_⟩
  · intro b hb a h1 h2
    have hok := h.ok b hb
    have hends := hok.ends
    have hfits := hok.fits
    have hle := hok.pages_le
    have hfirst : b.first = b.stop - b.pages := rfl
    have hbytes : b.size.toNat + 16 ≤ b.bytes := le_kmallocBytes (hsize b hb)
    omega
  · intro b hb v h1 h2
    obtain ⟨-, f, hf, hG⟩ := hpage b hb v h1 h2
    exact ⟨f, hf, (h.accounted.managed f _ hG).bit⟩
  · refine h.apart.imp ?_
    rintro a b hab v ⟨h1, h2, h3, h4⟩
    omega
  · -- a frame has one use, and the use names the page
    intro a ha b hb v w f hv1 hv2 hw1 hw2 hfv hfw
    obtain ⟨-, f1, hf1, hG1⟩ := hpage a ha v hv1 hv2
    obtain ⟨-, f2, hf2, hG2⟩ := hpage b hb w hw1 hw2
    rw [hfv] at hf1
    rw [hfw] at hf2
    injection hf1 with hf1
    injection hf2 with hf2
    subst hf1
    subst hf2
    rw [hG1] at hG2
    injection hG2 with hG2
    injection hG2 with hG2
    injection hG2
  · intro b hb
    have hhigh := h.high b hb
    rw [rootOf_eq h.kernel, h.accounted.translate_lower h.accounted.kernel (by omega),
      (h.ok b hb).guard]
    rfl

theorem HeapInv.kfree_others (h : HeapInv k s.machine G s.blocks) {i : Nat}
    {c : Cursor HeapBlock} (hc : Cursor.at? s.blocks i = some c)
    (hstep : heapStep s (.kfree i) = some s') {b : HeapBlock} (hb : b ∈ c.erase) {v : Nat}
    (hlo : b.first ≤ v) (hhi : v < b.stop) :
    kernelFrame s'.machine v = kernelFrame s.machine v
    ∧ ∀ f, kernelFrame s.machine v = some f → s'.machine.bit f = true := by
  obtain ⟨c', u, hc', hrun, hblocks⟩ := heapStep_kfree hstep
  rw [hc] at hc'
  injection hc' with hc'
  subst hc'
  have hl := Cursor.toList_of_at? hc
  obtain ⟨G', hrel, hinv⟩ := kfree_spec h hl hrun
  have hhigh := hinv.high b hb
  have hwindow := hinv.top_lt
  obtain ⟨f', hchild', hG'⟩ := (hinv.ok b hb).mapped v hlo hhi
  -- the page is still mapped, so it is none of those given back
  have hsame : s'.machine.entry k v = s.machine.entry k v := by
    rw [hrel.entries v (by omega)]
    split
    · next hin =>
        rw [hrel.entries v (by omega), if_pos hin, child_zero] at hchild'
        cases hchild'
    · rfl
  rw [h.kernelFrame_eq (by omega), hinv.kernelFrame_eq (by omega), hsame]
  refine ⟨rfl, fun f hf => ?_⟩
  rw [hsame, hf] at hchild'
  injection hchild' with hchild'
  subst hchild'
  exact (hinv.accounted.managed f _ hG').bit

end Runs

/-- The sizes for which no rounding in `kmalloc` wraps around. -/
def HeapOp.Small : HeapOp → Prop
  | .kmalloc bytes => bytes.toNat + 4118 < 2 ^ 64
  | .kfree _ => True

theorem heapStep_sizes {s s' : HeapState} {op : HeapOp} (hop : op.Small)
    (hs : ∀ b ∈ s.blocks, b.size.toNat + 4118 < 2 ^ 64) (hstep : heapStep s op = some s') :
    ∀ b ∈ s'.blocks, b.size.toNat + 4118 < 2 ^ 64 := by
  cases op with
  | kmalloc bytes =>
    obtain ⟨⟨ptr, m⟩, -, rfl⟩ := Option.map_eq_some_iff.mp hstep
    intro b hb
    simp only at hb
    split at hb
    · exact hs b hb
    · rcases List.mem_cons.mp hb with rfl | hb
      · exact hop
      · exact hs b hb
  | kfree block =>
    obtain ⟨c, u, hc, -, hblocks⟩ := heapStep_kfree hstep
    intro b hb
    rw [hblocks] at hb
    exact hs b (Cursor.mem_of_erase (Cursor.toList_of_at? hc) hb)

/-- **Heap blocks are isolated**, in every state of every run of `kmalloc` and
`kfree` of live blocks, and `kfree` of one unmaps or frees no page of another. -/
theorem heap_isolated (m : Machine) (hboot : Booted m) (ops : List HeapOp)
    (hsmall : ∀ op ∈ ops, op.Small) (s : HeapState)
    (hrun : run heapStep ⟨m, []⟩ ops = some s) :
    Isolated s
    ∧ ∀ i c s', Cursor.at? s.blocks i = some c → heapStep s (.kfree i) = some s' →
        ∀ b ∈ c.erase, ∀ v, b.first ≤ v → v < b.stop →
          kernelFrame s'.machine v = kernelFrame s.machine v
          ∧ ∀ f, kernelFrame s.machine v = some f → s'.machine.bit f = true := by
  obtain ⟨k, G0, h0, -, -⟩ := HeapInv.booted hboot
  obtain ⟨⟨G, h⟩, hsize⟩ := Along.invariant heapStep
    (fun s => (∃ G, HeapInv k s.machine G s.blocks)
      ∧ ∀ b ∈ s.blocks, b.size.toNat + 4118 < 2 ^ 64)
    (fun s op s' ⟨⟨G, h⟩, hs⟩ hop hstep =>
      ⟨(h.step hstep).imp fun _ hstep => hstep.2, heapStep_sizes hop hs hstep⟩)
    ops ⟨m, []⟩ s ⟨⟨G0, h0⟩, fun b hb => absurd hb List.not_mem_nil⟩
    (along_of_forall _ ops _ fun op hop _ => hsmall op hop) hrun
  exact ⟨h.isolated hsize, fun i c s' hc hstep b hb v h1 h2 => h.kfree_others hc hstep hb h1 h2⟩

/-- Three blocks, of which the second is freed: of the other two, one has its
header at the end of its page, the other lies in two pages. -/
theorem heap_isolated_two_blocks :
    ∃ s, run heapStep ⟨bootMachine, []⟩ [.kmalloc 8, .kmalloc 4064, .kmalloc 5000, .kfree 1]
        = some s
      ∧ s.blocks = [⟨0x200004C78, 5000⟩, ⟨0x200000FF8, 8⟩] ∧ Isolated s := by
  have hruns : (run heapStep ⟨bootMachine, []⟩
      [.kmalloc 8, .kmalloc 4064, .kmalloc 5000, .kfree 1]).map HeapState.blocks
      = some [⟨0x200004C78, 5000⟩, ⟨0x200000FF8, 8⟩] := by
    decide +kernel
  obtain ⟨s, hrun, hblocks⟩ := Option.map_eq_some_iff.mp hruns
  refine ⟨s, hrun, hblocks, ?_⟩
  exact (heap_isolated bootMachine bootMachine_booted _ (by simp [HeapOp.Small]) s hrun).1

end Quack.Sys
