/-
  Quack.Arch.KernelQueries
  **WHAT THE KERNEL'S QUERIES SAY OF A MAPPING (`arch/mm.h`).**

  `arch_mm_map_kernel` encodes permissions and a cache mode into an `int`, and
  `arch_mm_get_flags_kernel` decodes an `int`: bit 63, the one for pages that are
  not executable, is lost both times.

    • `kernel_queries_invert` — when the queries invert a mapping.
-/
import Quack.Arch.PageRows

namespace Quack.Arch

open Lib

/-! ## §1. Flag words. -/

/-- A set of permissions, with `vm_perm::read` in it. -/
def ReadablePerms (flags : BitVec 32) : Prop := flags.toNat < 16 ∧ flags &&& vm_perm_read ≠ 0

/-- The flags `arch_mm_map_kernel` gives an entry. -/
def entryFlags (flags cache : BitVec 32) : U64 := (vmm_arch_to_vmm_flags flags cache).signExtend 64

theorem flag_word_low (ent : U64) :
    ((ent &&& VMM_FLAG_MASK).truncate 32 : BitVec 32)
      = ((ent &&& 0xFFF &&& VMM_FLAG_MASK).truncate 32 : BitVec 32) := by
  have hmask : ∀ i, i < 32 → VMM_FLAG_MASK.getLsbD i
      = ((0xFFF : U64).getLsbD i && VMM_FLAG_MASK.getLsbD i) := by
    decide
  apply BitVec.eq_of_getLsbD_eq
  intro i hi
  simp only [BitVec.truncate_eq_setWidth, BitVec.getLsbD_setWidth, BitVec.getLsbD_and,
    Bool.and_assoc]
  rw [← hmask i hi]

theorem flagsOf_low (ent : U64) : flagsOf ent = flagsOf (ent &&& 0xFFF) := by
  unfold flagsOf
  rw [flag_word_low]

theorem cacheOf_low (ent : U64) : cacheOf ent = cacheOf (ent &&& 0xFFF) := by
  unfold cacheOf
  rw [flag_word_low]

theorem andFlag_nx (ent : U64) :
    andFlag ((ent &&& VMM_FLAG_MASK).truncate 32) VMM_FLAG_NX = false := by
  have hmsb : ((ent &&& VMM_FLAG_MASK).truncate 32 : BitVec 32).msb = false := by
    rw [BitVec.msb_eq_getLsbD_last, BitVec.truncate_eq_setWidth, BitVec.getLsbD_setWidth,
      BitVec.getLsbD_and, show VMM_FLAG_MASK.getLsbD (32 - 1) = false by decide, Bool.and_false,
      Bool.and_false]
  have hnx : ∀ i, i < 32 → VMM_FLAG_NX.getLsbD i = false := by decide
  have hzero : (((ent &&& VMM_FLAG_MASK).truncate 32 : BitVec 32).signExtend 64 &&& VMM_FLAG_NX)
      = 0#64 := by
    rw [BitVec.signExtend_eq_setWidth_of_msb_false hmsb]
    apply BitVec.eq_of_getLsbD_eq
    intro i _
    rw [BitVec.getLsbD_and, BitVec.getLsbD_zero]
    by_cases hlow : i < 32
    · rw [hnx i hlow, Bool.and_false]
    · rw [BitVec.getLsbD_setWidth, BitVec.getLsbD_of_ge _ i (by omega), Bool.and_false,
        Bool.false_and]
  unfold andFlag
  rw [hzero]
  rfl

theorem flagsOf_execute (ent : U64) : flagsOf ent &&& vm_perm_execute ≠ 0 := by
  unfold flagsOf
  simp only [andFlag_nx, Bool.not_false, if_true]
  rw [BitVec.and_or_distrib_right, BitVec.and_self]
  intro h
  have hbit := congrArg (fun x => BitVec.getLsbD x 2) h
  simp [vm_perm_execute] at hbit

theorem flag_words (flags cache : BitVec 32) (hflags : ReadablePerms flags)
    (hcache : cache.toNat ≤ 4) :
    entryFlags flags cache &&& 0xFFF = entryFlags flags cache
    ∧ flagsOf (entryFlags flags cache ||| VMM_FLAG_PRESENT) = flags ||| vm_perm_execute
    ∧ cacheOf (entryFlags flags cache ||| VMM_FLAG_PRESENT) = cache := by
  have hall : ∀ f : Fin 16, ∀ c : Fin 5, BitVec.ofNat 32 f &&& vm_perm_read ≠ 0 →
      entryFlags (BitVec.ofNat 32 f) (BitVec.ofNat 32 c) &&& 0xFFF
        = entryFlags (BitVec.ofNat 32 f) (BitVec.ofNat 32 c)
      ∧ flagsOf (entryFlags (BitVec.ofNat 32 f) (BitVec.ofNat 32 c) ||| VMM_FLAG_PRESENT)
        = BitVec.ofNat 32 f ||| vm_perm_execute
      ∧ cacheOf (entryFlags (BitVec.ofNat 32 f) (BitVec.ofNat 32 c) ||| VMM_FLAG_PRESENT)
        = BitVec.ofNat 32 c := by
    decide +kernel
  have h := hall ⟨flags.toNat, hflags.1⟩ ⟨cache.toNat, by omega⟩
  simp only [BitVec.ofNat_toNat, BitVec.setWidth_eq] at h
  exact h hflags.2

theorem page_entry {addr p : U64} (haddr : addr.toNat % 4096 = 0) (hp : p &&& 0xFFF = p) :
    (addr ||| p ||| VMM_FLAG_PRESENT) &&& 0xFFF = p ||| VMM_FLAG_PRESENT
    ∧ (addr ||| p ||| VMM_FLAG_PRESENT) &&& VMM_ADDR_MASK = addr &&& VMM_ADDR_MASK := by
  have hlow : addr &&& 0xFFF = 0#64 := by
    apply BitVec.eq_of_toNat_eq
    rw [BitVec.toNat_and, show (0xFFF : U64).toNat = 2 ^ 12 - 1 from rfl,
      Nat.and_two_pow_sub_one_eq_mod, haddr]
    rfl
  have hbits : (0xFFF : U64) &&& VMM_ADDR_MASK = 0#64 := by decide
  have hpresent : VMM_FLAG_PRESENT &&& 0xFFF = VMM_FLAG_PRESENT := by decide
  have hdrop : ∀ x : U64, x &&& 0xFFF = x → x &&& VMM_ADDR_MASK = 0#64 := by
    intro x hx
    rw [← hx, BitVec.and_assoc, hbits, BitVec.and_zero]
  constructor
  · rw [BitVec.and_or_distrib_right, BitVec.and_or_distrib_right, hlow, hp, hpresent,
      BitVec.zero_or]
  · rw [BitVec.and_or_distrib_right, BitVec.and_or_distrib_right, hdrop p hp,
      hdrop _ hpresent, BitVec.or_zero, BitVec.or_zero]

theorem and_addr_mask_eq_self {addr : U64} (haddr : addr.toNat % 4096 = 0) :
    addr &&& VMM_ADDR_MASK = addr ↔ addr.toNat < 2 ^ 63 := by
  have hnat : (addr &&& VMM_ADDR_MASK).toNat = 4096 * (addr.toNat % 2 ^ 63 / 4096) :=
    toNat_and_addr_mask addr
  constructor
  · intro h
    rw [h] at hnat
    omega
  · intro h
    apply BitVec.eq_of_toNat_eq
    omega

/-! ## §2. The queries. -/

/-- The three queries at `dst` return these values, and change nothing. -/
structure Queries (m : Machine) (dst phys : U64) (flags cache : BitVec 32) : Prop where
  phys : arch_mm_get_phys_kernel dst m = some (phys, m)
  flags : arch_mm_get_flags_kernel dst m = some (flags, m)
  cache : arch_mm_get_cache_kernel dst m = some (cache, m)

variable {κ : Type}

variable {m : Machine} {ehdr : Option (List Elf64Phdr)}

theorem queries_iff {k : Nat} {G : Ledger κ} (hA : Accounted k m G)
    (hk : m.kernel_pml4.toNat = 4096 * k) {dst phys : U64} {flags cache : BitVec 32}
    (hdst : dst.toNat < 2 ^ 47) :
    Queries m dst phys flags cache
      ↔ m.entry k (pageOf dst) &&& VMM_ADDR_MASK = phys ∧ flagsOf (m.entry k (pageOf dst)) = flags
        ∧ cacheOf (m.entry k (pageOf dst)) = cache := by
  have hent := vmm_get_entry_returns hA hA.kernel hk hdst
  have hroot : Prog.read Machine.kernel_pml4 m = some (m.kernel_pml4, m) := rfl
  have hphys : arch_mm_get_phys_kernel dst m
      = some (m.entry k (pageOf dst) &&& VMM_ADDR_MASK, m) := by
    unfold arch_mm_get_phys_kernel
    rw [Prog.bind_apply hroot, Prog.bind_apply hent]
    rfl
  have hflags : arch_mm_get_flags_kernel dst m = some (flagsOf (m.entry k (pageOf dst)), m) := by
    unfold arch_mm_get_flags_kernel
    rw [Prog.bind_apply hroot, Prog.bind_apply hent]
    rfl
  have hcache : arch_mm_get_cache_kernel dst m = some (cacheOf (m.entry k (pageOf dst)), m) := by
    unfold arch_mm_get_cache_kernel
    rw [Prog.bind_apply hroot, Prog.bind_apply hent]
    rfl
  constructor
  · rintro ⟨h1, h2, h3⟩
    rw [hphys, Option.some.injEq, Prod.mk.injEq] at h1
    rw [hflags, Option.some.injEq, Prod.mk.injEq] at h2
    rw [hcache, Option.some.injEq, Prod.mk.injEq] at h3
    exact ⟨h1.1, h2.1, h3.1⟩
  · rintro ⟨rfl, rfl, rfl⟩
    exact ⟨hphys, hflags, hcache⟩

theorem flags_query_ne_zero (m m' : Machine) (dst : U64) :
    arch_mm_get_flags_kernel dst m ≠ some (0, m') := by
  intro h
  obtain ⟨_, m1, -, h⟩ := Prog.bind_eq_some.mp h
  obtain ⟨ent, m2, -, h⟩ := Prog.bind_eq_some.mp h
  obtain ⟨hflags, -⟩ := Prog.pure_eq_some.mp h
  refine flagsOf_execute ent ?_
  rw [hflags]
  rfl

/-! ## §3. Pages that no call maps. -/

/-- Does the operation map page `w` of `ctx`? -/
def CtxOp.Maps (ctx : U64) (w : Nat) : CtxOp → Prop
  | .map_pages ctx' virt _ count _ =>
    ctx' = ctx ∧ pageOf virt ≤ w ∧ w < pageOf virt + count.toNat
  | .new_address_space => False
  | .unmap_pages _ _ _ => False

theorem ctxStep_entry {G : Ledger Empty} {s s' : CtxState}
    {op : CtxOp} (h : Separated G s) (hlower : op.Lower) (hstep : ctxStep ehdr s op = some s')
    {ctx : U64} (hctx : ctx ∈ s.contexts) {w : Nat} (hw : w < 2 ^ 35) (hnot : ¬ op.Maps ctx w) :
    s'.machine.kernel_pml4 = s.machine.kernel_pml4
    ∧ (s'.machine.entry (rootOf ctx) w = s.machine.entry (rootOf ctx) w
      ∨ s'.machine.entry (rootOf ctx) w = 0) := by
  obtain ⟨-, hr⟩ := h.roots ctx hctx
  -- another context has another root
  have hother : ∀ ctx' ∈ s.contexts, ctx' ≠ ctx → rootOf ctx ≠ rootOf ctx' := by
    intro ctx' hctx' hne he
    apply hne
    apply BitVec.eq_of_toNat_eq
    rw [(h.roots ctx' hctx').1, (h.roots ctx hctx).1, he]
  cases op with
  | new_address_space =>
    obtain ⟨⟨p, m'⟩, hrun, rfl⟩ := Option.map_eq_some_iff.mp hstep
    obtain ⟨hkept, -⟩ := vmm_new_address_space_accounted h.accounted h.kernel hrun
    exact ⟨hkept.vars.kernel, Or.inl (h.accounted.entry_congr hr hw
      fun f p j hf hj => hkept.slots f _ j hf hj)⟩
  | map_pages ctx' virt phys count perms =>
    simp only [ctxStep] at hstep
    split at hstep
    · next hctx' =>
        obtain ⟨⟨i, m'⟩, hrun, rfl⟩ := Option.map_eq_some_iff.mp hstep
        obtain ⟨haddr, hroot⟩ := h.roots ctx' hctx'
        obtain ⟨G', hA, ht, -⟩ := vmm_map_pages_touches haddr _ _ _ _ _ _ G i h.accounted hroot
          hlower hrun
        refine ⟨ht.vars.kernel, Or.inl ?_⟩
        by_cases hsame : ctx' = ctx
        · subst hsame
          show m'.entry _ w = _
          rw [vmm_map_pages_entries haddr _ _ _ _ _ _ G i h.accounted hroot hlower hrun w hw,
            if_neg fun hin => hnot ⟨rfl, hin⟩]
        · exact ht.entry_other h.accounted hr (hother ctx' hctx' hsame) hw
    · cases hstep
  | unmap_pages ctx' virt count =>
    simp only [ctxStep] at hstep
    split at hstep
    · next hctx' =>
        obtain ⟨⟨i, m'⟩, hrun, rfl⟩ := Option.map_eq_some_iff.mp hstep
        obtain ⟨haddr, hroot⟩ := h.roots ctx' hctx'
        obtain ⟨i', m1, hrun', hrow, -⟩ :=
          vmm_unmap_pages_rewrites haddr hroot count.toNat virt s.machine h.accounted hlower
        obtain ⟨-, rfl⟩ := Prod.mk.inj (Option.some.inj (hrun.symm.trans hrun'))
        refine ⟨hrow.touches.vars.kernel, ?_⟩
        by_cases hin : rootOf ctx = rootOf ctx' ∧ pageOf virt ≤ w ∧ w < pageOf virt + count.toNat
          ∧ Reached s.machine (rootOf ctx') (pageOf virt) w
        · right
          show m'.entry _ w = 0
          rw [hin.1]
          exact hrow.inside w hin.2.1 hin.2.2.1 hin.2.2.2
        · exact Or.inl (hrow.outside _ w hr hw hin)
    · cases hstep

theorem Booted.entry_eq_zero (h : Booted m) {w : Nat} (hw : w < 2 ^ 35) :
    m.entry (rootOf m.kernel_pml4) w = 0 := by
  obtain ⟨k, G, hA, hk, honly, -, -⟩ := h
  rw [rootOf_eq hk]
  apply entry_of_table_none
  cases ht : m.table k w with
  | none => rfl
  | some f =>
    obtain ⟨-, hpath⟩ := honly f k _ (hA.table_typed hA.kernel hw ht)
    cases hpath

theorem never_mapped_entry (hboot : Booted m)
    {ops : List CtxOp} {s : CtxState} (hrun : run (ctxStep ehdr) (CtxState.init m) ops = some s)
    (hlower : ∀ op ∈ ops, op.Lower) (hnull : 0 ∉ s.contexts) {w : Nat} (hw : w < 2 ^ 35)
    (hnot : ∀ op ∈ ops, ¬ op.Maps m.kernel_pml4 w) :
    s.machine.kernel_pml4 = m.kernel_pml4
    ∧ s.machine.entry (rootOf m.kernel_pml4) w = 0 := by
  have halong : Along (ctxStep ehdr) (fun _ op => op.Lower ∧ ¬ op.Maps m.kernel_pml4 w)
      (CtxState.init m) ops :=
    along_of_forall _ ops _ (fun op hop _ => ⟨hlower op hop, hnot op hop⟩)
  refine (Along.invariant (ctxStep ehdr) (fun s => 0 ∈ s.contexts
    ∨ ((∃ G, Separated G s) ∧ m.kernel_pml4 ∈ s.contexts)
      ∧ s.machine.kernel_pml4 = m.kernel_pml4
      ∧ s.machine.entry (rootOf m.kernel_pml4) w = 0) ?_ ops _ s ?_ halong hrun).resolve_left
    hnull |>.2
  · rintro s op s' (hnull | ⟨⟨⟨G, h⟩, hmem⟩, hkernel, hzero⟩) ⟨hop, hmaps⟩ hstep
    · exact Or.inl (ctxStep_contexts hstep hnull)
    · by_cases hnull : 0 ∈ s'.contexts
      · exact Or.inl hnull
      · obtain ⟨G', h', -⟩ := h.step hop hstep hnull
        obtain ⟨hkeeps, hentry⟩ := ctxStep_entry h hop hstep hmem hw hmaps
        refine Or.inr ⟨⟨⟨G', h'⟩, ctxStep_contexts hstep hmem⟩, hkeeps.trans hkernel, ?_⟩
        rcases hentry with hsame | hclear
        · rw [hsame, hzero]
        · exact hclear
  · exact Or.inr ⟨⟨Separated.init hboot, List.mem_singleton_self _⟩, rfl, hboot.entry_eq_zero hw⟩

/-! ## §4. Mapping and asking. -/

section Row

variable {k : Nat} {m : Machine} {G : Ledger κ} {dst : U64} {n j : Nat}

theorem queries_zero (hA : Accounted k m G) (hk : m.kernel_pml4.toNat = 4096 * k)
    (hdst : dst.toNat < 2 ^ 47) (hzero : m.entry k (pageOf dst) = 0) :
    Queries m dst 0 vm_perm_execute 0 := by
  rw [queries_iff hA hk hdst, hzero]
  decide

theorem queries_mapped {src : U64} {flags cache : BitVec 32} (hA : Accounted k m G)
    (hk : m.kernel_pml4.toNat = 4096 * k) (hrow : pageOf dst + n ≤ 2 ^ 35) (hj : j < n)
    (hsrc : src.toNat % 4096 = 0) (hflags : ReadablePerms flags) (hcache : cache.toNat ≤ 4)
    (hentry : m.entry k (pageOf dst + j)
      = rowEntry (pageOf dst) src (entryFlags flags cache) (pageOf dst + j)) :
    Queries m (dst + BitVec.ofNat 64 (4096 * j)) (src + BitVec.ofNat 64 (4096 * j)) flags cache
      ↔ flags &&& vm_perm_execute ≠ 0 ∧ (src + BitVec.ofNat 64 (4096 * j)).toNat < 2 ^ 63 := by
  obtain ⟨hpage, hlt⟩ := row_address hrow hj
  have halign : (src + BitVec.ofNat 64 (4096 * j)).toNat % 4096 = 0 := by
    rw [BitVec.toNat_add, BitVec.toNat_ofNat]
    omega
  obtain ⟨hp, hf, hc⟩ := flag_words flags cache hflags hcache
  obtain ⟨hlow, haddr⟩ := page_entry halign hp
  -- both bits of `flags ||| execute = flags`: read off the sets
  have hexecute : flags ||| vm_perm_execute = flags ↔ flags &&& vm_perm_execute ≠ 0 := by
    have hall : ∀ f : Fin 16, BitVec.ofNat 32 f ||| vm_perm_execute = BitVec.ofNat 32 f
        ↔ BitVec.ofNat 32 f &&& vm_perm_execute ≠ 0 := by
      decide
    have h := hall ⟨flags.toNat, hflags.1⟩
    simpa only [BitVec.ofNat_toNat, BitVec.setWidth_eq] using h
  rw [queries_iff hA hk hlt, hpage, hentry, rowEntry, Nat.add_sub_cancel_left, haddr,
    flagsOf_low, cacheOf_low, hlow, hf, hc, and_addr_mask_eq_self halign, hexecute]
  exact ⟨fun h => ⟨h.2.1, h.1⟩, fun h => ⟨h.2, h.1, rfl⟩⟩

end Row

/-- **The kernel's queries and its mappings.**  In every state the contexts reach
by mapping and unmapping pages of the lower half:

* after `arch_mm_map_kernel` of a range there, the queries return what was mapped
  iff the permissions have `execute` and no address uses bit 63;
* a page that no call maps, and one that `arch_mm_unmap_kernel` clears, read as
  frame 0, executable;
* in no state do all three queries return 0. -/
theorem kernel_queries_invert (ehdr : Option (List Elf64Phdr)) (m : Machine) (hboot : Booted m)
    (ops : List CtxOp) (s : CtxState)
    (hrun : run (ctxStep ehdr) (CtxState.init m) ops = some s) (hlower : ∀ op ∈ ops, op.Lower)
    (hnull : 0 ∉ s.contexts) :
    (∀ (dst src count : U64) (flags cache : BitVec 32) (i : Int) (m' : Machine),
      src.toNat % 4096 = 0 → pageOf dst + count.toNat ≤ 2 ^ 35 → ReadablePerms flags →
      cache.toNat ≤ 4 → arch_mm_map_kernel dst src count flags cache s.machine = some (i, m') →
      ((∀ j, j < count.toNat → Queries m' (dst + BitVec.ofNat 64 (4096 * j))
          (src + BitVec.ofNat 64 (4096 * j)) flags cache)
        ↔ ∀ j, j < count.toNat → flags &&& vm_perm_execute ≠ 0
          ∧ (src + BitVec.ofNat 64 (4096 * j)).toNat < 2 ^ 63))
    ∧ (∀ dst : U64, dst.toNat < 2 ^ 47 →
        (∀ op ∈ ops, ¬ op.Maps m.kernel_pml4 (pageOf dst)) →
        Queries s.machine dst 0 vm_perm_execute 0)
    ∧ (∀ dst count : U64, pageOf dst + count.toNat ≤ 2 ^ 35 →
        ∃ i m', arch_mm_unmap_kernel dst count s.machine = some (i, m')
          ∧ ∀ j, j < count.toNat →
            Reached s.machine (rootOf s.machine.kernel_pml4) (pageOf dst) (pageOf dst + j) →
            Queries m' (dst + BitVec.ofNat 64 (4096 * j)) 0 vm_perm_execute 0)
    ∧ ∀ (m' : Machine) (dst : U64), ¬ Queries m' dst 0 0 0 := by
  obtain ⟨G, h⟩ := (Separated.run hboot hrun hlower).resolve_left hnull
  refine ⟨?_, ?_, ?_, fun m' dst hq => flags_query_ne_zero m' m' dst hq.flags⟩
  · intro dst src count flags cache i m' hsrc hrow hflags hcache hmap
    have hmap' : vmm_map_pages s.machine.kernel_pml4 dst src count.toNat (entryFlags flags cache)
        s.machine = some (i, m') := hmap
    obtain ⟨G', hA', ht, -⟩ := vmm_map_pages_touches h.kernel _ _ _ _ _ _ G i h.accounted
      h.accounted.kernel hrow hmap'
    have hk' : m'.kernel_pml4.toNat = 4096 * rootOf s.machine.kernel_pml4 := by
      rw [ht.vars.kernel]
      exact h.kernel
    refine forall_congr' fun j => forall_congr' fun hj => ?_
    refine queries_mapped hA' hk' hrow hj hsrc hflags hcache ?_
    rw [vmm_map_pages_entries h.kernel _ _ _ _ _ _ G i h.accounted h.accounted.kernel hrow hmap' _
      (by omega), if_pos ⟨by omega, by omega⟩]
  · intro dst hdst hnot
    have hpage : pageOf dst < 2 ^ 35 := by
      unfold pageOf
      omega
    obtain ⟨hkernel, hzero⟩ := never_mapped_entry hboot hrun hlower hnull hpage hnot
    rw [← hkernel] at hzero
    exact queries_zero h.accounted h.kernel hdst hzero
  · intro dst count hrow
    obtain ⟨i, m', hunmap, hw, -⟩ := vmm_unmap_pages_rewrites h.kernel h.accounted.kernel count.toNat
      dst s.machine h.accounted hrow
    refine ⟨i, m', hunmap, fun j hj hreach => ?_⟩
    obtain ⟨hpage, hlt⟩ := row_address hrow hj
    have hk' : m'.kernel_pml4.toNat = 4096 * rootOf s.machine.kernel_pml4 := by
      rw [hw.touches.vars.kernel]
      exact h.kernel
    refine queries_zero hw.accounted hk' hlt ?_
    rw [hpage]
    exact hw.inside _ (by omega) (by omega) hreach

/-- Two pages are mapped for reading and executing, not cached. -/
theorem kernel_queries_invert_executable :
    ∃ m', arch_mm_map_kernel 0x1000 0x5000 2 5 4 bootMachine = some (1, m')
      ∧ Queries m' 0x1000 0x5000 5 4 ∧ Queries m' 0x2000 0x6000 5 4 := by
  have heval : (arch_mm_map_kernel 0x1000 0x5000 2 5 4 bootMachine).map Prod.fst = some 1 := by
    decide +kernel
  obtain ⟨⟨i, m'⟩, hmap, rfl⟩ := Option.map_eq_some_iff.mp heval
  have hq := ((kernel_queries_invert none bootMachine bootMachine_booted [] _ rfl (by simp)
    (by decide)).1 0x1000 0x5000 2 5 4 1 m' (by decide) (by decide)
    ⟨by decide, by decide⟩ (by decide) hmap).mpr (by decide)
  exact ⟨m', hmap, hq 0 (by decide), hq 1 (by decide)⟩

/-- A page mapped for reading and writing reads as executable too, and so does a
page that nobody has mapped, or that has been unmapped. -/
theorem kernel_queries_report_execute :
    (arch_mm_get_flags_kernel 0x1000 bootMachine).map Prod.fst = some vm_perm_execute
    ∧ ∃ m1 m2, arch_mm_map_kernel 0x1000 0x5000 1 vm_perm_rw 0 bootMachine = some (1, m1)
      ∧ (arch_mm_get_flags_kernel 0x1000 m1).map Prod.fst = some (vm_perm_rw ||| vm_perm_execute)
      ∧ arch_mm_unmap_kernel 0x1000 1 m1 = some (1, m2)
      ∧ (arch_mm_get_flags_kernel 0x1000 m2).map Prod.fst = some vm_perm_execute := by
  have heval : ((arch_mm_map_kernel 0x1000 0x5000 1 vm_perm_rw 0 bootMachine).bind fun r1 =>
      (arch_mm_unmap_kernel 0x1000 1 r1.2).map fun r2 =>
        (r1.1, r2.1, (arch_mm_get_flags_kernel 0x1000 r1.2).map Prod.fst,
          (arch_mm_get_flags_kernel 0x1000 r2.2).map Prod.fst))
      = some (1, 1, some (vm_perm_rw ||| vm_perm_execute), some vm_perm_execute) := by
    decide +kernel
  obtain ⟨⟨i1, m1⟩, hmap, h⟩ := Option.bind_eq_some_iff.mp heval
  obtain ⟨⟨i2, m2⟩, hunmap, h⟩ := Option.map_eq_some_iff.mp h
  simp only [Prod.mk.injEq] at h
  obtain ⟨rfl, rfl, hmapped, hunmapped⟩ := h
  exact ⟨by decide +kernel, m1, m2, hmap, hmapped, hunmap, hunmapped⟩

end Quack.Arch
