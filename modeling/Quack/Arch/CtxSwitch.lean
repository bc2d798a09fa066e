/-
  Quack.Arch.CtxSwitch
  **`ctx_switch`: THE CR3 ARGUMENT PARKED IN ONE SHARED WORD.**

  `ctx_switch(state, cr3)` needs every general register for the task it
  enters, so its first instruction parks `cr3` in the static `task_cr3`, and
  the last but three fetches it back.  The word is shared by all CPUs, and
  `sched_resched` has released its lock by then.
-/
import Quack.Lib.Runs
import Mathlib.Data.Fintype.Defs

namespace Quack.CtxSwitch

open Lib

/-! ## §1. The code and one CPU. -/

inductive Reg where
  | rax | rbx | rcx | rdx | rsi | rdi | rbp
  | r8 | r9 | r10 | r11 | r12 | r13 | r14 | r15
  deriving Repr, DecidableEq

inductive Seg where
  | es | ds
  deriving Repr, DecidableEq

/-- The instructions used; memory operands are `[task_cr3]` and `[rdi + off]`. -/
inductive Instr where
  | store_task_cr3 (src : Reg)
  | xor_self (r : Reg)
  | mov_seg (seg : Seg) (src : Reg)
  | load (dst : Reg) (off : BitVec 64)
  | push (off : BitVec 64)
  | load_task_cr3 (dst : Reg)
  | mov_cr3 (src : Reg)
  | pop (dst : Reg)
  | iretq
  deriving Repr, DecidableEq

/-- `ctx_switch`, line by line. -/
def ctx_switch : List Instr :=
  [ .store_task_cr3 .rsi,
    .xor_self .rax, .mov_seg .es .rax, .mov_seg .ds .rax,
    .load .r15 0, .load .r14 8, .load .r13 16, .load .r12 24, .load .r11 32, .load .r10 40,
    .load .r9 48, .load .r8 56, .load .rsi 72, .load .rbp 80, .load .rdx 88, .load .rcx 96,
    .load .rbx 104, .load .rax 112,
    -- the frame for `iretq`, and `rdi`, which holds the address of the state
    .push 120, .push 128, .push 136, .push 144, .push 152,
    .push 64,
    .load_task_cr3 .rdi,
    .mov_cr3 .rdi,
    .pop .rdi,
    .iretq ]

/-- The frame `iretq` takes from the stack: where the task goes on. -/
structure Frame where
  rip : BitVec 64
  cs : BitVec 64
  rflags : BitVec 64
  rsp : BitVec 64
  ss : BitVec 64
  deriving Repr, DecidableEq

/-- One CPU: its registers and stack, the position of its next instruction in
`ctx_switch` (past the end: the CPU is elsewhere), and the `cr3` argument of
its last call. -/
structure Cpu where
  regs : Reg → BitVec 64
  segs : Seg → BitVec 16
  stack : List (BitVec 64)
  cr3 : BitVec 64
  frame : Option Frame
  pc : Nat
  arg : BitVec 64

def Cpu.setReg (c : Cpu) (r : Reg) (v : BitVec 64) : Cpu :=
  { c with regs := Function.update c.regs r v }

def Cpu.exec (mem : BitVec 64 → BitVec 64) (parked : BitVec 64) (c : Cpu) :
    Instr → Option (BitVec 64 × Cpu)
  | .store_task_cr3 src => some (c.regs src, c)
  | .xor_self r => some (parked, c.setReg r 0)
  | .mov_seg seg src =>
    some (parked, { c with segs := Function.update c.segs seg ((c.regs src).truncate 16) })
  | .load dst off => some (parked, c.setReg dst (mem (c.regs .rdi + off)))
  | .push off => some (parked, { c with stack := mem (c.regs .rdi + off) :: c.stack })
  | .load_task_cr3 dst => some (parked, c.setReg dst parked)
  | .mov_cr3 src => some (parked, { c with cr3 := c.regs src })
  | .pop dst =>
    match c.stack with
    | v :: stack => some (parked, { c.setReg dst v with stack := stack })
    | [] => none
  | .iretq =>
    match c.stack with
    | rip :: cs :: rflags :: rsp :: ss :: stack =>
      some (parked, { c with stack := stack, frame := some ⟨rip, cs, rflags, rsp, ss⟩ })
    | _ => none

/-! ## §2. The CPUs together. -/

variable {ι : Type} [DecidableEq ι]

/-- All CPUs, the shared word and the memory with the saved states. -/
structure System (ι : Type) where
  task_cr3 : BitVec 64
  mem : BitVec 64 → BitVec 64
  cpus : ι → Cpu

def System.advance (s : System ι) (cpu : ι) (parked : BitVec 64) (c : Cpu) : System ι :=
  { s with task_cr3 := parked
           cpus := Function.update s.cpus cpu { c with pc := (s.cpus cpu).pc + 1 } }

/-- A CPU calls `ctx_switch` (with whatever is in its registers; `rdi` and
`rsi` are the arguments), or executes its next instruction. -/
inductive Move (ι : Type) where
  | call (cpu : ι) (regs : Reg → BitVec 64)
  | next (cpu : ι)

/-- One move.  Only a CPU that is not inside `ctx_switch` calls it. -/
def System.step (s : System ι) : Move ι → Option (System ι)
  | .call cpu regs =>
    let c := s.cpus cpu
    if c.pc < ctx_switch.length then none
    else
      -- what lies deeper on the CPU's own stack is not looked at
      let entered := { c with regs := regs, stack := [], frame := none, pc := 0, arg := regs .rsi }
      some { s with cpus := Function.update s.cpus cpu entered }
  | .next cpu =>
    let c := s.cpus cpu
    (ctx_switch[c.pc]?).bind fun i =>
      (c.exec s.mem s.task_cr3 i).map fun r => s.advance cpu r.1 r.2

@[simp] theorem advance_task_cr3 (s : System ι) (cpu : ι) (parked : BitVec 64) (c : Cpu) :
    (s.advance cpu parked c).task_cr3 = parked := rfl

@[simp] theorem advance_self (s : System ι) (cpu : ι) (parked : BitVec 64) (c : Cpu) :
    (s.advance cpu parked c).cpus cpu = { c with pc := (s.cpus cpu).pc + 1 } :=
  Function.update_self ..

theorem advance_other (s : System ι) {cpu other : ι} (h : other ≠ cpu) (parked : BitVec 64)
    (c : Cpu) : (s.advance cpu parked c).cpus other = s.cpus other :=
  Function.update_of_ne h ..

variable {s s' : System ι} {i : Instr} {k : Nat} {parked parked' : BitVec 64}
  {mem : BitVec 64 → BitVec 64}

theorem step_next_eq_some {cpu : ι} :
    s.step (.next cpu) = some s' ↔ ∃ i parked c', ctx_switch[(s.cpus cpu).pc]? = some i
      ∧ (s.cpus cpu).exec s.mem s.task_cr3 i = some (parked, c')
      ∧ s' = s.advance cpu parked c' := by
  simp only [System.step, Option.bind_eq_some_iff, Option.map_eq_some_iff]
  constructor
  · rintro ⟨i, hi, ⟨parked, c'⟩, hx, he⟩
    exact ⟨i, parked, c', hi, hx, he.symm⟩
  · rintro ⟨i, parked, c', hi, hx, he⟩
    exact ⟨i, hi, (parked, c'), hx, he.symm⟩

/-- No CPU is inside `ctx_switch`. -/
def System.Outside (s : System ι) : Prop := ∀ cpu, ctx_switch.length ≤ (s.cpus cpu).pc

/-- **The value a CPU loads into CR3 is the argument of its own call.** -/
def LoadsOwn (s : System ι) : Move ι → Prop
  | .call _ _ => True
  | .next cpu => ∀ r, ctx_switch[(s.cpus cpu).pc]? = some (.mov_cr3 r) →
      (s.cpus cpu).regs r = (s.cpus cpu).arg

/-- The CPU has parked its argument and not fetched it back yet. -/
def Cpu.Waiting (c : Cpu) : Prop := 0 < c.pc ∧ c.pc ≤ 24

def NoOverwrite (s : System ι) : Move ι → Prop
  | .call _ _ => True
  | .next cpu => ∀ r, ctx_switch[(s.cpus cpu).pc]? = some (.store_task_cr3 r) →
      ∀ other, other ≠ cpu → (s.cpus other).Waiting →
        (s.cpus other).arg = (s.cpus cpu).regs r

instance (c : Cpu) : Decidable c.Waiting := inferInstanceAs (Decidable (_ ∧ _))

instance [Fintype ι] (s : System ι) : Decidable s.Outside :=
  inferInstanceAs (Decidable (∀ cpu, ctx_switch.length ≤ (s.cpus cpu).pc))

/-! ## §3. The positions in the code. -/

theorem code_at {P : Instr → Nat → Prop} (h : ∀ x ∈ ctx_switch.zipIdx, P x.1 x.2)
    (hk : ctx_switch[k]? = some i) : P i k :=
  h (i, k) (List.mk_mem_zipIdx_iff_getElem?.mpr hk)

theorem store_position {r : Reg}
    (h : ctx_switch[k]? = some (.store_task_cr3 r)) : k = 0 ∧ r = .rsi :=
  code_at (P := fun i k => ∀ r, i = .store_task_cr3 r → k = 0 ∧ r = .rsi)
    (by simp [ctx_switch, List.zipIdx]) h r rfl

instance [Fintype ι] (s : System ι) : (m : Move ι) → Decidable (NoOverwrite s m)
  | .call _ _ => inferInstanceAs (Decidable True)
  | .next cpu =>
    decidable_of_iff ((s.cpus cpu).pc = 0 → ∀ other, other ≠ cpu → (s.cpus other).Waiting →
        (s.cpus other).arg = (s.cpus cpu).regs .rsi)
      ⟨fun h r hr => let ⟨h0, hrsi⟩ := store_position hr; hrsi ▸ h h0,
        fun h h0 => h .rsi (by rw [h0]; rfl)⟩

theorem mov_cr3_position {r : Reg}
    (h : ctx_switch[k]? = some (.mov_cr3 r)) : k = 25 ∧ r = .rdi :=
  code_at (P := fun i k => ∀ r, i = .mov_cr3 r → k = 25 ∧ r = .rdi)
    (by simp [ctx_switch, List.zipIdx]) h r rfl

omit [DecidableEq ι] in
theorem loadsOwn_iff {cpu : ι} : LoadsOwn s (.next cpu)
    ↔ ((s.cpus cpu).pc = 25 → (s.cpus cpu).regs .rdi = (s.cpus cpu).arg) := by
  constructor
  · intro h h25
    exact h .rdi (by rw [h25]; rfl)
  · intro h r hr
    obtain ⟨h25, rfl⟩ := mov_cr3_position hr
    exact h h25

instance (s : System ι) : (m : Move ι) → Decidable (LoadsOwn s m)
  | .call _ _ => inferInstanceAs (Decidable True)
  | .next _ => decidable_of_iff _ loadsOwn_iff.symm

theorem between_positions (h : ctx_switch[k]? = some i) (h0 : 0 < k)
    (h24 : k < 24) :
    (∃ r, i = .xor_self r) ∨ (∃ g r, i = .mov_seg g r) ∨ (∃ r off, i = .load r off)
      ∨ ∃ off, i = .push off :=
  code_at (P := fun i k => 0 < k → k < 24 →
      (∃ r, i = .xor_self r) ∨ (∃ g r, i = .mov_seg g r) ∨ (∃ r off, i = .load r off)
        ∨ ∃ off, i = .push off)
    (by simp [ctx_switch, List.zipIdx]) h h0 h24

/-! ## §4. Where a CPU's argument is. -/

/-- **The invariant of one CPU**, with `parked` in `task_cr3`: before the store
its argument is in `rsi`, until the fetch in `task_cr3`, then in `rdi` and in CR3. -/
structure Parked (parked : BitVec 64) (c : Cpu) : Prop where
  start : c.pc = 0 → c.regs .rsi = c.arg
  waiting : c.Waiting → parked = c.arg
  fetched : c.pc = 25 → c.regs .rdi = c.arg
  loaded : c.pc = 26 ∨ c.pc = 27 → c.cr3 = c.arg

theorem Parked.of_outside {c : Cpu} (h : ctx_switch.length ≤ c.pc) :
    Parked parked c := by
  have hlen : ctx_switch.length = 28 := rfl
  refine ⟨fun h0 => ?_, fun hw => ?_, fun h25 => ?_, fun h26 => ?_⟩
  · omega
  · have := hw.2
    omega
  · omega
  · omega

theorem exec_frame {c c' : Cpu}
    (h : c.exec mem parked i = some (parked', c')) :
    c'.arg = c.arg ∧ ((∀ r, i ≠ .store_task_cr3 r) → parked' = parked) := by
  cases i with
  | store_task_cr3 src =>
    injection h with h
    injection h with hp hc
    exact ⟨by rw [← hc], fun hno => absurd rfl (hno src)⟩
  | pop dst =>
    simp only [Cpu.exec] at h
    split at h
    · injection h with h
      injection h with hp hc
      exact ⟨hc ▸ rfl, fun _ => hp.symm⟩
    · cases h
  | iretq =>
    simp only [Cpu.exec] at h
    split at h
    · injection h with h
      injection h with hp hc
      exact ⟨hc ▸ rfl, fun _ => hp.symm⟩
    · cases h
  | _ =>
    injection h with h
    injection h with hp hc
    exact ⟨hc ▸ rfl, fun _ => hp.symm⟩

theorem Parked.exec {c c' : Cpu}
    (hc : Parked parked c) (hi : ctx_switch[c.pc]? = some i)
    (h : c.exec mem parked i = some (parked', c')) :
    Parked parked' { c' with pc := c.pc + 1 } := by
  obtain ⟨harg, hkeep⟩ := exec_frame h
  refine ⟨fun h0 => ?_, fun hw => ?_, fun h25 => ?_, fun h26 => ?_⟩
  · cases h0
  · have hle : c.pc + 1 ≤ 24 := hw.2
    show parked' = c'.arg
    rw [harg]
    by_cases h0 : c.pc = 0
    · -- this instruction is the store
      rw [h0] at hi
      injection hi with hi
      subst hi
      injection h with h
      injection h with hp _
      rw [← hp]
      exact hc.start h0
    · rw [hkeep fun r hr => h0 (store_position (hr ▸ hi)).1]
      exact hc.waiting ⟨by omega, by omega⟩
  · -- this instruction is the fetch
    have h24 : c.pc = 24 := by
      have : c.pc + 1 = 25 := h25
      omega
    rw [h24] at hi
    injection hi with hi
    subst hi
    injection h with h
    injection h with hp hc'
    show c'.regs .rdi = c'.arg
    rw [harg, ← hc', ← hc.waiting ⟨by omega, by omega⟩]
    simp only [Cpu.setReg, Function.update_self]
  · show c'.cr3 = c'.arg
    rw [harg]
    rcases h26 with h26 | h26
    · -- this instruction is the load of CR3
      have h25 : c.pc = 25 := Nat.succ.inj h26
      rw [h25] at hi
      injection hi with hi
      subst hi
      injection h with h
      injection h with _ hc'
      rw [← hc']
      exact hc.fetched h25
    · have h26 : c.pc = 26 := Nat.succ.inj h26
      rw [h26] at hi
      injection hi with hi
      subst hi
      simp only [Cpu.exec] at h
      split at h
      · injection h with h
        injection h with _ hc'
        rw [← hc']
        exact hc.loaded (Or.inl h26)
      · cases h

/-! ## §5. Any interleaving. -/

def System.Inv (s : System ι) : Prop := ∀ cpu, Parked s.task_cr3 (s.cpus cpu)

theorem System.Inv.step {m : Move ι} (hs : s.Inv) (hok : NoOverwrite s m)
    (h : s.step m = some s') : s'.Inv := by
  cases m with
  | call cpu regs =>
    unfold System.step at h
    simp only at h
    split at h
    · cases h
    · injection h with h
      subst h
      intro other
      by_cases ho : other = cpu
      · subst ho
        simp only [Function.update_self]
        refine ⟨fun _ => rfl, fun hw => absurd hw.1 (Nat.lt_irrefl 0), fun h25 => ?_, fun h26 => ?_⟩
        · cases h25
        · rcases h26 with h26 | h26
          · cases h26
          · cases h26
      · simp only [Function.update_of_ne ho]
        exact hs other
  | next cpu =>
    obtain ⟨i, parked, c', hi, hx, rfl⟩ := step_next_eq_some.mp h
    intro other
    by_cases ho : other = cpu
    · subst ho
      rw [advance_self]
      exact (hs other).exec hi hx
    · rw [advance_other s ho, advance_task_cr3]
      obtain ⟨-, hkeep⟩ := exec_frame hx
      refine ⟨(hs other).start, fun hw => ?_, (hs other).fetched, (hs other).loaded⟩
      by_cases hstore : ∃ r, i = .store_task_cr3 r
      · -- the other CPU is waiting: it waits for the value being stored
        obtain ⟨r, rfl⟩ := hstore
        injection hx with hx
        injection hx with hp _
        rw [← hp]
        exact (hok r hi other ho hw).symm
      · rw [hkeep fun r hr => hstore ⟨r, hr⟩]
        exact (hs other).waiting hw

omit [DecidableEq ι] in
theorem System.Inv.loadsOwn (hs : s.Inv) (m : Move ι) : LoadsOwn s m := by
  cases m with
  | call cpu regs => trivial
  | next cpu =>
    exact loadsOwn_iff.mpr (hs cpu).fetched

/-! ## §6. An overwritten word is fetched. -/

theorem fetches_parked (n : Nat) :
    ∀ (s : System ι) (cpu : ι), 0 < (s.cpus cpu).pc → (s.cpus cpu).pc + n = 24 →
      ∃ s', run System.step s (List.replicate (n + 1) (.next cpu)) = some s'
        ∧ (s'.cpus cpu).pc = 25 ∧ (s'.cpus cpu).regs .rdi = s.task_cr3
        ∧ (s'.cpus cpu).arg = (s.cpus cpu).arg := by
  induction n with
  | zero =>
    intro s cpu h0 h24
    -- the fetch itself
    have hpc : (s.cpus cpu).pc = 24 := h24
    refine ⟨s.advance cpu s.task_cr3 ((s.cpus cpu).setReg .rdi s.task_cr3), ?_, ?_, ?_, ?_⟩
    · refine (run_cons_eq_some System.step).mpr ⟨_, step_next_eq_some.mpr ?_, rfl⟩
      exact ⟨.load_task_cr3 .rdi, _, _, by rw [hpc]; rfl, rfl, rfl⟩
    · rw [advance_self, hpc]
    · rw [advance_self]
      simp only [Cpu.setReg, Function.update_self]
    · rw [advance_self]
      rfl
  | succ n ih =>
    intro s cpu h0 h24
    have hlt : (s.cpus cpu).pc < ctx_switch.length := by
      have : ctx_switch.length = 28 := rfl
      omega
    obtain ⟨i, hi⟩ : ∃ i, ctx_switch[(s.cpus cpu).pc]? = some i :=
      ⟨_, List.getElem?_eq_getElem hlt⟩
    -- every instruction on the way returns and leaves `task_cr3` alone
    obtain ⟨c', hx, harg⟩ : ∃ c', (s.cpus cpu).exec s.mem s.task_cr3 i = some (s.task_cr3, c')
        ∧ c'.arg = (s.cpus cpu).arg := by
      obtain ⟨r, rfl⟩ | ⟨g, r, rfl⟩ | ⟨r, off, rfl⟩ | ⟨off, rfl⟩ :=
        between_positions hi h0 (by omega)
      all_goals exact ⟨_, rfl, rfl⟩
    obtain ⟨s', hrun, hpc', hrdi, harg'⟩ := ih (s.advance cpu s.task_cr3 c') cpu
      (by rw [advance_self]; exact Nat.succ_pos _) (by rw [advance_self]; simp only; omega)
    refine ⟨s', ?_, hpc', hrdi, ?_⟩
    · rw [List.replicate_succ, run_cons_eq_some]
      exact ⟨_, step_next_eq_some.mpr ⟨i, _, c', hi, hx, rfl⟩, hrun⟩
    · rw [harg', advance_self]
      exact harg

theorem overwrite_loads_wrong {m : Move ι} (hbad : ¬ NoOverwrite s m) :
    ∃ more, ¬ Along System.step LoadsOwn s (m :: more) := by
  cases m with
  | call cpu regs => exact absurd trivial hbad
  | next cpu =>
    simp only [NoOverwrite, not_forall] at hbad
    obtain ⟨r, hr, other, ho, ⟨h0, h24⟩, hne⟩ := hbad
    have hstep : s.step (.next cpu)
        = some (s.advance cpu ((s.cpus cpu).regs r) (s.cpus cpu)) :=
      step_next_eq_some.mpr ⟨_, _, _, hr, rfl, rfl⟩
    -- let the other CPU run up to its load of CR3
    have hother := advance_other s ho ((s.cpus cpu).regs r) (s.cpus cpu)
    obtain ⟨s', hrun, hpc, hrdi, harg⟩ := fetches_parked (24 - (s.cpus other).pc) _ other
      (by rw [hother]; exact h0) (by rw [hother]; omega)
    refine ⟨List.replicate (24 - (s.cpus other).pc + 1) (.next other) ++ [.next other],
      fun halong => ?_⟩
    have hlast := (Along.of_append System.step _ _ _ _ hrun (halong.2 _ hstep)).1
    have hload := loadsOwn_iff.mp hlast hpc
    rw [hrdi, harg, hother, advance_task_cr3] at hload
    exact hne hload.symm

/-! ## §7. Runs. -/

/-- **When every CPU gets its own address space.**  CPUs that start outside
`ctx_switch`, any number of them, in any interleaving: if no store overwrites
a word another CPU still waits for (unless with the same value), every value
loaded into CR3 is the argument of the CPU's own call.  And the condition is
needed: a run that misses it can be continued, after its first such store, to
a load of a wrong value. -/
theorem loads_own_of_no_overwrite (s : System ι) (hs : s.Outside) (moves : List (Move ι)) :
    (Along System.step NoOverwrite s moves → Along System.step LoadsOwn s moves)
    ∧ (¬ Along System.step NoOverwrite s moves →
        ∃ pre more, pre <+: moves ∧ ¬ Along System.step LoadsOwn s (pre ++ more)) := by
  have hinv : s.Inv := fun cpu => Parked.of_outside (hs cpu)
  refine ⟨Along.imp System.step System.Inv (fun _ m h _ => h.loadsOwn m)
    (fun _ _ _ h hok hstep => h.step hok hstep) moves s hinv, fun hbad => ?_⟩
  obtain ⟨pre, m, t, hpre, -, hrun, hm⟩ := exists_of_not_along System.step moves s hbad
  obtain ⟨more, hmore⟩ := overwrite_loads_wrong hm
  refine ⟨pre, m :: more, (List.prefix_append pre [m]).trans hpre, fun halong => hmore ?_⟩
  exact Along.of_append System.step pre (m :: more) s t hrun halong

/-- CPUs 0 and 1, outside `ctx_switch`, everything else zero. -/
def twoIdle : System Bool :=
  ⟨0, fun _ => 0, fun _ => ⟨fun _ => 0, fun _ => 0, [], 0, none, 28, 0⟩⟩

/-- The registers of a call with `cr3` in `rsi`. -/
def callWith (cr3 : BitVec 64) : Reg → BitVec 64
  | .rsi => cr3
  | _ => 0

/-- Two calls one after the other. -/
def oneAfterAnother : List (Move Bool) :=
  .call false (callWith 0x1000) :: List.replicate 28 (.next false)
    ++ .call true (callWith 0x2000) :: List.replicate 28 (.next true)

theorem loads_own_one_after_another :
    Along System.step LoadsOwn twoIdle oneAfterAnother :=
  (loads_own_of_no_overwrite twoIdle (by decide) oneAfterAnother).1 (by decide +kernel)

/-- **Two switches at once.**  Both CPUs have parked their argument before the
first one fetches it: it enters its task in the address space of the other. -/
theorem two_switches_mix_address_spaces :
    ¬ ∀ (s : System Bool), s.Outside → ∀ moves, Along System.step LoadsOwn s moves := by
  intro h
  have hmix := h twoIdle (by decide)
    ([.call false (callWith 0x1000), .call true (callWith 0x2000), .next false, .next true]
      ++ List.replicate 25 (.next false))
  revert hmix
  decide +kernel

end Quack.CtxSwitch
