/-
  Quack.Arch.Interrupts
  **HOW AN INTERRUPT ENDS: acknowledgement and address space.**

  `dispatch_interrupt` saves the interrupted address space, runs in the
  kernel's and, at its tail, acknowledges the interrupt and restores what it
  saved.  A timer interrupt may never get there: `sched_resched` enters a
  thread or goes idle, and then drops the saved address space and
  acknowledges on its own.  A thread is entered with `ctx_switch`, after
  `threads_lock` has been released, and gets its address space through the
  word `task_cr3`, which all CPUs share.

    • `interrupt_exit_protocol` — over any sequence of interrupts on any number
      of CPUs, and any interleaving of the switches they end in.
    • `interrupt_enters_wrong_space` — two timer interrupts at once.

  All gates are interrupt gates, so interrupts do not nest, and none is taken
  inside `ctx_switch`.  What happens between two of them is arbitrary: an
  interrupt comes with the CR3, the scheduler state (other CPUs work on it) and
  the handler result it meets.
-/
import Quack.Arch.CtxSwitch
import Quack.Proc.SchedulerRemoval

namespace Quack.Interrupts

open Lib Proc CtxSwitch

variable {τ : Type}

/-! ## §1. One CPU. -/

/-- The word `saved_vmm_ctx` (0 is NULL) of a CPU's `cpu_data_t`, and the
acknowledgements it has sent to its local APIC and to the two PICs. -/
structure CpuData where
  saved_vmm_ctx : BitVec 64
  lapic_eois : Nat
  pic1_eois : Nat
  pic2_eois : Nat
  deriving Repr, DecidableEq

/-- A CPU while it handles an interrupt: with its CR3. -/
structure CpuState extends CpuData where
  cr3 : BitVec 64
  deriving Repr, DecidableEq

def vmm_set_context (c : CpuState) (ctx : BitVec 64) : CpuState := { c with cr3 := ctx }

def vmm_save_context (c : CpuState) : CpuState := { c with saved_vmm_ctx := c.cr3 }

def vmm_restore_context (c : CpuState) : CpuState :=
  { vmm_set_context c c.saved_vmm_ctx with saved_vmm_ctx := 0 }

def vmm_drop_context (c : CpuState) : CpuState := { c with saved_vmm_ctx := 0 }

def lapic_eoi (c : CpuState) : CpuState := { c with lapic_eois := c.lapic_eois + 1 }

/-- `irq_eoi`. -/
def irq_eoi (irq : BitVec 8) (c : CpuState) : CpuState :=
  let c :=
    if 0x20 ≤ irq ∧ irq < 0x30 then
      let c := if 0x28 ≤ irq then { c with pic2_eois := c.pic2_eois + 1 } else c
      { c with pic1_eois := c.pic1_eois + 1 }
    else c
  if 0x30 ≤ irq then lapic_eoi c else c

/-- `exit_interrupt`. -/
def exit_interrupt (irq : BitVec 8) (restore_ctx : Bool) (c : CpuState) : CpuState :=
  let c := irq_eoi irq c
  if restore_ctx then vmm_restore_context c else c

/-! ## §2. An interrupt. -/

/-- An interrupt on this CPU and what it meets: the vector, whether kernel code
was interrupted (`cs == 0x08`) and in which address space, the result of the
handler if one is registered, the scheduler, and the answer of the address
spaces to a page fault. -/
structure Irq (τ : Type) where
  int_no : BitVec 8
  in_kernel : Bool
  cr3 : BitVec 64
  handler : Option Bool
  sched_ready : Bool
  sched : Sched τ
  irq_state : τ
  fault_hit : Nat → Bool

/-- How control leaves the interrupt: back to the interrupted code, into a
thread, or into the idle loop. -/
inductive Left where
  | resumed
  | entered (thread : Nat)
  | idle
  deriving Repr, DecidableEq

variable (kernel_ctx : BitVec 64) (cpu : Nat)

def sched_resched_exit (irq : Irq τ) (c : CpuState) : Option (Left × CpuState) :=
  match irq.sched.sched_resched cpu irq.irq_state false with
  | none => none
  -- nothing else to run: the interrupted thread goes on
  | some (.resume, _) => some (.resumed, c)
  | some (.enter _, s) => do
    -- the saved context is not restored, so it is dropped
    let c := irq_eoi irq.int_no (vmm_drop_context c)
    let data ← s.sched_procs[cpu]?
    let (thread, _) ← s.deref data.current_thread
    some (.entered thread, c)
  | some (.idle, _) => some (.idle, irq_eoi irq.int_no (vmm_drop_context c))

/-- `timer_irq_sink`. -/
def timer_irq_sink (irq : Irq τ) (c : CpuState) : Option (Left × CpuState) :=
  if irq.sched_ready then sched_resched_exit cpu irq c else some (.resumed, c)

def check_exception (irq : Irq τ) (success : Bool) : Option Unit :=
  -- a machine check panics even if a handler took it
  if irq.int_no = 18 then none
  else if success then some ()
  else if irq.int_no < 0x20 then
    if irq.in_kernel then none
    else if irq.int_no = 0x0E then irq.sched.sched_page_fault cpu irq.fault_hit
    else none
  else some ()

/-- The timer part of `dispatch_interrupt`. -/
def check_timer (irq : Irq τ) (c : CpuState) : Option (Left × CpuState) :=
  if irq.int_no = 0x31 then timer_irq_sink cpu irq c else some (.resumed, c)

/-- `dispatch_interrupt`. -/
def dispatch_interrupt (irq : Irq τ) (c : CpuState) : Option (Left × CpuState) :=
  let c := vmm_save_context c
  let c := vmm_set_context c kernel_ctx
  let success := irq.handler.getD false
  (check_timer cpu irq c).bind fun r =>
    match r.1 with
    | .resumed =>
      -- only here does `dispatch_interrupt` reach its last line
      let success := success || irq.int_no == 0x31
      (check_exception cpu irq success).map fun _ =>
        (.resumed, exit_interrupt irq.int_no true r.2)
    | left => some (left, r.2)

/-- **What an interrupt has to have done when it ends**: entered with no context
saved, it has sent one acknowledgement to the local APIC for the vectors from 0x30
on, none for the exceptions.  CR3 is the interrupted one if the interrupted code is
resumed, the kernel's if the CPU goes idle.  A thread that is entered is the one the
scheduler recorded for this CPU. -/
structure Ends (irq : Irq τ) (c : CpuData) (left : Left) (c' : CpuState) : Prop where
  saved : c.saved_vmm_ctx = 0
  eoi : 0x30 ≤ irq.int_no → c'.lapic_eois = c.lapic_eois + 1
  no_eoi : irq.int_no < 0x20 → c'.lapic_eois = c.lapic_eois
  resumed : left = .resumed → c'.cr3 = irq.cr3
  entered : ∀ thread, left = .entered thread →
    ∃ task s t, irq.sched.sched_resched cpu irq.irq_state false = some (.enter task, s)
      ∧ s.objects thread = some t ∧ t.task = task ∧ t.running_on = cpu
  idle : left = .idle →
    (∃ s, irq.sched.sched_resched cpu irq.irq_state false = some (.idle, s))
      ∧ c'.cr3 = kernel_ctx

/-! ## §3. Acknowledgements. -/

theorem irq_eoi_frame (irq : BitVec 8) (c : CpuState) :
    (irq_eoi irq c).cr3 = c.cr3 ∧ (irq_eoi irq c).saved_vmm_ctx = c.saved_vmm_ctx := by
  unfold irq_eoi lapic_eoi
  simp only
  split <;> split <;> first | exact ⟨rfl, rfl⟩ | (split <;> exact ⟨rfl, rfl⟩)

theorem irq_eoi_lapic (irq : BitVec 8) (c : CpuState) :
    (irq_eoi irq c).lapic_eois = c.lapic_eois + if 0x30 ≤ irq then 1 else 0 := by
  unfold irq_eoi lapic_eoi
  simp only
  split <;> split <;> first | rfl | (split <;> rfl)

/-! ## §4. The exits. -/

theorem entered_thread {sched s : Sched τ} {irq_state task : τ}
    (h : sched.sched_resched cpu irq_state false = some (.enter task, s)) {data : SchedCpuData}
    {thread : Nat} {u : Thread τ} (hdata : s.sched_procs[cpu]? = some data)
    (hu : s.deref data.current_thread = some (thread, u)) :
    s.objects thread = some u ∧ u.task = task ∧ u.running_on = cpu := by
  obtain ⟨d, s1, r, s2, -, -, -, hexit⟩ := sched_resched_cases h
  rcases hexit with ⟨next, p, t, -, hd, he, rfl⟩ | ⟨_, _, _, -, -, -, he, -⟩ | ⟨-, he, -⟩
  · injection he with he
    obtain ⟨hp, ht⟩ := deref_eq_some.mp hu
    obtain ⟨-, rfl⟩ | ⟨hne, -⟩ := setProc_procs_cases hdata
    · -- the record was written with `next`
      have hpt : thread = p := by
        rw [setProc_threads, setThread_threads, (deref_eq_some.mp hd).1] at hp
        injection hp with hp
        exact hp.symm
      subst hpt
      refine ⟨ht, ?_⟩
      rw [setProc_objects, setThread_objects_self] at ht
      injection ht with ht
      subst ht
      exact ⟨he.symm, rfl⟩
    · exact absurd rfl hne
  · cases he
  · cases he

variable {c c' : CpuState} {irq : Irq τ}

def EarlyExit (irq : Irq τ) (left : Left) (c c' : CpuState) : Prop :=
  c' = irq_eoi irq.int_no (vmm_drop_context c)
  ∧ ((∃ thread task s t, left = .entered thread
      ∧ irq.sched.sched_resched cpu irq.irq_state false = some (.enter task, s)
      ∧ s.objects thread = some t ∧ t.task = task ∧ t.running_on = cpu)
    ∨ (∃ s, left = .idle ∧ irq.sched.sched_resched cpu irq.irq_state false = some (.idle, s)))

theorem sched_resched_exit_cases {left : Left}
    (h : sched_resched_exit cpu irq c = some (left, c')) :
    (left = .resumed ∧ c' = c) ∨ EarlyExit cpu irq left c c' := by
  unfold sched_resched_exit at h
  split at h
  · cases h
  · injection h with h
    injection h with hl hc
    exact Or.inl ⟨hl.symm, hc.symm⟩
  · next task s hs =>
      simp only [Option.bind_eq_bind, Option.bind_eq_some_iff] at h
      obtain ⟨data, hdata, ⟨thread, u⟩, hu, he⟩ := h
      injection he with he
      injection he with hl hc
      obtain ⟨hobj, htask, hon⟩ := entered_thread cpu hs hdata hu
      exact Or.inr ⟨hc.symm, Or.inl ⟨thread, task, s, u, hl.symm, hs, hobj, htask, hon⟩⟩
  · next s hs =>
      injection h with h
      injection h with hl hc
      exact Or.inr ⟨hc.symm, Or.inr ⟨s, hl.symm, hs⟩⟩

/-- The CPU after the first two lines of `dispatch_interrupt`. -/
abbrev inKernel (c : CpuState) : CpuState := vmm_set_context (vmm_save_context c) kernel_ctx

theorem dispatch_cases {left : Left}
    (h : dispatch_interrupt kernel_ctx cpu irq c = some (left, c')) :
    (left = .resumed ∧ c' = exit_interrupt irq.int_no true (inKernel kernel_ctx c))
    ∨ EarlyExit cpu irq left (inKernel kernel_ctx c) c' := by
  obtain ⟨⟨l, c1⟩, hsink, h⟩ := Option.bind_eq_some_iff.mp h
  -- what the sink hands on: the CPU unchanged, or one of the two early exits
  have hcases : (l = .resumed ∧ c1 = inKernel kernel_ctx c)
      ∨ EarlyExit cpu irq l (inKernel kernel_ctx c) c1 := by
    unfold check_timer at hsink
    split at hsink
    · unfold timer_irq_sink at hsink
      split at hsink
      · exact sched_resched_exit_cases cpu hsink
      · injection hsink with hsink
        injection hsink with hl hc
        exact Or.inl ⟨hl.symm, hc.symm⟩
    · injection hsink with hsink
      injection hsink with hl hc
      exact Or.inl ⟨hl.symm, hc.symm⟩
  rcases hcases with ⟨rfl, rfl⟩ | ⟨hc, hexit⟩
  · obtain ⟨-, -, h⟩ := Option.map_eq_some_iff.mp h
    injection h with hl hc
    exact Or.inl ⟨hl.symm, hc.symm⟩
  · right
    rcases hexit with ⟨thread, task, s, t, rfl, hexit⟩ | ⟨s, rfl, hexit⟩
    · obtain ⟨rfl, rfl⟩ := Prod.mk.inj (Option.some.inj h)
      exact ⟨hc, Or.inl ⟨thread, task, s, t, rfl, hexit⟩⟩
    · obtain ⟨rfl, rfl⟩ := Prod.mk.inj (Option.some.inj h)
      exact ⟨hc, Or.inr ⟨s, rfl, hexit⟩⟩

theorem dispatch_saved {left : Left}
    (h : dispatch_interrupt kernel_ctx cpu irq c = some (left, c')) : c'.saved_vmm_ctx = 0 := by
  rcases dispatch_cases kernel_ctx cpu h with ⟨-, rfl⟩ | ⟨rfl, -⟩
  · rfl
  · exact (irq_eoi_frame _ _).2

theorem dispatch_ends {d : CpuData} {left : Left} (hsaved : d.saved_vmm_ctx = 0)
    (h : dispatch_interrupt kernel_ctx cpu irq ⟨d, irq.cr3⟩ = some (left, c')) :
    Ends kernel_ctx cpu irq d left c' := by
  -- the acknowledgements of all three exits are those of `irq_eoi`
  have heoi : c'.lapic_eois = d.lapic_eois + if 0x30 ≤ irq.int_no then 1 else 0 := by
    rcases dispatch_cases kernel_ctx cpu h with ⟨-, rfl⟩ | ⟨rfl, -⟩
    all_goals exact irq_eoi_lapic irq.int_no _
  refine ⟨hsaved, fun hv => by rw [heoi, if_pos hv], fun hv => ?_, fun hl => ?_, fun thread hl => ?_,
    fun hl => ?_⟩
  · rw [heoi, if_neg (by bv_omega), Nat.add_zero]
  · rcases dispatch_cases kernel_ctx cpu h with ⟨-, rfl⟩ | ⟨-, ⟨_, _, _, _, he, -⟩ | ⟨_, he, -⟩⟩
    · exact (irq_eoi_frame _ _).2
    · rw [hl] at he
      cases he
    · rw [hl] at he
      cases he
  · rcases dispatch_cases kernel_ctx cpu h with
      ⟨he, -⟩ | ⟨-, ⟨thread', task, s, t, he, hexit⟩ | ⟨_, he, -⟩⟩
    · rw [hl] at he
      cases he
    · rw [hl] at he
      cases he
      exact ⟨task, s, t, hexit⟩
    · rw [hl] at he
      cases he
  · rcases dispatch_cases kernel_ctx cpu h with ⟨he, -⟩ | ⟨hc, ⟨_, _, _, _, he, -⟩ | ⟨s, -, hs⟩⟩
    · rw [hl] at he
      cases he
    · rw [hl] at he
      cases he
    · rw [hc]
      exact ⟨⟨s, hs⟩, (irq_eoi_frame _ _).1⟩

/-! ## §5. All CPUs. -/

variable {ι : Type} [DecidableEq ι]

/-- What stays the same: the kernel's address space, the number of each CPU, and for the
thread at an address its address space `vmm_ctx` and where its state is saved. -/
structure Config (ι : Type) where
  kernel_ctx : BitVec 64
  cpu_id : ι → Nat
  vmm_ctx : Nat → BitVec 64
  state : Nat → BitVec 64

/-- The CPUs, with their CR3, as `ctx_switch` sees them; their data; and the thread each
of them has entered last. -/
structure Kernel (ι : Type) where
  switch : CtxSwitch.System ι
  data : ι → CpuData
  thread : ι → Option Nat

/-- A CPU takes an interrupt, or executes its next instruction of `ctx_switch`. -/
inductive Event (ι τ : Type) where
  | irq (cpu : ι) (irq : Irq τ)
  | next (cpu : ι)

variable (k : Config ι)

/-- `dispatch_interrupt` on the CPU. -/
def Kernel.dispatch (s : Kernel ι) (cpu : ι) (irq : Irq τ) : Option (Left × CpuState) :=
  dispatch_interrupt k.kernel_ctx (k.cpu_id cpu) irq ⟨s.data cpu, irq.cr3⟩

/-- The CPU is left in state `c`. -/
def Kernel.leave (s : Kernel ι) (cpu : ι) (c : CpuState) : Kernel ι :=
  { s with
    switch := { s.switch with
      cpus := Function.update s.switch.cpus cpu { s.switch.cpus cpu with cr3 := c.cr3 } }
    data := Function.update s.data cpu c.toCpuData }

/-- `arch_task::enter`: it calls `ctx_switch(&state, vmm_ctx)`. -/
def Kernel.enter (s : Kernel ι) (cpu : ι) (thread : Nat) : Option (Kernel ι) :=
  let regs := Function.update (Function.update (s.switch.cpus cpu).regs .rdi (k.state thread))
    .rsi (k.vmm_ctx thread)
  (s.switch.step (.call cpu regs)).map fun switch =>
    { s with switch := switch, thread := Function.update s.thread cpu (some thread) }

/-- One event.  A panic stops the machine. -/
def Kernel.step (s : Kernel ι) : Event ι τ → Option (Kernel ι)
  | .irq cpu irq =>
    -- no interrupt is taken inside `ctx_switch`
    if (s.switch.cpus cpu).pc < ctx_switch.length then none
    else
      (s.dispatch k cpu irq).bind fun r =>
        match r.1 with
        | .entered thread => (s.leave cpu r.2).enter k cpu thread
        | _ => some (s.leave cpu r.2)
  | .next cpu => (s.switch.step (.next cpu)).map fun switch => { s with switch := switch }

def Proper (s : Kernel ι) : Event ι τ → Prop
  | .irq cpu irq => ∀ left c', s.dispatch k cpu irq = some (left, c') →
      Ends k.kernel_ctx (k.cpu_id cpu) irq (s.data cpu) left c'
  | .next cpu => ctx_switch[(s.switch.cpus cpu).pc]? = some .iretq →
      ∃ thread, s.thread cpu = some thread ∧ (s.switch.cpus cpu).cr3 = k.vmm_ctx thread

/-- A store to `task_cr3` does not overwrite what another CPU still waits for. -/
def KeepsParked (s : Kernel ι) : Event ι τ → Prop
  | .irq _ _ => True
  | .next cpu => NoOverwrite s.switch (.next cpu)

instance [Fintype ι] (s : Kernel ι) : (e : Event ι τ) → Decidable (KeepsParked s e)
  | .irq _ _ => inferInstanceAs (Decidable True)
  | .next cpu => inferInstanceAs (Decidable (NoOverwrite s.switch (.next cpu)))

/-! ## §6. What every event keeps. -/

/-- **The invariant**: nothing is saved, every CPU's argument is where it should be, and
inside `ctx_switch` it is the address space of the thread the CPU enters. -/
structure ExitInv (s : Kernel ι) : Prop where
  saved : ∀ cpu, (s.data cpu).saved_vmm_ctx = 0
  parked : s.switch.Inv
  arg : ∀ cpu, (s.switch.cpus cpu).pc < ctx_switch.length →
    ∃ thread, s.thread cpu = some thread ∧ (s.switch.cpus cpu).arg = k.vmm_ctx thread

variable {k} {s s' : Kernel ι} {e : Event ι τ}

theorem ExitInv.leave (h : ExitInv k s) {cpu : ι} {irq : Irq τ} {left : Left} {c : CpuState}
    (hout : ¬ (s.switch.cpus cpu).pc < ctx_switch.length)
    (hd : s.dispatch k cpu irq = some (left, c)) : ExitInv k (s.leave cpu c) := by
  have hself : (s.leave cpu c).switch.cpus cpu = { s.switch.cpus cpu with cr3 := c.cr3 } :=
    Function.update_self ..
  have hother : ∀ other, other ≠ cpu → (s.leave cpu c).switch.cpus other = s.switch.cpus other :=
    fun other ho => Function.update_of_ne ho ..
  refine ⟨fun other => ?_, fun other => ?_, fun other => ?_⟩
  all_goals by_cases ho : other = cpu
  · subst ho
    show (Function.update s.data other c.toCpuData other).saved_vmm_ctx = 0
    rw [Function.update_self]
    exact dispatch_saved _ _ hd
  · show (Function.update s.data cpu c.toCpuData other).saved_vmm_ctx = 0
    rw [Function.update_of_ne ho]
    exact h.saved other
  · subst ho
    exact Parked.of_outside (by rw [hself]; exact Nat.le_of_not_lt hout)
  · rw [hother other ho]
    exact h.parked other
  · subst ho
    rw [hself]
    exact fun hlt => absurd hlt hout
  · rw [hother other ho]
    exact h.arg other

theorem ExitInv.enter (h : ExitInv k s) {cpu : ι} {thread : Nat}
    (hent : s.enter k cpu thread = some s') : ExitInv k s' := by
  obtain ⟨switch, hcall, rfl⟩ := Option.map_eq_some_iff.mp hent
  refine ⟨h.saved, h.parked.step (m := .call cpu _) trivial hcall, fun other => ?_⟩
  simp only [CtxSwitch.System.step] at hcall
  split at hcall
  · cases hcall
  · injection hcall with hcall
    subst hcall
    by_cases ho : other = cpu
    · subst ho
      simp only [Function.update_self]
      exact fun _ => ⟨thread, rfl, rfl⟩
    · simp only [Function.update_of_ne ho]
      exact h.arg other

theorem ExitInv.step (h : ExitInv k s) (hok : KeepsParked s e) (hstep : s.step k e = some s') :
    ExitInv k s' := by
  cases e with
  | irq cpu irq =>
    simp only [Kernel.step] at hstep
    split at hstep
    · cases hstep
    · next hout =>
        obtain ⟨⟨left, c⟩, hd, hstep⟩ := Option.bind_eq_some_iff.mp hstep
        have hleave := h.leave hout hd
        cases left with
        | entered thread => exact hleave.enter hstep
        | resumed => exact Option.some.inj hstep ▸ hleave
        | idle => exact Option.some.inj hstep ▸ hleave
  | next cpu =>
    obtain ⟨switch, hnext, rfl⟩ := Option.map_eq_some_iff.mp hstep
    refine ⟨h.saved, h.parked.step (m := .next cpu) hok hnext, fun other => ?_⟩
    obtain ⟨i, parked, c', hi, hx, rfl⟩ := step_next_eq_some.mp hnext
    by_cases ho : other = cpu
    · subst ho
      intro _
      obtain ⟨thread, hthread, harg⟩ := h.arg other (List.getElem?_eq_some_iff.mp hi).1
      refine ⟨thread, hthread, ?_⟩
      rw [advance_self]
      exact (exec_frame hx).1.trans harg
    · rw [advance_other s.switch ho]
      exact h.arg other

omit [DecidableEq ι] in
theorem ExitInv.proper (h : ExitInv k s) (e : Event ι τ) : Proper k s e := by
  cases e with
  | irq cpu irq => exact fun left c' hd => dispatch_ends _ _ (h.saved cpu) hd
  | next cpu =>
    intro hi
    have h27 : (s.switch.cpus cpu).pc = 27 :=
      code_at (P := fun i k => i = .iretq → k = 27) (by simp [ctx_switch, List.zipIdx]) hi rfl
    obtain ⟨thread, hthread, harg⟩ := h.arg cpu (List.getElem?_eq_some_iff.mp hi).1
    exact ⟨thread, hthread, ((h.parked cpu).loaded (Or.inr h27)).trans harg⟩

/-! ## §7. Sequences of events. -/

/-- **The exit protocol.**  CPUs that start outside `ctx_switch` with no context saved, any
number of them, over every sequence of interrupts without a panic and any interleaving of
the switches: if no store to `task_cr3` overwrites what another CPU waits for, every
interrupt ends properly, and every thread is entered in its own address space. -/
theorem interrupt_exit_protocol (k : Config ι) (s : Kernel ι) (hs : s.switch.Outside)
    (hclear : ∀ cpu, (s.data cpu).saved_vmm_ctx = 0) (events : List (Event ι τ))
    (hkeeps : Along (Kernel.step k) KeepsParked s events) :
    Along (Kernel.step k) (Proper k) s events := by
  have hinv : ExitInv k s := by
    refine ⟨hclear, fun cpu => Parked.of_outside (hs cpu), fun cpu hlt => ?_⟩
    exact absurd hlt (Nat.not_lt.mpr (hs cpu))
  exact Along.imp (Kernel.step k) (ExitInv k) (fun s e h _ => h.proper e)
    (fun _ _ _ h hok hstep => h.step hok hstep) events s hinv hkeeps

/-- Two CPUs, the kernel's address space at 0x1000, the threads' behind it. -/
def twoCpuConfig : Config Bool :=
  ⟨0x1000, Bool.toNat, fun p => BitVec.ofNat 64 (0x2000 + p), fun _ => 0⟩

/-- Nothing is saved, and no CPU is inside `ctx_switch`. -/
def twoCpuKernel : Kernel Bool := ⟨twoIdle, fun _ => ⟨0, 0, 0, 0⟩, fun _ => none⟩

/-- The two threads of the scheduler's example state, neither of them running. -/
def idleSched : Sched Unit :=
  { twoCpus.toSched with
    objects := fun p =>
      if p = 0 then some ⟨(), 5, .stopped, -1⟩
      else if p = 1 then some ⟨(), 7, .stopped, -1⟩ else none
    sched_procs := [⟨0, false⟩, ⟨0, false⟩] }

/-- The state after the timer interrupt on CPU 0. -/
def firstTaken : Sched Unit := ((idleSched.sched_resched 0 () false).map (·.2)).getD idleSched

/-- A timer interrupt in an idle CPU. -/
def timerIrq (sched : Sched Unit) : Irq Unit :=
  ⟨0x31, true, 0x1000, some true, true, sched, (), fun _ => true⟩

def inTurn : List (Event Bool Unit) :=
  .irq false (timerIrq idleSched) :: List.replicate 28 (.next false)
    ++ .irq true (timerIrq firstTaken) :: List.replicate 28 (.next true)
    ++ [.irq true ⟨0xFF, false, 0x2001, none, true, firstTaken, (), fun _ => true⟩]

theorem interrupt_exit_protocol_inTurn :
    (run (Kernel.step twoCpuConfig) twoCpuKernel inTurn).map
        (fun t => ((t.switch.cpus false).cr3, (t.switch.cpus true).cr3, (t.data true).lapic_eois))
      = some (0x2000, 0x2001, 2)
    ∧ Along (Kernel.step twoCpuConfig) (Proper twoCpuConfig) twoCpuKernel inTurn :=
  ⟨by decide +kernel, interrupt_exit_protocol twoCpuConfig twoCpuKernel (by decide) (fun _ => rfl)
    inTurn (by decide +kernel)⟩

/-- **Two timer interrupts at once.**  Both CPUs have left the scheduler before the first
one fetches its argument from `task_cr3`: it enters its thread in the address space of the
other one's. -/
theorem interrupt_enters_wrong_space :
    twoCpuKernel.switch.Outside ∧ (∀ cpu, (twoCpuKernel.data cpu).saved_vmm_ctx = 0)
    ∧ ¬ ∀ events : List (Event Bool Unit),
        Along (Kernel.step twoCpuConfig) (Proper twoCpuConfig) twoCpuKernel events := by
  refine ⟨by decide, fun _ => rfl, fun h => ?_⟩
  let mixed : List (Event Bool Unit) :=
    [.irq false (timerIrq idleSched), .irq true (timerIrq firstTaken), .next false, .next true]
      ++ List.replicate 26 (.next false)
  have hrun : (run (Kernel.step twoCpuConfig) twoCpuKernel mixed).map
      (fun t => ((t.switch.cpus false).pc, t.thread false, (t.switch.cpus false).cr3))
        = some (27, some 0, 0x2001) := by
    decide +kernel
  obtain ⟨t, ht, hall⟩ := Option.map_eq_some_iff.mp hrun
  injection hall with hpc hall
  injection hall with hthread hcr3
  have hlast := Along.of_append _ mixed [.next false] _ t ht (h _)
  obtain ⟨thread, hthread', hcr3'⟩ := hlast.1 (by rw [hpc]; rfl)
  rw [hthread] at hthread'
  cases hthread'
  rw [hcr3] at hcr3'
  exact absurd hcr3' (by decide)

end Quack.Interrupts
