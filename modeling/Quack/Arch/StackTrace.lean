/-
  Quack.Arch.StackTrace
  **`cpu_trace_stack` (`cpu.cpp`).**

  A stack frame is two words: the frame pointer of the caller and the return
  address.  The loop takes the next `ip` before the next `bp`.
-/
import Mathlib.Data.List.Basic

namespace Quack.StackTrace

/-- The loop: the `ip` of every report; `none` is out of fuel. -/
def trace_from (mem : BitVec 64 → BitVec 64) :
    (fuel : Nat) → (ip bp : BitVec 64) → Option (List (BitVec 64))
  | 0, _, _ => none
  | fuel + 1, ip, bp =>
    if bp = 0 then some []
    else (trace_from mem fuel (mem (bp + 8)) (mem bp)).map (ip :: ·)

def cpu_trace_stack (mem : BitVec 64 → BitVec 64) (fuel : Nat) (bp : BitVec 64) :
    Option (List (BitVec 64)) :=
  trace_from mem fuel (mem (bp + 8)) bp

/-- The frames from `bp` on have these return addresses, the innermost first. -/
inductive Frames (mem : BitVec 64 → BitVec 64) : BitVec 64 → List (BitVec 64) → Prop
  | outermost : Frames mem 0 []
  | frame {bp : BitVec 64} {rets : List (BitVec 64)} :
      bp ≠ 0 → Frames mem (mem bp) rets → Frames mem bp (mem (bp + 8) :: rets)

variable {mem : BitVec 64 → BitVec 64} {bp : BitVec 64} {rets : List (BitVec 64)}

theorem trace_from_eq (h : Frames mem bp rets) : ∀ fuel ip, trace_from mem fuel ip bp
      = if rets.length < fuel then some (ip :: rets).dropLast else none := by
  induction h with
  | outermost =>
    intro fuel ip
    cases fuel <;> rfl
  | @frame bp rets hbp _ ih =>
    intro fuel ip
    cases fuel with
    | zero => rfl
    | succ fuel =>
      simp only [trace_from, if_neg hbp, ih, List.length_cons, Nat.succ_lt_succ_iff]
      split <;> rfl

theorem dropLast_eq_iff (r : BitVec 64) : (r :: rets).dropLast = rets ↔ ∀ a ∈ rets, a = r := by
  induction rets generalizing r with
  | nil => simp
  | cons b rets ih =>
    simp only [List.dropLast_cons_cons, List.cons.injEq, ih, List.forall_mem_cons, @eq_comm _ r]
    exact and_congr_right fun hb => by rw [hb]

/-- **What is reported.**  The innermost return address comes twice and the outermost one
not at all, which shows unless they are all the same. -/
theorem cpu_trace_stack_reports (r : BitVec 64) (h : Frames mem bp (r :: rets)) :
    (∀ fuel > rets.length + 1, cpu_trace_stack mem fuel bp = some (r :: (r :: rets).dropLast))
      ∧ ((∃ fuel, cpu_trace_stack mem fuel bp = some (r :: rets)) ↔ ∀ a ∈ rets, a = r) := by
  have hrun : ∀ fuel, cpu_trace_stack mem fuel bp
      = if rets.length + 1 < fuel then some (r :: (r :: rets).dropLast) else none := by
    intro fuel
    cases h
    exact trace_from_eq (.frame ‹_› ‹_›) fuel _
  refine ⟨fun fuel hfuel => by rw [hrun, if_pos hfuel], ?_⟩
  rw [← dropLast_eq_iff]
  constructor
  · rintro ⟨fuel, hres⟩
    rw [hrun] at hres
    split at hres
    · injection hres with hres
      injection hres
    · cases hres
  · intro heq
    exact ⟨rets.length + 2, by rw [hrun, if_pos (by omega), heq]⟩

/-- Two frames, at `0x10` and `0x20`. -/
def twoFrames (a : BitVec 64) : BitVec 64 :=
  if a = 0x10 then 0x20 else if a = 0x18 then 7 else if a = 0x28 then 9 else 0

theorem twoFrames_frames : Frames twoFrames 0x10 [7, 9] :=
  .frame (by decide) (.frame (by decide) .outermost)

theorem cpu_trace_stack_two : cpu_trace_stack twoFrames 3 0x10 = some [7, 7] :=
  (cpu_trace_stack_reports 7 twoFrames_frames).1 3 (by decide)

theorem cpu_trace_stack_repeats :
    ¬ ∀ (mem : BitVec 64 → BitVec 64) (bp r : BitVec 64) (rets : List (BitVec 64)),
      Frames mem bp (r :: rets) → ∃ fuel, cpu_trace_stack mem fuel bp = some (r :: rets) := by
  intro h
  obtain ⟨fuel, hfuel⟩ := h twoFrames 0x10 7 [9] twoFrames_frames
  unfold cpu_trace_stack at hfuel
  rw [trace_from_eq twoFrames_frames] at hfuel
  split at hfuel
  · exact absurd hfuel (by decide)
  · cases hfuel

end Quack.StackTrace
