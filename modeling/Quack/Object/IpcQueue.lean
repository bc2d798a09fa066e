/-
  Quack.Object.IpcQueue
  **THE IPC MESSAGE QUEUE against the FIFO it is meant to be.**

  `object/ipc_queue.cpp` keeps its messages in a vector of owning pointers
  (`none` is an empty slot) with a write cursor `_enqueue`, a read cursor
  `_dequeue` and a message count.  `send` appends one slot when the count has
  reached the vector's size and asserts that the slot under `_enqueue` is
  empty; `pop` asserts that the slot under `_dequeue` is full and empties it.

  Two things are missing from that ring buffer: `pop` never moves `_dequeue`,
  and the slot that `send` appends is not the one `_enqueue` has wrapped to.
  So the queue carries ONE message at a time, and `fifo_iff_sends_on_empty`
  says exactly that: it behaves as a FIFO on a call sequence if and only if
  every `send` of the sequence finds the queue empty.
-/
import Quack.Lib.Runs

namespace Quack.Ipc

open Lib

/-! ## §1. The queue and its operations. -/

/-- `struct ipc_queue`, for messages of any type.  (The parent object plays no
part in the message operations.) -/
structure IpcQueue (α : Type) where
  has_new : Bool
  n_messages : Nat
  buffer : List (Option α)
  enqueue : Nat
  dequeue : Nat
  deriving Repr, DecidableEq

variable {α : Type}

/-- The constructor: an empty vector and both cursors at 0. -/
def ipc_queue : IpcQueue α := ⟨false, 0, [], 0, 0⟩

/-- `send`; `none` is the failed assertion `!_buffer[_enqueue]`. -/
def IpcQueue.send (q : IpcQueue α) (message : α) : Option (IpcQueue α) :=
  -- grow by one empty slot when every slot is in use
  let buffer := if q.buffer.length = q.n_messages then q.buffer ++ [none] else q.buffer
  match buffer[q.enqueue]? with
  | some none =>
    some { q with
      buffer := buffer.set q.enqueue (some message)
      enqueue := if buffer.length ≤ q.enqueue + 1 then 0 else q.enqueue + 1
      has_new := true
      n_messages := q.n_messages + 1 }
  | _ => none

/-- `peek`; `none` is the failed assertion `_buffer[_dequeue]`. -/
def IpcQueue.peek (q : IpcQueue α) : Option α :=
  (q.buffer[q.dequeue]?).join

def IpcQueue.pop (q : IpcQueue α) : Option (α × IpcQueue α) :=
  match q.buffer[q.dequeue]? with
  | some (some item) =>
    some (item, { q with
      buffer := q.buffer.set q.dequeue none
      n_messages := q.n_messages - 1 })
  | _ => none

/-- `get_queue_size`. -/
def IpcQueue.get_queue_size (q : IpcQueue α) : Nat := q.n_messages

/-! ## §2. Call sequences, and what a FIFO would do on them. -/

/-- One call. -/
inductive Op (α : Type) where
  | send (message : α)
  | pop
  deriving Repr, DecidableEq

/-- One call on the queue, collecting what `pop` returns. -/
def step (s : IpcQueue α × List α) : Op α → Option (IpcQueue α × List α)
  | .send message => (s.1.send message).map (fun q => (q, s.2))
  | .pop => s.1.pop.map (fun r => (r.2, s.2 ++ [r.1]))

/-- The messages sent by a call sequence, in order. -/
def sent : List (Op α) → List α
  | [] => []
  | .send message :: ops => message :: sent ops
  | .pop :: ops => sent ops

/-- The number of `pop` calls of a sequence. -/
def pops : List (Op α) → Nat
  | [] => 0
  | .send _ :: ops => pops ops
  | .pop :: ops => pops ops + 1

/-- With `n` messages outstanding, `pop` is only called on a nonempty queue. -/
def PopGuarded : Nat → List (Op α) → Prop
  | _, [] => True
  | n, .send _ :: ops => PopGuarded (n + 1) ops
  | n, .pop :: ops => 0 < n ∧ PopGuarded (n - 1) ops

/-- With `n` messages outstanding, `send` is only called on an empty queue. -/
def SendsOnEmpty : Nat → List (Op α) → Prop
  | _, [] => True
  | n, .send _ :: ops => n = 0 ∧ SendsOnEmpty (n + 1) ops
  | n, .pop :: ops => SendsOnEmpty (n - 1) ops

def FifoCorrect (ops : List (Op α)) : Prop :=
  ∃ q popped pending, run step (ipc_queue, []) ops = some (q, popped)
    ∧ popped ++ pending = sent ops
    ∧ popped.length = pops ops
    ∧ q.get_queue_size = pending.length
    ∧ q.peek = pending.head?

/-! ## §3. The states the queue can reach. -/

/-- The queue with at most one message `c` in it: both cursors at 0 and, once
the vector has grown, a single slot. -/
structure Shape (q : IpcQueue α) (c : Option α) : Prop where
  enqueue : q.enqueue = 0
  dequeue : q.dequeue = 0
  n_messages : q.n_messages = c.toList.length
  buffer : q.buffer = [c] ∨ (c = none ∧ q.buffer = [])

theorem Shape.init : Shape (ipc_queue : IpcQueue α) none :=
  ⟨rfl, rfl, rfl, Or.inr ⟨rfl, rfl⟩⟩

variable {q : IpcQueue α}

theorem Shape.peek {c : Option α} (hq : Shape q c) : q.peek = c := by
  unfold IpcQueue.peek
  rw [hq.dequeue]
  rcases hq.buffer with hb | ⟨hc, hb⟩
  · rw [hb]; rfl
  · rw [hb, hc]; rfl

theorem Shape.send (hq : Shape q none) (message : α) :
    ∃ q', q.send message = some q' ∧ Shape q' (some message) := by
  have hn : q.n_messages = 0 := hq.n_messages
  rcases hq.buffer with hb | ⟨-, hb⟩
  · refine ⟨⟨true, 1, [some message], 0, 0⟩, ?_, ⟨rfl, rfl, rfl, Or.inl rfl⟩⟩
    simp [IpcQueue.send, hb, hn, hq.enqueue, hq.dequeue]
  · refine ⟨⟨true, 1, [some message], 0, 0⟩, ?_, ⟨rfl, rfl, rfl, Or.inl rfl⟩⟩
    simp [IpcQueue.send, hb, hn, hq.enqueue, hq.dequeue]

theorem Shape.send_full {m : α} (hq : Shape q (some m)) (message : α) :
    q.send message = none := by
  have hn : q.n_messages = 1 := hq.n_messages
  have hb : q.buffer = [some m] := by
    rcases hq.buffer with hb | ⟨hc, -⟩
    · exact hb
    · cases hc
  simp [IpcQueue.send, hb, hn, hq.enqueue]

theorem Shape.pop {m : α} (hq : Shape q (some m)) :
    ∃ q', q.pop = some (m, q') ∧ Shape q' none := by
  have hn : q.n_messages = 1 := hq.n_messages
  have hb : q.buffer = [some m] := by
    rcases hq.buffer with hb | ⟨hc, -⟩
    · exact hb
    · cases hc
  refine ⟨{ q with buffer := [none], n_messages := 0 }, ?_,
    ⟨hq.enqueue, hq.dequeue, rfl, Or.inl rfl⟩⟩
  simp [IpcQueue.pop, hb, hn, hq.dequeue]

/-! ## §4. Runs. -/

theorem run_of_sendsOnEmpty :
    ∀ (ops : List (Op α)) (q : IpcQueue α) (c : Option α) (popped : List α),
      Shape q c → PopGuarded c.toList.length ops → SendsOnEmpty c.toList.length ops →
      ∃ q' c' popped', run step (q, popped) ops = some (q', popped')
        ∧ Shape q' c'
        ∧ popped' ++ c'.toList = popped ++ c.toList ++ sent ops
        ∧ popped'.length = popped.length + pops ops
  | [], q, c, popped, hq, _, _ => ⟨q, c, popped, rfl, hq, by simp [sent], by simp [pops]⟩
  | .send message :: ops, q, c, popped, hq, hg, hs => by
    -- the guard says that nothing is pending
    obtain ⟨hempty, hs'⟩ := hs
    obtain rfl : c = none := by
      cases c with
      | none => rfl
      | some m => simp at hempty
    obtain ⟨q1, hsend, hq1⟩ := hq.send message
    obtain ⟨q', c', popped', hrun, hq', heq, hlen⟩ :=
      run_of_sendsOnEmpty ops q1 (some message) popped hq1 hg hs'
    refine ⟨q', c', popped', ?_, hq', ?_, hlen⟩
    · rw [run_cons, show step (q, popped) (.send message) = some (q1, popped) by
        simp [step, hsend]]
      exact hrun
    · rw [heq]
      simp [sent]
  | .pop :: ops, q, c, popped, hq, hg, hs => by
    obtain ⟨hpos, hg'⟩ := hg
    cases c with
    | none => simp at hpos
    | some m =>
      obtain ⟨q1, hpop, hq1⟩ := hq.pop
      obtain ⟨q', c', popped', hrun, hq', heq, hlen⟩ :=
        run_of_sendsOnEmpty ops q1 none (popped ++ [m]) hq1 hg' hs
      refine ⟨q', c', popped', ?_, hq', ?_, ?_⟩
      · rw [run_cons, show step (q, popped) .pop = some (q1, popped ++ [m]) by
          simp [step, hpop]]
        exact hrun
      · rw [heq]
        simp [sent]
      · rw [hlen]
        simp [pops]
        omega

theorem sendsOnEmpty_of_run :
    ∀ (ops : List (Op α)) (q : IpcQueue α) (c : Option α) (popped : List α),
      Shape q c → (run step (q, popped) ops).isSome = true →
      SendsOnEmpty c.toList.length ops
  | [], _, _, _, _, _ => trivial
  | .send message :: ops, q, c, popped, hq, h => by
    cases c with
    | none =>
      obtain ⟨q1, hsend, hq1⟩ := hq.send message
      rw [run_cons, show step (q, popped) (.send message) = some (q1, popped) by
        simp [step, hsend]] at h
      exact ⟨rfl, sendsOnEmpty_of_run ops q1 (some message) popped hq1 h⟩
    | some m =>
      rw [run_cons, show step (q, popped) (.send message) = none by
        simp [step, hq.send_full message]] at h
      cases h
  | .pop :: ops, q, c, popped, hq, h => by
    cases c with
    | none =>
      have hnone : step (q, popped) .pop = none := by
        have hp : q.peek = none := hq.peek
        unfold IpcQueue.peek at hp
        unfold step IpcQueue.pop
        cases hslot : q.buffer[q.dequeue]? with
        | none => rfl
        | some slot =>
          rw [hslot, Option.join_some] at hp
          rw [hp]
          rfl
      rw [run_cons, hnone] at h
      cases h
    | some m =>
      obtain ⟨q1, hpop, hq1⟩ := hq.pop
      rw [run_cons, show step (q, popped) .pop = some (q1, popped ++ [m]) by
        simp [step, hpop]] at h
      exact sendsOnEmpty_of_run ops q1 none (popped ++ [m]) hq1 h

/-- **When the queue is a FIFO**: on a call sequence that pops only from a
nonempty queue, the queue behaves as a FIFO if and only if every `send` of the
sequence is made on an empty queue. -/
theorem fifo_iff_sends_on_empty (ops : List (Op α)) (hg : PopGuarded 0 ops) :
    FifoCorrect ops ↔ SendsOnEmpty 0 ops := by
  constructor
  · rintro ⟨q, popped, pending, hrun, -⟩
    exact sendsOnEmpty_of_run ops ipc_queue none [] Shape.init (by rw [hrun]; rfl)
  · intro hs
    obtain ⟨q, c, popped, hrun, hq, heq, hlen⟩ :=
      run_of_sendsOnEmpty ops ipc_queue none [] Shape.init hg hs
    refine ⟨q, popped, c.toList, hrun, ?_, ?_, hq.n_messages, ?_⟩
    · simpa using heq
    · simpa using hlen
    · rw [hq.peek]
      cases c <;> rfl

/-- Three alternating calls: the guard holds and the equivalence applies. -/
theorem fifo_iff_sends_on_empty_alternating :
    PopGuarded 0 [Op.send 7, .pop, .send 8]
      ∧ (FifoCorrect [Op.send 7, .pop, .send 8] ↔ SendsOnEmpty 0 [Op.send 7, .pop, .send 8]) :=
  have hg : PopGuarded 0 [Op.send 7, .pop, .send 8] := by simp [PopGuarded]
  ⟨hg, fifo_iff_sends_on_empty _ hg⟩

/-- Two sends in a row already stop the kernel. -/
theorem two_sends_fail_assertion :
    ¬ ∀ ops : List (Op Nat), PopGuarded 0 ops → FifoCorrect ops := by
  intro h
  obtain ⟨q, popped, pending, hrun, -⟩ := h [.send 1, .send 2] (by simp [PopGuarded])
  have hnone : run step ((ipc_queue : IpcQueue Nat), []) [.send 1, .send 2] = none := rfl
  rw [hnone] at hrun
  cases hrun

end Quack.Ipc
