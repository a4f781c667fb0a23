import Rypipe.Predicate
import Mathlib.Data.List.AList

/-! # The ordered parallel stream

The threads of an ordered streaming run (`parallel_stream.rs`): workers pop chunk indices from a
shared queue, wait for the dispatch window, parse, and send their results over a bounded channel; the
coordinator receives the results, holds back those that come too early, and hands the batches to the
consumer in chunk order. `Step` is one atomic action of one thread, so that a run of the relation is
one interleaving. -/

namespace Rypipe

namespace Stream

universe u v

/-- `a.saturating_add(b)` on `usize`. -/
def saturatingAdd (a b : Nat) : Nat := min (a + b) usizeMax

/-- What an ordered run is given: the chunks and what they parse to, the limits, and the consumer. -/
structure Run (β : Type u) (ε : Type v) where
  /-- The number of chunks, the length of a vector. -/
  numChunks : Nat
  numChunks_le : numChunks ≤ usizeMax
  /-- `opts.threads`. -/
  threads : Nat
  /-- `opts.max_reorder`; zero for the default. -/
  maxReorderOpt : Nat
  /-- `max_in_flight`, the capacity of the channel. -/
  maxInFlight : Nat
  /-- Whether the memory budget is strict, and what it allows one batch. -/
  strict : Bool
  allowance : Nat
  /-- `get_array_memory_size`. -/
  size : β → Nat
  /-- The batch a chunk parses to, when its worker does not fail. -/
  batch : Nat → β
  /-- `consumer.consume(batch)` after the batches consumed so far; `none` for `Ok`. -/
  consume : List β → β → Option ε
  /-- `Error::Memory`, by what was used and the limit. -/
  memory : Nat → Nat → ε

variable {β : Type u} {ε : Type v}

namespace Run

variable (run : Run β ε)

/-- The number of workers. -/
def workers : Nat := max run.threads 1

/-- `max_reorder`. -/
def maxReorder : Nat := if 0 < run.maxReorderOpt then run.maxReorderOpt else run.workers

/-- `dispatch_window`. -/
def dispatchWindow : Nat := saturatingAdd run.maxReorder 1

/-- `reorder_limit`. -/
def reorderLimit : Nat := min (run.maxReorder * run.allowance) usizeMax

end Run

/-- Where a worker is in its loop. -/
inductive Worker (β : Type u) (ε : Type v) where
  /-- About to pop the queue. -/
  | idle
  /-- Holding a chunk, at the dispatch window. -/
  | waiting (seq : Nat)
  | parsing (seq : Nat)
  /-- At `send` with its result. -/
  | sending (seq : Nat) (result : Except ε β)
  /-- Out of its loop. -/
  | stopped

/-- The coordinator's variables, with the batches it has handed to the consumer and the sequence
number it publishes to the workers (`none` once the guard is dropped). -/
structure Coordinator (β : Type u) where
  nextSeq : Nat := 0
  pending : AList fun _ : Nat => β := ∅
  reorderBytes : Nat := 0
  consumed : List β := []
  dispatch : Option Nat := some 0

/-- How far the coordinator's thread is. -/
inductive Phase (ε : Type v) where
  /-- In the loop over the receiver. -/
  | receiving
  /-- Out of the loop, the receiver dropped. -/
  | ended (result : Except ε Unit)
  /-- The dispatch guard dropped, joining the workers. -/
  | joining (result : Except ε Unit)
  | returned (result : Except ε Unit)

/-- A state of a run. -/
structure State (run : Run β ε) where
  /-- The queue of chunks, popped from its end. -/
  queue : List Nat
  workers : Fin run.workers → Worker β ε
  /-- The results in the channel, oldest first. -/
  channel : List (Nat × Except ε β)
  coordinator : Coordinator β
  phase : Phase ε

/-- The state in which the threads start. -/
def State.initial (run : Run β ε) : State run where
  queue := (List.range run.numChunks).reverse
  workers := fun _ => .idle
  channel := []
  coordinator := {}
  phase := .receiving

section Coordinate

variable (run : Run β ε)

/-- The loop over `pending`: consume the batches whose turn has come. `fuel` bounds the number of
turns. -/
def drain : Nat → Coordinator β → Coordinator β × Option ε
  | 0, c => (c, none)
  | fuel + 1, c =>
      match c.pending.lookup c.nextSeq with
      | none => (c, none)
      | some b =>
          let c' := { c with
            pending := c.pending.erase c.nextSeq
            reorderBytes := c.reorderBytes - run.size b
            consumed := c.consumed ++ [b] }
          match run.consume c.consumed b with
          | some err => (c', some err)
          | none => drain fuel { c' with nextSeq := c.nextSeq + 1 }

/-- What the coordinator does with one received result; the error it leaves its loop with, if it
does. -/
def receive (c : Coordinator β) (seq : Nat) (result : Except ε β) : Coordinator β × Option ε :=
  match result with
  | .error err => (c, some err)
  | .ok b =>
      if seq = c.nextSeq then
        let c' := { c with consumed := c.consumed ++ [b] }
        match run.consume c.consumed b with
        | some err => (c', some err)
        | none =>
            match drain run c.pending.keys.length { c' with nextSeq := c.nextSeq + 1 } with
            | (c', some err) => (c', some err)
            | (c', none) => ({ c' with dispatch := some c'.nextSeq }, none)
      else
        let bytes := saturatingAdd c.reorderBytes (run.size b)
        if run.strict && decide (run.reorderLimit < bytes) then
          ({ c with reorderBytes := bytes }, some (run.memory bytes run.reorderLimit))
        else ({ c with reorderBytes := bytes, pending := c.pending.insert seq b }, none)

end Coordinate

namespace State

variable {run : Run β ε} (s : State run)

/-- Replace the state of one worker. -/
def setWorker (w : Fin run.workers) (x : Worker β ε) : State run :=
  { s with workers := Function.update s.workers w x }

/-- The dispatch window keeps a chunk back while the coordinator is `next`. -/
def withheld (run : Run β ε) (next seq : Nat) : Prop :=
  saturatingAdd next run.dispatchWindow ≤ seq

instance (run : Run β ε) (next seq : Nat) : Decidable (withheld run next seq) :=
  inferInstanceAs (Decidable (_ ≤ _))

/-- The worker waits for the dispatch window. -/
def Blocked (w : Fin run.workers) : Prop :=
  ∃ seq next, s.workers w = .waiting seq ∧ s.coordinator.dispatch = some next ∧
    withheld run next seq

end State

/-- What a worker does after it has sent a result: a failure is its last one. -/
def afterSend : Except ε β → Worker β ε
  | .ok _ => .idle
  | .error _ => .stopped

/-- The phase after one received result. -/
def phaseAfter : Option ε → Phase ε
  | none => .receiving
  | some err => .ended (.error err)

open State in
/-- One action of one thread. -/
inductive Step {run : Run β ε} : State run → State run → Prop
  /-- A worker pops a chunk. -/
  | pop {s : State run} (w : Fin run.workers) (seq : Nat) (hidle : s.workers w = .idle)
      (hpop : s.queue.getLast? = some seq) :
      Step s ({ s with queue := s.queue.dropLast }.setWorker w (.waiting seq))
  /-- A worker finds the queue empty. -/
  | quit {s : State run} (w : Fin run.workers) (hidle : s.workers w = .idle)
      (hempty : s.queue = []) : Step s (s.setWorker w .stopped)
  /-- The dispatch window lets a chunk through. -/
  | enter {s : State run} (w : Fin run.workers) (seq next : Nat)
      (hwaiting : s.workers w = .waiting seq) (hnext : s.coordinator.dispatch = some next)
      (hopen : ¬ withheld run next seq) : Step s (s.setWorker w (.parsing seq))
  /-- The dispatch guard has been dropped. -/
  | withdraw {s : State run} (w : Fin run.workers) (seq : Nat)
      (hwaiting : s.workers w = .waiting seq) (hnone : s.coordinator.dispatch = none) :
      Step s (s.setWorker w .stopped)
  /-- A worker has parsed its chunk, or failed. -/
  | parse {s : State run} (w : Fin run.workers) (seq : Nat) (result : Except ε β)
      (hparsing : s.workers w = .parsing seq) (hresult : ∀ b, result = .ok b → b = run.batch seq) :
      Step s (s.setWorker w (.sending seq result))
  /-- A result goes into the channel. -/
  | send {s : State run} (w : Fin run.workers) (seq : Nat) (result : Except ε β)
      (hsending : s.workers w = .sending seq result) (halive : s.phase = .receiving)
      (hroom : s.channel.length < max run.maxInFlight 1) :
      Step s ({ s with channel := s.channel ++ [(seq, result)] }.setWorker w (afterSend result))
  /-- The receiver has been dropped. -/
  | disconnected {s : State run} (w : Fin run.workers) (seq : Nat) (result : Except ε β)
      (hsending : s.workers w = .sending seq result) (hdead : s.phase ≠ .receiving) :
      Step s (s.setWorker w .stopped)
  /-- The coordinator receives the oldest result. -/
  | receive {s : State run} (seq : Nat) (result : Except ε β) (rest : List (Nat × Except ε β))
      (hphase : s.phase = .receiving) (hchannel : s.channel = (seq, result) :: rest) :
      Step s { s with
        channel := rest
        coordinator := (receive run s.coordinator seq result).1
        phase := phaseAfter (receive run s.coordinator seq result).2 }
  /-- All senders are gone and the channel is empty. -/
  | close {s : State run} (hphase : s.phase = .receiving) (hchannel : s.channel = [])
      (hstopped : ∀ w, s.workers w = .stopped) : Step s { s with phase := .ended (.ok ()) }
  /-- The coordinator drops the dispatch guard. -/
  | release {s : State run} (result : Except ε Unit) (hphase : s.phase = .ended result) :
      Step s { s with
        coordinator := { s.coordinator with dispatch := none }
        phase := .joining result }
  /-- The coordinator has joined the workers, none of which fails, and returns. -/
  | join {s : State run} (result : Except ε Unit) (hphase : s.phase = .joining result)
      (hstopped : ∀ w, s.workers w = .stopped) : Step s { s with phase := .returned result }

/-- The states of a run, over all interleavings. -/
def Reachable (run : Run β ε) (s : State run) : Prop :=
  Relation.ReflTransGen Step (State.initial run) s

end Stream

end Rypipe
