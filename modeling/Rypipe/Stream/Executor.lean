import Rypipe.Foundation.Labelled
import Rypipe.Stream.Coordinator

/-! # The parallel stream around any consumer

The threads of `ParallelStreamingExecutor::run_bytes_stream`, ordered or not, around a consumer that may
answer each call as it likes. Here one call of `consumer.consume` is one step of the coordinator, so
that the workers go on while the coordinator waits for the consumer, and the label of a step says what
it does outside: a chunk was parsed, or a batch consumed. -/

namespace Rypipe

namespace Stream

universe u v

variable {β : Type u} {ε : Type v}

/-- What a streaming run is given besides its consumer. -/
structure Job (β : Type u) (ε : Type v) where
  /-- The number of chunks, the length of a vector. -/
  numChunks : Nat
  numChunks_le : numChunks ≤ usizeMax
  /-- `opts.threads`. -/
  threads : Nat
  /-- `opts.max_reorder`; zero for the default. -/
  maxReorderOpt : Nat
  /-- `max_in_flight`, the capacity of the channel. -/
  maxInFlight : Nat
  /-- `opts.ordered`. -/
  ordered : Bool
  /-- Whether the memory budget is strict, and what it allows one batch. -/
  strict : Bool
  allowance : Nat
  /-- `get_array_memory_size`. -/
  size : β → Nat
  /-- The batch a chunk parses to, when its worker does not fail. -/
  batch : Nat → β
  /-- `Error::Memory`, by what was used and the limit. -/
  memory : Nat → Nat → ε

namespace Job

variable (job : Job β ε)

/-- The ordered run of the job with a consumer that answers by what it has consumed. -/
def toRun (consume : List β → β → Option ε) : Run β ε where
  numChunks := job.numChunks
  numChunks_le := job.numChunks_le
  threads := job.threads
  maxReorderOpt := job.maxReorderOpt
  maxInFlight := job.maxInFlight
  strict := job.strict
  allowance := job.allowance
  size := job.size
  batch := job.batch
  consume := consume
  memory := job.memory

/-- The number of workers. -/
def workers : Nat := max job.threads 1

/-- `max_reorder`. -/
def maxReorder : Nat := if 0 < job.maxReorderOpt then job.maxReorderOpt else job.workers

/-- `dispatch_window`. -/
def dispatchWindow : Nat := saturatingAdd job.maxReorder 1

/-- `reorder_limit`. -/
def reorderLimit : Nat := min (job.maxReorder * job.allowance) usizeMax

/-- Whether the dispatch window keeps a chunk back while the published sequence number is `next`. -/
def withholds (next seq : Nat) : Bool :=
  job.ordered && decide (saturatingAdd next job.dispatchWindow ≤ seq)

end Job

/-- How far the coordinator's thread is. -/
inductive Stage (β : Type u) (ε : Type v) where
  /-- At `recv`. -/
  | receiving
  /-- At `consumer.consume`, with the batch of a chunk. -/
  | delivering (seq : Nat) (b : β)
  /-- At the loop over `pending`. -/
  | draining
  /-- Out of the loop, the receiver dropped. -/
  | ended (result : Except ε Unit)
  /-- The dispatch guard dropped, joining the workers. -/
  | joining (result : Except ε Unit)
  | returned (result : Except ε Unit)

/-- The receiver has not been dropped. -/
def Stage.live : Stage β ε → Bool
  | .receiving | .delivering _ _ | .draining => true
  | .ended _ | .joining _ | .returned _ => false

/-- What a step does outside the executor. -/
inductive Action (β : Type u) (ε : Type v) where
  | internal
  /-- A worker has parsed a chunk. -/
  | parsed (seq : Nat) (result : Except ε β)
  /-- The consumer was called with the batch of a chunk, and failed or not. -/
  | consumed (seq : Nat) (b : β) (failure : Option ε)

/-- A state of the threads. -/
structure Executor (job : Job β ε) where
  /-- The queue of chunks, popped from its end. -/
  queue : List Nat := (List.range job.numChunks).reverse
  workers : Fin job.workers → Worker β ε := fun _ => .idle
  /-- The results in the channel, oldest first. -/
  channel : List (Nat × Except ε β) := []
  nextSeq : Nat := 0
  pending : AList fun _ : Nat => β := ∅
  reorderBytes : Nat := 0
  /-- The sequence number published to the workers; `none` once the guard is dropped. -/
  dispatch : Option Nat := some 0
  stage : Stage β ε := .receiving

namespace Executor

variable {job : Job β ε}

/-- The state in which the threads start. -/
def initial (job : Job β ε) : Executor job := {}

section Coordinate

variable (s : Executor job)

/-- One turn of the loop over the receiver. -/
def receive (seq : Nat) : Except ε β → Executor job
  | .error err => { s with stage := .ended (.error err) }
  | .ok b =>
      if job.ordered && seq != s.nextSeq then
        let bytes := saturatingAdd s.reorderBytes (job.size b)
        if job.strict && decide (job.reorderLimit < bytes) then
          { s with
            reorderBytes := bytes
            stage := .ended (.error (job.memory bytes job.reorderLimit)) }
        else { s with reorderBytes := bytes, pending := s.pending.insert seq b }
      else { s with stage := .delivering seq b }

/-- What follows a call of the consumer. -/
def answer : Option ε → Executor job
  | some err => { s with stage := .ended (.error err) }
  | none =>
      if job.ordered then { s with nextSeq := s.nextSeq + 1, stage := .draining }
      else { s with stage := .receiving }

/-- One turn of the loop over `pending`; at its end the new sequence number is published. -/
def drain : Executor job :=
  match s.pending.lookup s.nextSeq with
  | some b =>
      { s with
        pending := s.pending.erase s.nextSeq
        reorderBytes := s.reorderBytes - job.size b
        stage := .delivering s.nextSeq b }
  | none => { s with dispatch := some s.nextSeq, stage := .receiving }

/-- Replace the state of one worker. -/
def setWorker (w : Fin job.workers) (x : Worker β ε) : Executor job :=
  { s with workers := Function.update s.workers w x }

end Coordinate

/-- One action of one thread. -/
inductive Step : Executor job → Action β ε → Executor job → Prop
  /-- A worker pops a chunk. -/
  | pop {s : Executor job} (w : Fin job.workers) (seq : Nat) (hidle : s.workers w = .idle)
      (hpop : s.queue.getLast? = some seq) :
      Step s .internal ({ s with queue := s.queue.dropLast }.setWorker w (.waiting seq))
  /-- A worker finds the queue empty. -/
  | quit {s : Executor job} (w : Fin job.workers) (hidle : s.workers w = .idle)
      (hempty : s.queue = []) : Step s .internal (s.setWorker w .stopped)
  /-- The dispatch window lets a chunk through; an unordered run does not ask it. -/
  | enter {s : Executor job} (w : Fin job.workers) (seq : Nat)
      (hwaiting : s.workers w = .waiting seq)
      (hopen : job.ordered = true → ∃ next, s.dispatch = some next ∧ job.withholds next seq = false) :
      Step s .internal (s.setWorker w (.parsing seq))
  /-- The dispatch guard has been dropped. -/
  | withdraw {s : Executor job} (w : Fin job.workers) (seq : Nat)
      (hwaiting : s.workers w = .waiting seq) (hordered : job.ordered = true)
      (hnone : s.dispatch = none) : Step s .internal (s.setWorker w .stopped)
  /-- A worker has parsed its chunk, or failed. -/
  | parse {s : Executor job} (w : Fin job.workers) (seq : Nat) (result : Except ε β)
      (hparsing : s.workers w = .parsing seq) (hresult : ∀ b, result = .ok b → b = job.batch seq) :
      Step s (.parsed seq result) (s.setWorker w (.sending seq result))
  /-- A result goes into the channel. -/
  | send {s : Executor job} (w : Fin job.workers) (seq : Nat) (result : Except ε β)
      (hsending : s.workers w = .sending seq result) (hlive : s.stage.live = true)
      (hroom : s.channel.length < max job.maxInFlight 1) :
      Step s .internal
        ({ s with channel := s.channel ++ [(seq, result)] }.setWorker w (afterSend result))
  /-- The receiver has been dropped. -/
  | disconnected {s : Executor job} (w : Fin job.workers) (seq : Nat) (result : Except ε β)
      (hsending : s.workers w = .sending seq result) (hdead : s.stage.live = false) :
      Step s .internal (s.setWorker w .stopped)
  /-- The coordinator receives the oldest result. -/
  | receive {s : Executor job} (seq : Nat) (result : Except ε β) (rest : List (Nat × Except ε β))
      (hstage : s.stage = .receiving) (hchannel : s.channel = (seq, result) :: rest) :
      Step s .internal ({ s with channel := rest }.receive seq result)
  /-- The consumer answers. -/
  | consume {s : Executor job} (seq : Nat) (b : β) (failure : Option ε)
      (hstage : s.stage = .delivering seq b) :
      Step s (.consumed seq b failure) (s.answer failure)
  /-- The coordinator looks for the next batch in `pending`. -/
  | drain {s : Executor job} (hstage : s.stage = .draining) : Step s .internal s.drain
  /-- All senders are gone and the channel is empty. -/
  | close {s : Executor job} (hstage : s.stage = .receiving) (hchannel : s.channel = [])
      (hstopped : ∀ w, s.workers w = .stopped) :
      Step s .internal { s with stage := .ended (.ok ()) }
  /-- The coordinator drops the dispatch guard. -/
  | release {s : Executor job} (result : Except ε Unit) (hstage : s.stage = .ended result) :
      Step s .internal { s with dispatch := none, stage := .joining result }
  /-- The coordinator has joined the workers, none of which fails, and returns. -/
  | join {s : Executor job} (result : Except ε Unit) (hstage : s.stage = .joining result)
      (hstopped : ∀ w, s.workers w = .stopped) :
      Step s .internal { s with stage := .returned result }

end Executor

end Stream

end Rypipe
