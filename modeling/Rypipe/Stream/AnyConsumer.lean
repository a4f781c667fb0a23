import Rypipe.Stream.Delivery
import Rypipe.Stream.Executor

/-! # What any consumer is given

Whatever the consumer answers, the log of a run tells what became of every chunk. While the coordinator
is in its loop, `Flow` counts the chunks in the queue, with the workers, in the channel, in the reorder
buffer and with the consumer; once it has left the loop, `Settled` says why. -/

namespace Rypipe

namespace Stream

universe u v

variable {β : Type u} {ε : Type v} {job : Job β ε} {log : List (Action β ε)} {a : Action β ε}

/-! ## The log -/

/-- The chunk that a step has parsed. -/
def Action.parsedSeq : Action β ε → Option Nat
  | .parsed seq _ => some seq
  | .internal | .consumed _ _ _ => none

/-- The chunk with which a step has called the consumer. -/
def Action.calledSeq : Action β ε → Option Nat
  | .consumed seq _ _ => some seq
  | .internal | .parsed _ _ => none

/-- The chunks parsed so far. -/
def parsedSeqs (log : List (Action β ε)) : List Nat := log.filterMap Action.parsedSeq

/-- The chunks whose batches the consumer was called with. -/
def calledSeqs (log : List (Action β ε)) : List Nat := log.filterMap Action.calledSeq

/-- No call of the consumer has failed. -/
def Unrefused (log : List (Action β ε)) : Prop :=
  ∀ seq b err, Action.consumed seq b (some err) ∉ log

/-- A step adds the chunk that the consumer is called for, if it is. -/
theorem calledSeqs_append (log : List (Action β ε)) (a : Action β ε) :
    calledSeqs (log ++ [a]) = calledSeqs log ++ a.calledSeq.toList := by
  rw [calledSeqs, List.filterMap_append]
  cases a <;> rfl

/-- A step adds the chunk that a worker has parsed, if it has. -/
theorem parsedSeqs_append (log : List (Action β ε)) (a : Action β ε) :
    parsedSeqs (log ++ [a]) = parsedSeqs log ++ a.parsedSeq.toList := by
  rw [parsedSeqs, List.filterMap_append]
  cases a <;> rfl

/-- A chunk with a parse event in the log is among the parsed ones. -/
theorem mem_parsedSeqs {seq : Nat} {result : Except ε β} (h : Action.parsed seq result ∈ log) :
    seq ∈ parsedSeqs log :=
  List.mem_filterMap.mpr ⟨_, h, rfl⟩

/-- A step without a call leaves the calls as they are. -/
theorem Unrefused.append (h : Unrefused log) (ha : a.calledSeq = none) : Unrefused (log ++ [a]) := by
  intro seq b err hmem
  rcases List.mem_append.mp hmem with hold | hnew
  · exact h seq b err hold
  · obtain rfl := List.mem_singleton.mp hnew
    cases ha

/-- The reasons for which a run returns an error: a chunk failed, the consumer did, or more was held
back than a strict budget allows. -/
inductive Reason (job : Job β ε) (log : List (Action β ε)) (err : ε) : Prop
  | chunk (seq : Nat) (h : Action.parsed seq (.error err) ∈ log)
  | consumer (seq : Nat) (b : β) (h : Action.consumed seq b (some err) ∈ log)
  | memory (bytes : Nat) (hordered : job.ordered = true) (hstrict : job.strict = true)
      (hlimit : job.reorderLimit < bytes) (h : err = job.memory bytes job.reorderLimit)

/-- A reason stays one: it is an event of the log or a bound on the batches held back. -/
theorem Reason.append {err : ε} (h : Reason job log err) (a : Action β ε) :
    Reason job (log ++ [a]) err := by
  cases h with
  | chunk seq h => exact .chunk seq (List.mem_append_left _ h)
  | consumer seq b h => exact .consumer seq b (List.mem_append_left _ h)
  | memory bytes hordered hstrict hlimit h => exact .memory bytes hordered hstrict hlimit h

/-! ## The invariant -/

/-- The chunk a worker has still to parse. -/
def Worker.unparsed : Worker β ε → Multiset Nat
  | .waiting seq | .parsing seq => {seq}
  | .idle | .sending _ _ | .stopped => 0

/-- The chunk the coordinator is delivering. -/
def Stage.held : Stage β ε → Multiset Nat
  | .delivering seq _ => {seq}
  | .receiving | .draining | .ended _ | .joining _ | .returned _ => 0

/-- What the coordinator returns, once it has left its loop. -/
def Stage.result : Stage β ε → Option (Except ε Unit)
  | .ended result | .joining result | .returned result => some result
  | .receiving | .delivering _ _ | .draining => none

namespace Executor

variable {s : Executor job}

/-- Where the chunks are. -/
def places (log : List (Action β ε)) (s : Executor job) : Multiset Nat :=
  ↑s.queue + (∑ w, (s.workers w).held) + ↑(s.channel.map Prod.fst) + ↑s.pending.keys +
    s.stage.held + ↑(calledSeqs log)

/-- A chunk past the dispatch window that the consumer has not been given. -/
def Admitted (s : Executor job) (seq : Nat) : Prop :=
  (∃ w, (s.workers w).admitted = some seq) ∨ seq ∈ s.channel.map Prod.fst ∨ seq ∈ s.pending.keys

/-- The window of an ordered run starts at the published sequence number. -/
structure Within (s : Executor job) (next : Nat) : Prop where
  le : next ≤ s.nextSeq
  receiving : s.stage = .receiving → next = s.nextSeq ∧ s.nextSeq ∉ s.pending.keys
  draining : s.stage = .draining → next < s.nextSeq
  near : ∀ seq, s.Admitted seq → seq ≤ next + job.maxReorder

/-- What the log says of the chunks in every state. -/
structure Sound (log : List (Action β ε)) (s : Executor job) : Prop where
  /-- No chunk is parsed twice. -/
  once : ↑(parsedSeqs log) + ↑s.queue + (∑ w, (s.workers w).unparsed) ≤
    Multiset.range job.numChunks
  batch : ∀ seq b, Action.parsed seq (.ok b) ∈ log → b = job.batch seq
  sending : ∀ w seq result, s.workers w = .sending seq result → Action.parsed seq result ∈ log
  /-- The consumer is called with parsed chunks, and no more after a failure. -/
  called : ∀ seq b failure, Action.consumed seq b failure ∈ log → Action.parsed seq (.ok b) ∈ log
  last : ∀ before seq b err after, log = before ++ .consumed seq b (some err) :: after →
    calledSeqs after = []

/-- The invariant while the coordinator is in its loop. -/
structure Flow (log : List (Action β ε)) (s : Executor job) : Prop where
  /-- Every chunk is in exactly one place. -/
  places : s.places log = Multiset.range job.numChunks
  /-- The queue holds the chunks that come last. -/
  queue : ∃ k, s.queue = ((List.range job.numChunks).drop k).reverse
  ordered : job.ordered = true → calledSeqs log = List.range s.nextSeq
  turn : job.ordered = true → ∀ seq b, s.stage = .delivering seq b → seq = s.nextSeq
  window : job.ordered = true → ∃ next, s.dispatch = some next ∧ s.Within next
  unordered : job.ordered = false → s.pending.keys = []
  /-- The results are those of their chunks. -/
  sent : ∀ p ∈ s.channel, Action.parsed p.1 p.2 ∈ log
  heldBack : ∀ seq b, s.pending.lookup seq = some b → Action.parsed seq (.ok b) ∈ log
  delivering : ∀ seq b, s.stage = .delivering seq b → Action.parsed seq (.ok b) ∈ log
  unrefused : Unrefused log
  /-- The coordinator will receive every failure. -/
  failures : ∀ seq err, Action.parsed seq (.error err) ∈ log →
    (∃ w, s.workers w = .sending seq (.error err)) ∨ (seq, .error err) ∈ s.channel
  stopped : ∀ w, s.workers w = .stopped →
    s.queue = [] ∨ ∃ seq err, (seq, Except.error err) ∈ s.channel

/-- What holds once the coordinator has left its loop. -/
structure Settled (log : List (Action β ε)) (s : Executor job) (result : Except ε Unit) : Prop where
  ordered : job.ordered = true → calledSeqs log = List.range (calledSeqs log).length
  nodup : (calledSeqs log).Nodup
  pending : s.pending.keys.length ≤ job.maxReorder
  ok : result = .ok () → (calledSeqs log).Perm (List.range job.numChunks) ∧ Unrefused log ∧
    (∀ seq err, Action.parsed seq (.error err) ∉ log) ∧ ∀ w, s.workers w = .stopped
  error : ∀ err, result = .error err → Reason job log err

/-- The invariant of a run. -/
structure Inv (log : List (Action β ε)) (s : Executor job) : Prop where
  sound : s.Sound log
  flow : s.stage.live = true → s.Flow log
  settled : ∀ result, s.stage.result = some result → s.Settled log result
  /-- The guard is dropped before the workers are joined. -/
  released : ∀ result, s.stage = .joining result → s.dispatch = none

/-- While the receiver is alive, the invariant is soundness and the flow of the chunks. -/
theorem Inv.of_flow (hsound : s.Sound log) (hlive : s.stage.live = true) (hflow : s.Flow log) :
    s.Inv log := by
  refine ⟨hsound, fun _ => hflow, fun result hresult => ?_, fun result hs => ?_⟩
  · cases hs : s.stage <;> simp [hs, Stage.live, Stage.result] at hlive hresult
  · rw [hs] at hlive
    cases hlive

/-- Once the loop has ended, the invariant is soundness and what is settled for the result. -/
theorem Inv.of_ended {result : Except ε Unit} (hsound : s.Sound log)
    (hended : s.stage = .ended result) (hsettled : s.Settled log result) : s.Inv log := by
  refine ⟨hsound, fun hlive => ?_, fun result' hresult => ?_, fun result' hs => ?_⟩
  · rw [hended] at hlive
    cases hlive
  · rw [hended] at hresult
    obtain rfl := Option.some.inj hresult
    exact hsettled
  · rw [hended] at hs
    cases hs

/-! ## The start -/

/-- No worker holds a chunk at the start. -/
theorem sum_initial (f : Worker β ε → Multiset Nat) (hf : f .idle = 0) :
    ∑ w, f ((initial job).workers w) = 0 :=
  Finset.sum_eq_zero fun _ _ => hf

/-- At the start the queue holds every chunk once. -/
theorem queue_initial : ((initial job).queue : Multiset Nat) = Multiset.range job.numChunks := by
  show (((List.range job.numChunks).reverse : List Nat) : Multiset Nat) = _
  rw [Multiset.coe_reverse, Multiset.coe_range]

/-- At the start every chunk is in the queue, and nothing has been given to the consumer. -/
theorem flow_initial (job : Job β ε) : (initial job).Flow [] where
  places := by
    rw [places, sum_initial _ rfl, queue_initial]
    simp [initial, calledSeqs, Stage.held]
  queue := ⟨0, rfl⟩
  ordered _ := rfl
  turn _ seq b h := by cases h
  window _ := by
    refine ⟨0, rfl, le_rfl, fun _ => ⟨rfl, List.not_mem_nil⟩, ?_, fun seq h => ?_⟩
    · intro h
      cases h
    · rcases h with ⟨w, h⟩ | h | h <;> cases h
  unordered _ := rfl
  sent p h := by cases h
  heldBack seq b h := by cases h
  delivering seq b h := by cases h
  unrefused seq b err h := by cases h
  failures seq err h := by cases h
  stopped w h := by cases h

/-- The invariant holds at the start: every chunk is in the queue and the log is empty. -/
theorem inv_initial (job : Job β ε) : (initial job).Inv [] where
  sound := {
    once := by
      rw [sum_initial _ rfl, queue_initial]
      simp [parsedSeqs]
    batch := by simp
    sending := by simp [initial]
    called := by simp
    last := by simp }
  flow _ := flow_initial job
  settled result h := by cases h
  released result h := by cases h

/-! ## Steps of the workers -/

/-- A step without a call after a failure, or a call before any, keeps the failure the last call. -/
theorem last_append
    (h : ∀ before seq b err after, log = before ++ .consumed seq b (some err) :: after →
      calledSeqs after = [])
    (ha : a.calledSeq = none ∨ Unrefused log) (before : List (Action β ε)) (seq : Nat) (b : β) (err : ε)
    (after : List (Action β ε))
    (heq : log ++ [a] = before ++ .consumed seq b (some err) :: after) : calledSeqs after = [] := by
  rcases after.eq_nil_or_concat with rfl | ⟨after', c, rfl⟩
  · rfl
  · rw [List.concat_eq_append, ← List.cons_append, ← List.append_assoc] at heq
    obtain ⟨hlog, hlast⟩ := List.append_inj' heq rfl
    obtain rfl := List.singleton_injective hlast
    rw [List.concat_eq_append, calledSeqs_append, h before seq b err after' hlog]
    rcases ha with hnone | hun
    · rw [hnone]
      rfl
    · refine absurd ?_ (hun seq b err)
      rw [hlog]
      exact List.mem_append_right _ List.mem_cons_self

/-- A worker's step keeps what the log says. The step may parse a chunk, which is then in the log
once, because the worker held it and no other place did. -/
theorem Sound.setWorker (h : s.Sound log) (w : Fin job.workers) {x : Worker β ε} (queue : List Nat)
    (channel : List (Nat × Except ε β)) (ha : a.calledSeq = none)
    (honce : (a.parsedSeq.toList : Multiset Nat) + ↑queue + x.unparsed ≤
      ↑s.queue + (s.workers w).unparsed)
    (hbatch : ∀ seq b, a = .parsed seq (.ok b) → b = job.batch seq)
    (hsending : ∀ seq result, x = .sending seq result → .parsed seq result ∈ log ++ [a]) :
    ({ s with queue := queue, channel := channel }.setWorker w x).Sound (log ++ [a]) where
  -- what is parsed, queued or held by the worker is only moved
  once := by
    have hsum := sum_update_add Worker.unparsed s.workers w x
    refine le_trans (le_of_add_le_add_right (a := (s.workers w).unparsed) ?_) h.once
    show ↑(parsedSeqs (log ++ [a])) + ↑queue +
        (∑ v, (Function.update s.workers w x v).unparsed) + _ ≤ _
    calc ↑(parsedSeqs (log ++ [a])) + (queue : Multiset Nat) +
          (∑ v, (Function.update s.workers w x v).unparsed) + (s.workers w).unparsed
        = ↑(parsedSeqs (log ++ [a])) + ↑queue + ((∑ v, (s.workers v).unparsed) + x.unparsed) := by
          rw [← hsum, add_assoc]
      _ = ↑(parsedSeqs log) + (∑ v, (s.workers v).unparsed) +
          (↑a.parsedSeq.toList + ↑queue + x.unparsed) := by
          rw [parsedSeqs_append, ← Multiset.coe_add]
          abel
      _ ≤ ↑(parsedSeqs log) + (∑ v, (s.workers v).unparsed) +
          (↑s.queue + (s.workers w).unparsed) := by gcongr
      _ = ↑(parsedSeqs log) + ↑s.queue + (∑ v, (s.workers v).unparsed) +
          (s.workers w).unparsed := by abel
  batch seq b hmem := by
    rcases List.mem_append.mp hmem with hold | hnew
    · exact h.batch seq b hold
    · exact hbatch seq b (List.mem_singleton.mp hnew).symm
  sending v seq result hv := by
    -- only the worker `w` is in another state than before
    by_cases hvw : v = w
    · subst hvw
      exact hsending seq result (by simpa [Executor.setWorker] using hv)
    · refine List.mem_append_left _ (h.sending v seq result ?_)
      simpa [Executor.setWorker, Function.update_of_ne hvw] using hv
  called seq b failure hmem := by
    rcases List.mem_append.mp hmem with hold | hnew
    · exact List.mem_append_left _ (h.called seq b failure hold)
    · obtain rfl := List.mem_singleton.mp hnew
      cases ha
  last := last_append h.last (.inl ha)

/-- A worker's step that keeps its chunk where the chunks are counted keeps the invariant. The
chunks are counted as a multiset over the queue, the workers, the channel, the reorder buffer and
the calls made; a worker that goes on moves its chunk from one state to the next. -/
theorem Flow.setWorker (h : s.Flow log) (w : Fin job.workers) {x : Worker β ε} {queue : List Nat}
    {channel : List (Nat × Except ε β)} (ha : a.calledSeq = none)
    (hplaces : (queue : Multiset Nat) + x.held + ↑(channel.map Prod.fst) =
      ↑s.queue + (s.workers w).held + ↑(s.channel.map Prod.fst))
    (hqueue : queue = s.queue ∨ queue = s.queue.dropLast)
    (hnear : job.ordered = true → ∀ next, s.dispatch = some next → s.Within next →
      ∀ seq, x.admitted = some seq ∨ seq ∈ channel.map Prod.fst → seq ≤ next + job.maxReorder)
    (hsent : ∀ p ∈ channel, .parsed p.1 p.2 ∈ log ++ [a])
    (hsend : ∀ seq err, s.workers w = .sending seq (.error err) → (seq, .error err) ∈ channel)
    (hfail : ∀ seq err, a = .parsed seq (.error err) → x = .sending seq (.error err))
    (herror : ∀ p ∈ s.channel, p ∈ channel)
    (hstopped : x = .stopped → queue = [] ∨ ∃ seq err, (seq, Except.error err) ∈ channel) :
    ({ s with queue := queue, channel := channel }.setWorker w x).Flow (log ++ [a]) where
  -- a chunk is in one place at a time, and the step only moves those of the worker
  places := by
    have hsum := sum_update_add Worker.held s.workers w x
    rw [← h.places]
    refine add_right_cancel (b := (s.workers w).held) ?_
    rw [Executor.places, Executor.places, calledSeqs_append, ha]
    simp only [Executor.setWorker, Option.toList_none, List.append_nil]
    calc ↑queue + (∑ v, (Function.update s.workers w x v).held) + ↑(channel.map Prod.fst) +
            (s.pending.keys : Multiset Nat) + s.stage.held + ↑(calledSeqs log) + (s.workers w).held
          = ↑queue + ((∑ v, (Function.update s.workers w x v).held) + (s.workers w).held) +
            ↑(channel.map Prod.fst) + ↑s.pending.keys + s.stage.held + ↑(calledSeqs log) := by abel
        _ = (↑queue + x.held + ↑(channel.map Prod.fst)) + (∑ v, (s.workers v).held) +
            ↑s.pending.keys + s.stage.held + ↑(calledSeqs log) := by rw [hsum]; abel
        _ = ↑s.queue + (∑ v, (s.workers v).held) + ↑(s.channel.map Prod.fst) + ↑s.pending.keys +
            s.stage.held + ↑(calledSeqs log) + (s.workers w).held := by rw [hplaces]; abel
  queue := by
    obtain ⟨k, hk⟩ := h.queue
    rcases hqueue with rfl | rfl
    · exact ⟨k, hk⟩
    · exact ⟨k + 1, by rw [← List.tail_drop, ← List.dropLast_reverse, ← hk]; rfl⟩
  ordered hord := by
    rw [calledSeqs_append, ha]
    simpa [Executor.setWorker] using h.ordered hord
  turn := h.turn
  window hord := by
    -- the window stands still, and what the worker holds lies in it
    obtain ⟨next, hnext, hwin⟩ := h.window hord
    refine ⟨next, hnext, hwin.le, hwin.receiving, hwin.draining, fun seq hseq => ?_⟩
    rcases hseq with ⟨v, hv⟩ | hchannel | hpending
    · by_cases hvw : v = w
      · subst hvw
        exact hnear hord next hnext hwin seq (.inl (by simpa [Executor.setWorker] using hv))
      · refine hwin.near seq (.inl ⟨v, ?_⟩)
        simpa [Executor.setWorker, Function.update_of_ne hvw] using hv
    · exact hnear hord next hnext hwin seq (.inr hchannel)
    · exact hwin.near seq (.inr (.inr hpending))
  unordered := h.unordered
  sent := hsent
  heldBack seq b hb := List.mem_append_left _ (h.heldBack seq b hb)
  delivering seq b hb := List.mem_append_left _ (h.delivering seq b hb)
  unrefused := h.unrefused.append ha
  -- a failure is with its worker until it is sent
  failures seq err hmem := by
    rcases List.mem_append.mp hmem with hold | hnew
    · rcases h.failures seq err hold with ⟨v, hv⟩ | hchannel
      · by_cases hvw : v = w
        · subst hvw
          exact .inr (hsend seq err hv)
        · refine .inl ⟨v, ?_⟩
          simpa [Executor.setWorker, Function.update_of_ne hvw] using hv
      · exact .inr (herror _ hchannel)
    · refine .inl ⟨w, ?_⟩
      simpa [Executor.setWorker] using hfail seq err (List.mem_singleton.mp hnew).symm
  stopped v hv := by
    by_cases hvw : v = w
    · subst hvw
      exact hstopped (by simpa [Executor.setWorker] using hv)
    · rcases h.stopped v (by simpa [Executor.setWorker, Function.update_of_ne hvw] using hv) with
        hempty | ⟨seq, err, hmem⟩
      · refine .inl ?_
        rcases hqueue with rfl | rfl
        · exact hempty
        · show s.queue.dropLast = []
          rw [hempty]
          rfl
      · exact .inr ⟨seq, err, herror _ hmem⟩

/-- A worker's step after the coordinator has left its loop with an error. -/
theorem Settled.worker {s' : Executor job} {result : Except ε Unit} (h : s.Settled log result)
    (ha : a.calledSeq = none) (w : Fin job.workers) (hbusy : s.workers w ≠ .stopped)
    (hpending : s'.pending = s.pending) : s'.Settled (log ++ [a]) result where
  ordered := by
    rw [calledSeqs_append, ha, Option.toList_none, List.append_nil]
    exact h.ordered
  nodup := by
    rw [calledSeqs_append, ha, Option.toList_none, List.append_nil]
    exact h.nodup
  pending := hpending ▸ h.pending
  ok hok := absurd ((h.ok hok).2.2.2 w) hbusy
  error err herr := (h.error err herr).append a

/-- What a worker's step has to keep. -/
theorem Inv.worker (h : s.Inv log) (w : Fin job.workers) {x : Worker β ε} (queue : List Nat)
    (channel : List (Nat × Except ε β)) (hbusy : s.workers w ≠ .stopped) (ha : a.calledSeq = none)
    (honce : (a.parsedSeq.toList : Multiset Nat) + ↑queue + x.unparsed ≤
      ↑s.queue + (s.workers w).unparsed)
    (hbatch : ∀ seq b, a = .parsed seq (.ok b) → b = job.batch seq)
    (hsending : ∀ seq result, x = .sending seq result → .parsed seq result ∈ log ++ [a])
    (hflow : s.Flow log →
      ({ s with queue := queue, channel := channel }.setWorker w x).Flow (log ++ [a])) :
    ({ s with queue := queue, channel := channel }.setWorker w x).Inv (log ++ [a]) where
  sound := h.sound.setWorker w queue channel ha honce hbatch hsending
  flow hlive := hflow (h.flow hlive)
  settled result hresult := (h.settled result hresult).worker ha w hbusy rfl
  released := h.released

/-- Popping takes the last chunk of the queue. It is in the hands of the worker from then on, which
waits to be let in with it. -/
theorem Inv.pop (h : s.Inv log) {w : Fin job.workers} {seq : Nat} (hidle : s.workers w = .idle)
    (hpop : s.queue.getLast? = some seq) :
    ({ s with queue := s.queue.dropLast }.setWorker w (.waiting seq)).Inv (log ++ [Action.internal]) := by
  have hqueue : (s.queue : Multiset Nat) = ↑s.queue.dropLast + {seq} := by
    conv_lhs => rw [← List.dropLast_append_getLast? seq hpop]
    rw [← Multiset.coe_add]
    rfl
  refine h.worker w s.queue.dropLast s.channel (by rw [hidle]; simp) rfl ?_ (fun _ _ hx => by cases hx)
    (fun _ _ hx => by cases hx) fun hflow => ?_
  · rw [hidle, hqueue]
    simp [Action.parsedSeq, Worker.unparsed]
  · refine hflow.setWorker w rfl ?_ (.inr rfl) (fun _ next _ hwin seq' hseq => ?_)
      (fun p hp => List.mem_append_left _ (hflow.sent p hp)) (fun _ _ hx => by rw [hidle] at hx; cases hx)
      (fun _ _ hx => by cases hx) (fun _ => id) (fun hx => by cases hx)
    · rw [hidle, hqueue, Worker.held, Worker.held, add_zero]
    · rcases hseq with hx | hx
      · cases hx
      · exact hwin.near seq' (.inr (.inl hx))

/-- A worker that finds the queue empty stops, with no chunk in its hands. -/
theorem Inv.quit (h : s.Inv log) {w : Fin job.workers} (hidle : s.workers w = .idle)
    (hempty : s.queue = []) : (s.setWorker w .stopped).Inv (log ++ [Action.internal]) := by
  refine h.worker w s.queue s.channel (by rw [hidle]; simp) rfl ?_ (fun _ _ hx => by cases hx)
    (fun _ _ hx => by cases hx) fun hflow => ?_
  · rw [hidle]
    simp [Action.parsedSeq, Worker.unparsed]
  · refine hflow.setWorker w rfl ?_ (.inl rfl) (fun _ next _ hwin seq' hseq => ?_)
      (fun p hp => List.mem_append_left _ (hflow.sent p hp)) (fun _ _ hx => by rw [hidle] at hx; cases hx)
      (fun _ _ hx => by cases hx) (fun _ => id) (fun _ => .inl hempty)
    · rw [hidle]
      rfl
    · rcases hseq with hx | hx
      · cases hx
      · exact hwin.near seq' (.inr (.inl hx))

/-- An admitted chunk is close to the published sequence number. -/
theorem Inv.enter (h : s.Inv log) {w : Fin job.workers} {seq : Nat}
    (hwaiting : s.workers w = .waiting seq)
    (hopen : job.ordered = true → ∃ next, s.dispatch = some next ∧ job.withholds next seq = false) :
    (s.setWorker w (.parsing seq)).Inv (log ++ [Action.internal]) := by
  refine h.worker w s.queue s.channel (by rw [hwaiting]; simp) rfl ?_ (fun _ _ hx => by cases hx)
    (fun _ _ hx => by cases hx) fun hflow => ?_
  · rw [hwaiting]
    simp [Action.parsedSeq, Worker.unparsed]
  · refine hflow.setWorker w rfl ?_ (.inl rfl) (fun hord next hnext hwin seq' hseq => ?_)
      (fun p hp => List.mem_append_left _ (hflow.sent p hp))
      (fun _ _ hx => by rw [hwaiting] at hx; cases hx) (fun _ _ hx => by cases hx) (fun _ => id)
      (fun hx => by cases hx)
    · rw [hwaiting]
      rfl
    · rcases hseq with hx | hx
      · obtain rfl := Option.some.inj hx
        obtain ⟨next', hnext', hclose⟩ := hopen hord
        obtain rfl := Option.some.inj (hnext.symm.trans hnext')
        rw [Job.withholds, hord, Bool.true_and, decide_eq_false_iff_not] at hclose
        simp only [saturatingAdd, Job.dispatchWindow] at hclose
        omega
      · exact hwin.near seq' (.inr (.inl hx))

/-- The guard is only dropped after the loop. A worker that still waits then finds no number
published and stops without parsing its chunk. -/
theorem Inv.withdraw (h : s.Inv log) {w : Fin job.workers} {seq : Nat}
    (hwaiting : s.workers w = .waiting seq) (hordered : job.ordered = true)
    (hnone : s.dispatch = none) : (s.setWorker w .stopped).Inv (log ++ [Action.internal]) := by
  refine h.worker w s.queue s.channel (by rw [hwaiting]; simp) rfl ?_ (fun _ _ hx => by cases hx)
    (fun _ _ hx => by cases hx) fun hflow => ?_
  · rw [hwaiting]
    simp [Action.parsedSeq, Worker.unparsed]
  · obtain ⟨next, hnext, -⟩ := hflow.window hordered
    rw [hnone] at hnext
    cases hnext

/-- A parsed chunk is at the channel with its own batch, or an error. -/
theorem Inv.parse (h : s.Inv log) {w : Fin job.workers} {seq : Nat} {result : Except ε β}
    (hparsing : s.workers w = .parsing seq) (hresult : ∀ b, result = .ok b → b = job.batch seq) :
    (s.setWorker w (.sending seq result)).Inv (log ++ [.parsed seq result]) := by
  refine h.worker w s.queue s.channel (by rw [hparsing]; simp) rfl ?_ (fun seq' b hx => ?_)
    (fun seq' result' hx => ?_) fun hflow => ?_
  · rw [hparsing]
    simp [Action.parsedSeq, Worker.unparsed, add_comm]
  · obtain ⟨rfl, rfl⟩ := Action.parsed.inj hx
    exact hresult b rfl
  · obtain ⟨rfl, rfl⟩ := Worker.sending.inj hx
    exact List.mem_append_right _ (List.mem_singleton_self _)
  · refine hflow.setWorker w rfl ?_ (.inl rfl) (fun hord next hnext hwin seq' hseq => ?_)
      (fun p hp => List.mem_append_left _ (hflow.sent p hp))
      (fun _ _ hx => by rw [hparsing] at hx; cases hx) (fun seq' err hx => ?_) (fun _ => id)
      (fun hx => by cases hx)
    · rw [hparsing]
      rfl
    · rcases hseq with hx | hx
      · exact hwin.near seq' (.inl ⟨w, by rw [hparsing]; exact hx⟩)
      · exact hwin.near seq' (.inr (.inl hx))
    · obtain ⟨rfl, rfl⟩ := Action.parsed.inj hx
      rfl

/-- A sent result moves from its worker to the channel. The worker is free again, or has stopped if
the result was an error. -/
theorem Inv.send (h : s.Inv log) {w : Fin job.workers} {seq : Nat} {result : Except ε β}
    (hsending : s.workers w = .sending seq result) :
    ({ s with channel := s.channel ++ [(seq, result)] }.setWorker w (afterSend result)).Inv
      (log ++ [Action.internal]) := by
  -- the worker holds nothing after the send, whatever the result was
  have hafter : (afterSend result).held = 0 ∧ (afterSend result).unparsed = 0 ∧
      (afterSend result).admitted = none := by
    cases result <;> exact ⟨rfl, rfl, rfl⟩
  refine h.worker w s.queue (s.channel ++ [(seq, result)]) (by rw [hsending]; simp) rfl ?_
    (fun _ _ hx => by cases hx) (fun _ _ hx => by cases result <;> cases hx) fun hflow => ?_
  · rw [hsending, hafter.2.1]
    simp [Action.parsedSeq, Worker.unparsed]
  · refine hflow.setWorker w rfl ?_ (.inl rfl) (fun hord next hnext hwin seq' hseq => ?_)
      (fun p hp => ?_) (fun seq' err hx => ?_) (fun _ _ hx => by cases hx)
      (fun p hp => List.mem_append_left _ hp) (fun hx => ?_)
    · rw [hsending, hafter.1, List.map_append, ← Multiset.coe_add, Worker.held, add_zero, add_assoc,
        add_comm ({seq} : Multiset Nat)]
      rfl
    · rw [hafter.2.2, List.map_append, List.mem_append] at hseq
      rcases hseq with hx | hx | hx
      · cases hx
      · exact hwin.near seq' (.inr (.inl hx))
      · obtain rfl := List.mem_singleton.mp hx
        exact hwin.near _ (.inl ⟨w, by rw [hsending]; rfl⟩)
    · refine List.mem_append_left _ ?_
      rcases List.mem_append.mp hp with hp | hp
      · exact hflow.sent p hp
      · obtain rfl := List.mem_singleton.mp hp
        exact h.sound.sending w seq result hsending
    · obtain ⟨rfl, rfl⟩ := Worker.sending.inj (hsending.symm.trans hx)
      exact List.mem_append_right _ (List.mem_singleton_self _)
    · cases result with
      | ok b => cases hx
      | error err => exact .inr ⟨seq, err, List.mem_append_right _ (List.mem_singleton_self _)⟩

/-- A worker that finds the receiver dropped. It stops and its result is lost, which happens only
when the coordinator has left its loop. -/
theorem Inv.disconnected (h : s.Inv log) {w : Fin job.workers} {seq : Nat} {result : Except ε β}
    (hsending : s.workers w = .sending seq result) (hdead : s.stage.live = false) :
    (s.setWorker w .stopped).Inv (log ++ [Action.internal]) where
  sound := by
    refine h.sound.setWorker w s.queue s.channel rfl ?_ (fun _ _ hx => by cases hx)
      (fun _ _ hx => by cases hx)
    rw [hsending]
    simp [Action.parsedSeq, Worker.unparsed]
  flow hlive := absurd (hdead.symm.trans hlive) Bool.false_ne_true
  settled result' hresult := (h.settled result' hresult).worker rfl w (by rw [hsending]; simp) rfl
  released := h.released

/-! ## Steps of the coordinator -/

/-- A step of the coordinator keeps what the log says of the chunks. -/
theorem Sound.coordinate {s' : Executor job} (h : s.Sound log) (hqueue : s'.queue = s.queue)
    (hworkers : s'.workers = s.workers) (ha : a.parsedSeq = none)
    (hcalled : ∀ seq b failure, a = .consumed seq b failure →
      Action.parsed seq (.ok b) ∈ log ∧ Unrefused log) : s'.Sound (log ++ [a]) where
  once := by
    rw [parsedSeqs_append, ha, Option.toList_none, List.append_nil, hqueue, hworkers]
    exact h.once
  batch seq b hmem := by
    rcases List.mem_append.mp hmem with hold | hnew
    · exact h.batch seq b hold
    · obtain rfl := List.mem_singleton.mp hnew
      cases ha
  sending w seq result hw := List.mem_append_left _ (h.sending w seq result (hworkers ▸ hw))
  called seq b failure hmem := by
    rcases List.mem_append.mp hmem with hold | hnew
    · exact List.mem_append_left _ (h.called seq b failure hold)
    · exact List.mem_append_left _ (hcalled seq b failure (List.mem_singleton.mp hnew).symm).1
  last := by
    refine last_append h.last ?_
    cases a with
    | internal => exact .inl rfl
    | parsed seq result => exact .inl rfl
    | consumed seq b failure => exact .inr (hcalled seq b failure rfl).2

/-- A failure is logged as it was when the coordinator does not parse. -/
theorem parsed_of_append {seq : Nat} {result : Except ε β} (ha : a.parsedSeq = none)
    (h : Action.parsed seq result ∈ log ++ [a]) : Action.parsed seq result ∈ log := by
  rcases List.mem_append.mp h with hold | hnew
  · exact hold
  · obtain rfl := List.mem_singleton.mp hnew
    cases ha

namespace Flow

/-- The chunks with the consumer, and those the coordinator holds, are different. -/
theorem nodup (h : s.Flow log) : (s.places log).Nodup := by
  rw [h.places]
  exact Multiset.nodup_range _

/-- The consumer is called at most once for a chunk, since each chunk is in one place. -/
theorem nodup_called (h : s.Flow log) : (calledSeqs log).Nodup :=
  Multiset.coe_nodup.mp (Multiset.nodup_add.mp h.nodup).2.1

/-- A chunk in the hands of the executor is not with the consumer. -/
theorem notMem_called (h : s.Flow log) {seq : Nat}
    (hseq : seq ∈ s.channel.map Prod.fst ∨ seq ∈ s.pending.keys ∨ seq ∈ s.stage.held) :
    seq ∉ calledSeqs log := by
  refine fun hcalled => Multiset.disjoint_left.mp (Multiset.nodup_add.mp h.nodup).2.2 ?_
    (Multiset.mem_coe.mpr hcalled)
  simp only [Multiset.mem_add, Multiset.mem_coe]
  tauto

/-- A received chunk is not held back already. -/
theorem notMem_pending (h : s.Flow log) {seq : Nat} (hseq : seq ∈ s.channel.map Prod.fst) :
    seq ∉ s.pending.keys := by
  have hnodup := (Multiset.nodup_add.mp (Multiset.nodup_add.mp h.nodup).1).1
  refine fun hpending => Multiset.disjoint_left.mp (Multiset.nodup_add.mp hnodup).2.2 ?_
    (Multiset.mem_coe.mpr hpending)
  exact Multiset.mem_add.mpr (.inr (Multiset.mem_coe.mpr hseq))

/-- Nor is a chunk that is being delivered. -/
theorem held_notMem_pending (h : s.Flow log) {seq : Nat} (hseq : seq ∈ s.stage.held) :
    seq ∉ s.pending.keys := by
  have hnodup := (Multiset.nodup_add.mp h.nodup).1
  refine fun hpending => Multiset.disjoint_left.mp (Multiset.nodup_add.mp hnodup).2.2 ?_ hseq
  exact Multiset.mem_add.mpr (.inr (Multiset.mem_coe.mpr hpending))

/-- The chunks before the next one are with the consumer. -/
theorem le_of_mem (h : s.Flow log) (hord : job.ordered = true) {seq : Nat}
    (hseq : seq ∉ calledSeqs log) : s.nextSeq ≤ seq := by
  rw [h.ordered hord, List.mem_range, not_lt] at hseq
  exact hseq

/-- No more batches are held back than the reorder bound allows. -/
theorem pending_le (h : s.Flow log) (hstage : s.stage.live = true) :
    s.pending.keys.length ≤ job.maxReorder := by
  cases hord : job.ordered with
  | false =>
      rw [h.unordered hord]
      exact Nat.zero_le _
  | true =>
      obtain ⟨next, -, hwin⟩ := h.window hord
      have hsub : s.pending.keys.toFinset ⊆ Finset.Ioc next (next + job.maxReorder) := by
        intro seq hseq
        rw [List.mem_toFinset] at hseq
        have hlow := h.le_of_mem hord (h.notMem_called (.inr (.inl hseq)))
        refine Finset.mem_Ioc.mpr ⟨?_, hwin.near seq (.inr (.inr hseq))⟩
        have hle := hwin.le
        -- the chunk that is next in turn is not held back, unless the window is behind it
        cases hs : s.stage with
        | receiving =>
            have hne : seq ≠ s.nextSeq := fun heq => (hwin.receiving hs).2 (heq ▸ hseq)
            omega
        | delivering n b =>
            have hturn := h.turn hord n b hs
            have hne : seq ≠ n := by
              rintro rfl
              refine h.held_notMem_pending ?_ hseq
              rw [hs]
              exact Multiset.mem_singleton_self _
            omega
        | draining =>
            have hlt := hwin.draining hs
            omega
        | ended result => rw [hs] at hstage; cases hstage
        | joining result => rw [hs] at hstage; cases hstage
        | returned result => rw [hs] at hstage; cases hstage
      have hcard := Finset.card_le_card hsub
      rwa [List.toFinset_card_of_nodup s.pending.keys_nodup, Nat.card_Ioc,
        Nat.add_sub_cancel_left] at hcard

/-- The coordinator leaves its loop with an error. -/
theorem settled_error {s' : Executor job} (h : s.Flow log) (hlive : s.stage.live = true)
    {err : ε} (hreason : Reason job (log ++ [a]) err) (hpending : s'.pending = s.pending)
    (hcalled : (job.ordered = true →
        calledSeqs (log ++ [a]) = List.range (calledSeqs (log ++ [a])).length) ∧
      (calledSeqs (log ++ [a])).Nodup) : s'.Settled (log ++ [a]) (.error err) where
  ordered := hcalled.1
  nodup := hcalled.2
  pending := hpending ▸ h.pending_le hlive
  ok hok := by cases hok
  error err' herr := by
    obtain rfl := Except.error.inj herr
    exact hreason

/-- The calls of an ordered run come in order. -/
theorem called_of_internal (h : s.Flow log) :
    (job.ordered = true → calledSeqs (log ++ [Action.internal (β := β) (ε := ε)]) =
      List.range (calledSeqs (log ++ [Action.internal (β := β) (ε := ε)])).length) ∧
      (calledSeqs (log ++ [Action.internal (β := β) (ε := ε)])).Nodup := by
  have hsame : calledSeqs (log ++ [.internal]) = calledSeqs log := by
    rw [calledSeqs_append]
    exact List.append_nil _
  rw [hsame]
  exact ⟨fun hord => by rw [h.ordered hord, List.length_range], h.nodup_called⟩

end Flow

namespace Flow

variable {seq : Nat} {b : β} {rest : List (Nat × Except ε β)}

/-- What the coordinator has not received yet, after a batch. -/
theorem mem_rest (hchannel : s.channel = (seq, .ok b) :: rest) {n : Nat} {err : ε}
    (h : (n, Except.error err) ∈ s.channel) : (n, Except.error err) ∈ rest := by
  rw [hchannel, List.mem_cons] at h
  rcases h with heq | hrest
  · cases heq
  · exact hrest

/-- What was admitted to the window is so after a result has been received. -/
theorem admitted_rest (hchannel : s.channel = (seq, .ok b) :: rest) {n : Nat}
    (h : n ∈ rest.map Prod.fst) : n ∈ s.channel.map Prod.fst := by
  rw [hchannel]
  exact List.mem_cons_of_mem _ h

/-- The failures are still to come after a batch was received. -/
theorem failures_rest {s' : Executor job} (h : s.Flow log)
    (hchannel : s.channel = (seq, .ok b) :: rest) (hworkers : s'.workers = s.workers)
    (hrest : s'.channel = rest) (n : Nat) (err : ε)
    (hmem : Action.parsed n (.error err) ∈ log ++ [.internal]) :
    (∃ w, s'.workers w = .sending n (.error err)) ∨ (n, .error err) ∈ s'.channel := by
  rw [hworkers, hrest]
  exact (h.failures n err (parsed_of_append rfl hmem)).imp_right (mem_rest hchannel)

/-- After a batch was received, a worker that has stopped has found the queue empty, or its error is
still in the channel. -/
theorem stopped_rest {s' : Executor job} (h : s.Flow log)
    (hchannel : s.channel = (seq, .ok b) :: rest) (hworkers : s'.workers = s.workers)
    (hqueue : s'.queue = s.queue) (hrest : s'.channel = rest) (w : Fin job.workers)
    (hw : s'.workers w = .stopped) :
    s'.queue = [] ∨ ∃ n err, (n, Except.error err) ∈ s'.channel := by
  rw [hqueue, hrest]
  refine (h.stopped w (hworkers ▸ hw)).imp_right ?_
  rintro ⟨n, err, hmem⟩
  exact ⟨n, err, mem_rest hchannel hmem⟩

/-- A batch whose turn has come goes to the consumer. Its chunk moves from the channel to the stage
of the coordinator. -/
theorem deliver (h : s.Flow log) (hstage : s.stage = .receiving)
    (hchannel : s.channel = (seq, .ok b) :: rest)
    (hturn : job.ordered = true → seq = s.nextSeq) :
    ({ s with channel := rest, stage := .delivering seq b } : Executor job).Flow
      (log ++ [.internal]) where
  -- the chunk moves from the channel to the coordinator's stage
  places := by
    rw [← h.places, Executor.places, Executor.places, calledSeqs_append, hstage, hchannel]
    simp only [Action.calledSeq, Option.toList_none, List.append_nil, Stage.held, List.map_cons,
      add_zero, ← Multiset.cons_coe, ← Multiset.singleton_add]
    abel
  queue := h.queue
  ordered hord := by
    rw [calledSeqs_append]
    exact (List.append_nil _).trans (h.ordered hord)
  turn hord n b' hs := by
    obtain ⟨rfl, rfl⟩ := Stage.delivering.inj hs
    exact hturn hord
  window hord := by
    obtain ⟨next, hnext, hwin⟩ := h.window hord
    refine ⟨next, hnext, hwin.le, fun hs => (by cases hs), fun hs => (by cases hs), fun n hn => ?_⟩
    exact hwin.near n (hn.imp_right (Or.imp_left (admitted_rest hchannel)))
  unordered := h.unordered
  sent p hp := by
    refine List.mem_append_left _ (h.sent p ?_)
    rw [hchannel]
    exact List.mem_cons_of_mem _ hp
  heldBack n b' hb := List.mem_append_left _ (h.heldBack n b' hb)
  delivering n b' hs := by
    obtain ⟨rfl, rfl⟩ := Stage.delivering.inj hs
    refine List.mem_append_left _ (h.sent (seq, .ok b) ?_)
    rw [hchannel]
    exact List.mem_cons_self
  unrefused := h.unrefused.append rfl
  failures := h.failures_rest hchannel rfl rfl
  stopped := h.stopped_rest hchannel rfl rfl rfl

/-- A batch that comes too early is held back. In an ordered run a chunk with another number than
the next one goes to the reorder buffer, where the dispatch window leaves room for it; under a
strict budget the bytes held back may end the loop instead. -/
theorem holdBack (h : s.Flow log) (hstage : s.stage = .receiving)
    (hchannel : s.channel = (seq, .ok b) :: rest) (hord : job.ordered = true)
    (hearly : seq ≠ s.nextSeq) (bytes : Nat) :
    ({ s with channel := rest, reorderBytes := bytes, pending := s.pending.insert seq b } :
      Executor job).Flow (log ++ [.internal]) := by
  have hseq : seq ∈ s.channel.map Prod.fst := by
    rw [hchannel]
    exact List.mem_cons_self
  -- the sequence number moves from the channel to the chunks held back
  have hkeys : (s.pending.insert seq b).keys = seq :: s.pending.keys := by
    rw [AList.keys_insert, List.erase_of_not_mem (h.notMem_pending hseq)]
  refine ⟨?_, h.queue, fun hord => ?_, fun _ n b' hs => ?_, fun hord => ?_, fun hun => ?_,
    fun p hp => ?_, fun n b' hb => ?_, fun n b' hs => ?_, h.unrefused.append rfl,
    h.failures_rest hchannel rfl rfl, h.stopped_rest hchannel rfl rfl rfl⟩
  · rw [← h.places, Executor.places, Executor.places, calledSeqs_append, hchannel]
    simp only [Action.calledSeq, Option.toList_none, List.append_nil, hkeys, List.map_cons,
      ← Multiset.cons_coe, ← Multiset.singleton_add]
    abel
  · rw [calledSeqs_append]
    exact (List.append_nil _).trans (h.ordered hord)
  · exact h.turn hord n b' hs
  · obtain ⟨next, hnext, hwin⟩ := h.window hord
    refine ⟨next, hnext, hwin.le, fun hs => ⟨(hwin.receiving hs).1, ?_⟩, hwin.draining, fun n hn => ?_⟩
    · show s.nextSeq ∉ (s.pending.insert seq b).keys
      rw [hkeys, List.mem_cons, not_or]
      exact ⟨fun heq => hearly heq.symm, (hwin.receiving hs).2⟩
    · rcases hn with hn | hn | hn
      · exact hwin.near n (.inl hn)
      · exact hwin.near n (.inr (.inl (admitted_rest hchannel hn)))
      · rcases List.mem_cons.mp (hkeys ▸ hn) with rfl | hn
        · exact hwin.near n (.inr (.inl hseq))
        · exact hwin.near n (.inr (.inr hn))
  · rw [hord] at hun
    cases hun
  · refine List.mem_append_left _ (h.sent p ?_)
    rw [hchannel]
    exact List.mem_cons_of_mem _ hp
  · refine List.mem_append_left _ ?_
    by_cases hn : n = seq
    · subst hn
      rw [AList.lookup_insert] at hb
      obtain rfl := Option.some.inj hb
      refine h.sent (n, .ok b) ?_
      rw [hchannel]
      exact List.mem_cons_self
    · rw [AList.lookup_insert_ne hn] at hb
      exact h.heldBack n b' hb
  · rw [hstage] at hs
    cases hs

end Flow

/-- A received result goes to the consumer, is held back, or ends the loop. These are the cases of
`receive`: the next chunk of an ordered run or any of an unordered one, a chunk that is early, and
an error. -/
theorem Inv.receive (h : s.Inv log) {seq : Nat} {result : Except ε β}
    {rest : List (Nat × Except ε β)} (hstage : s.stage = .receiving)
    (hchannel : s.channel = (seq, result) :: rest) :
    ({ s with channel := rest }.receive seq result).Inv (log ++ [Action.internal]) := by
  have hlive : s.stage.live = true := by
    rw [hstage]
    rfl
  have hflow := h.flow hlive
  have hsound : ∀ s' : Executor job, s'.queue = s.queue → s'.workers = s.workers →
      s'.Sound (log ++ [.internal]) := fun s' hqueue hworkers =>
    h.sound.coordinate hqueue hworkers rfl fun _ _ _ hx => by cases hx
  -- an error or a full reorder buffer ends the run, with its reason in the log
  have hended : ∀ (s' : Executor job) (err : ε), s'.queue = s.queue → s'.workers = s.workers →
      s'.pending = s.pending → s'.stage = .ended (.error err) →
      Reason job (log ++ [.internal]) err → s'.Inv (log ++ [.internal]) := by
    intro s' err hqueue hworkers hpending hs' hreason
    exact .of_ended (hsound s' hqueue hworkers) hs'
      (hflow.settled_error hlive hreason hpending hflow.called_of_internal)
  cases result with
  | error err =>
      refine hended _ err rfl rfl rfl rfl (.chunk seq (List.mem_append_left _ (hflow.sent (seq, _) ?_)))
      rw [hchannel]
      exact List.mem_cons_self
  | ok b =>
      rw [Executor.receive]
      -- a chunk ahead of its turn is held back while the memory allows it
      cases hheld : job.ordered && seq != s.nextSeq with
      | true =>
          rw [Bool.and_eq_true, bne_iff_ne] at hheld
          cases hmemory : job.strict &&
              decide (job.reorderLimit < saturatingAdd s.reorderBytes (job.size b)) with
          | true =>
              rw [if_pos rfl, if_pos hmemory]
              rw [Bool.and_eq_true, decide_eq_true_iff] at hmemory
              exact hended _ _ rfl rfl rfl rfl (.memory _ hheld.1 hmemory.1 hmemory.2 rfl)
          | false =>
              rw [if_pos rfl, if_neg (by rw [hmemory]; simp)]
              exact .of_flow (hsound _ rfl rfl) hlive
                (hflow.holdBack hstage hchannel hheld.1 hheld.2 _)
      | false =>
          rw [if_neg Bool.false_ne_true]
          refine .of_flow (hsound _ rfl rfl) rfl (hflow.deliver hstage hchannel fun hord => ?_)
          rw [hord, Bool.true_and] at hheld
          simpa using hheld

/-- The calls of the consumer, with one more. -/
theorem Flow.called_of_consumed (h : s.Flow log) {seq : Nat} {b : β}
    (hstage : s.stage = .delivering seq b) (failure : Option ε) :
    (job.ordered = true →
        calledSeqs (log ++ [.consumed seq b failure]) = List.range (s.nextSeq + 1)) ∧
      (calledSeqs (log ++ [.consumed seq b failure])).Nodup := by
  have hcalled : calledSeqs (log ++ [.consumed seq b failure]) = calledSeqs log ++ [seq] :=
    calledSeqs_append log _
  have hnot : seq ∉ calledSeqs log := h.notMem_called (.inr (.inr (by
    rw [hstage]
    exact Multiset.mem_singleton_self _)))
  rw [hcalled]
  refine ⟨fun hord => ?_, ?_⟩
  · rw [h.ordered hord, h.turn hord seq b hstage, List.range_succ]
  · rw [List.nodup_append]
    refine ⟨h.nodup_called, List.nodup_singleton _, fun n hn m hm => ?_⟩
    rintro rfl
    obtain rfl := List.mem_singleton.mp hm
    exact hnot hn

/-- After a batch was taken, an ordered coordinator goes on to the reorder buffer. -/
theorem answer_none (s : Executor job) :
    (s.answer none).queue = s.queue ∧ (s.answer none).workers = s.workers ∧
      (s.answer none).channel = s.channel ∧ (s.answer none).pending = s.pending ∧
      (s.answer none).dispatch = s.dispatch ∧ (s.answer none).stage.held = 0 ∧
      (s.answer none).stage.live = true ∧ (∀ n b, (s.answer none).stage ≠ .delivering n b) ∧
      (job.ordered = true → (s.answer none).nextSeq = s.nextSeq + 1 ∧
        (s.answer none).stage = .draining) := by
  rw [Executor.answer]
  cases job.ordered <;> simp [Stage.held, Stage.live]

/-- The consumer has taken the batch. Its chunk moves from the stage of the coordinator to the calls
made, and in an ordered job the next number is due. -/
theorem Flow.answer (h : s.Flow log) {seq : Nat} {b : β} (hstage : s.stage = .delivering seq b) :
    (s.answer none).Flow (log ++ [.consumed seq b none]) := by
  obtain ⟨hqueue, hworkers, hchannel, hpending, hdispatch, hheld, -, hnot, hnext⟩ := s.answer_none
  refine ⟨?_, hqueue ▸ h.queue, fun hord => ?_, fun _ n b' hs => absurd hs (hnot n b'),
    fun hord => ?_, fun hun => hpending ▸ h.unordered hun,
    fun p hp => List.mem_append_left _ (h.sent p (hchannel ▸ hp)),
    fun n b' hb => List.mem_append_left _ (h.heldBack n b' (hpending ▸ hb)),
    fun n b' hs => absurd hs (hnot n b'), fun n b' err hmem => ?_, fun n err hmem => ?_,
    fun w hw => ?_⟩
  -- the chunk that was handed over is now among those called
  · rw [← h.places, Executor.places, Executor.places, calledSeqs_append, hqueue, hworkers, hchannel,
      hpending, hheld, hstage, ← Multiset.coe_add]
    simp only [Action.calledSeq, Option.toList_some, Stage.held, Multiset.coe_singleton, add_zero]
    abel
  · rw [(h.called_of_consumed hstage none).1 hord, (hnext hord).1]
  · obtain ⟨next, hn, hwin⟩ := h.window hord
    refine ⟨next, hdispatch.trans hn, ?_, fun hs => ?_, fun _ => ?_, fun n hadm => ?_⟩
    · rw [(hnext hord).1]
      exact hwin.le.trans (Nat.le_succ _)
    · rw [(hnext hord).2] at hs
      cases hs
    · rw [(hnext hord).1]
      exact Nat.lt_succ_of_le hwin.le
    · rw [Admitted, hworkers, hchannel, hpending] at hadm
      exact hwin.near n hadm
  · rcases List.mem_append.mp hmem with hold | hnew
    · exact h.unrefused n b' err hold
    · cases List.mem_singleton.mp hnew
  · rw [hworkers, hchannel]
    exact h.failures n err (parsed_of_append rfl hmem)
  · rw [hqueue, hchannel]
    exact h.stopped w (hworkers ▸ hw)

/-- The consumer has answered. With an error the coordinator leaves its loop, and otherwise it goes
on with the next result. -/
theorem Inv.consume (h : s.Inv log) {seq : Nat} {b : β} (failure : Option ε)
    (hstage : s.stage = .delivering seq b) :
    (s.answer failure).Inv (log ++ [Action.consumed seq b failure]) := by
  have hlive : s.stage.live = true := by
    rw [hstage]
    rfl
  have hflow := h.flow hlive
  have hsound : ∀ s' : Executor job, s'.queue = s.queue → s'.workers = s.workers →
      s'.Sound (log ++ [.consumed seq b failure]) := by
    refine fun s' hqueue hworkers => h.sound.coordinate hqueue hworkers rfl fun n b' failure' hx => ?_
    obtain ⟨rfl, rfl, rfl⟩ := Action.consumed.inj hx
    exact ⟨hflow.delivering seq b hstage, hflow.unrefused⟩
  have hcalled := hflow.called_of_consumed hstage failure
  cases failure with
  | some err =>
      refine .of_ended (hsound _ rfl rfl) rfl
        (hflow.settled_error hlive ?_ rfl ⟨fun hord => ?_, hcalled.2⟩)
      · exact .consumer seq b (List.mem_append_right _ (List.mem_singleton_self _))
      · rw [hcalled.1 hord, List.length_range]
  | none =>
      obtain ⟨hqueue, hworkers, -, -, -, -, hnew, -, -⟩ := s.answer_none
      exact .of_flow (hsound _ hqueue hworkers) hnew (hflow.answer hstage)

/-- The next batch is taken from the reorder buffer, or the new sequence number is published. In the
second case the next chunk is in no earlier place, so that a worker waiting for the window sees a
number that lets it through. -/
theorem Inv.drain (h : s.Inv log) (hstage : s.stage = .draining) :
    s.drain.Inv (log ++ [Action.internal]) := by
  have hflow := h.flow (by rw [hstage]; rfl)
  have hordered : job.ordered = true → calledSeqs (log ++ [.internal]) = List.range s.nextSeq :=
    fun hord => ((calledSeqs_append log _).trans (List.append_nil _)).trans (hflow.ordered hord)
  have hfailures : ∀ n err, Action.parsed n (.error err) ∈ log ++ [.internal] →
      (∃ w, s.workers w = .sending n (.error err)) ∨ (n, .error err) ∈ s.channel :=
    fun n err hmem => hflow.failures n err (parsed_of_append rfl hmem)
  have hsent : ∀ p ∈ s.channel, Action.parsed p.1 p.2 ∈ log ++ [.internal] :=
    fun p hp => List.mem_append_left _ (hflow.sent p hp)
  rw [Executor.drain]
  cases hlook : s.pending.lookup s.nextSeq with
  -- the next chunk in turn was held back, and is handed over now
  | some b =>
      have hmem : s.nextSeq ∈ s.pending.keys := by
        rw [← AList.mem_keys, ← AList.lookup_isSome, hlook]
        rfl
      have hkeys : (s.pending.erase s.nextSeq).keys = s.pending.keys.erase s.nextSeq :=
        AList.keys_erase _ _
      have hback : ((s.pending.keys.erase s.nextSeq : List Nat) : Multiset Nat) + {s.nextSeq} =
          ↑s.pending.keys := by
        rw [← Multiset.coe_erase, add_comm, Multiset.singleton_add,
          Multiset.cons_erase (Multiset.mem_coe.mpr hmem)]
      refine .of_flow (h.sound.coordinate rfl rfl rfl fun _ _ _ hx => by cases hx) rfl ?_
      refine ⟨?_, hflow.queue, hordered, fun _ n b' hs => ?_, fun hord => ?_, fun hun => ?_, hsent,
        fun n b' hb => ?_, fun n b' hs => ?_, hflow.unrefused.append rfl, hfailures, hflow.stopped⟩
      · rw [← hflow.places, Executor.places, Executor.places, calledSeqs_append, hstage, ← hback]
        simp only [Action.calledSeq, Option.toList_none, List.append_nil, Stage.held, hkeys, add_zero]
        abel
      · exact (Stage.delivering.inj hs).1.symm
      · obtain ⟨next, hnext, hwin⟩ := hflow.window hord
        refine ⟨next, hnext, hwin.le, fun hs => (by cases hs), fun hs => (by cases hs), fun n hn => ?_⟩
        refine hwin.near n (hn.imp_right (Or.imp_right fun hp => ?_))
        exact List.mem_of_mem_erase (hkeys ▸ hp)
      · rw [hflow.unordered hun] at hmem
        cases hmem
      · by_cases hn : n = s.nextSeq
        · subst hn
          rw [AList.lookup_erase] at hb
          cases hb
        · rw [AList.lookup_erase_ne hn] at hb
          exact List.mem_append_left _ (hflow.heldBack n b' hb)
      · obtain ⟨rfl, rfl⟩ := Stage.delivering.inj hs
        exact List.mem_append_left _ (hflow.heldBack _ _ hlook)
  -- nothing is left in turn, and the coordinator waits for the channel again
  | none =>
      refine .of_flow (h.sound.coordinate rfl rfl rfl fun _ _ _ hx => by cases hx) rfl ?_
      refine ⟨?_, hflow.queue, hordered, fun _ n b' hs => (by cases hs), fun hord => ?_,
        hflow.unordered, hsent, fun n b' hb => List.mem_append_left _ (hflow.heldBack n b' hb),
        fun n b' hs => (by cases hs), hflow.unrefused.append rfl, hfailures, hflow.stopped⟩
      · rw [← hflow.places, Executor.places, Executor.places, calledSeqs_append, hstage]
        simp only [Action.calledSeq, Option.toList_none, List.append_nil, Stage.held]
      · obtain ⟨next, hnext, hwin⟩ := hflow.window hord
        refine ⟨s.nextSeq, rfl, le_rfl, fun _ => ⟨rfl, AList.lookup_eq_none.mp hlook⟩,
          fun hs => (by cases hs), fun n hn => ?_⟩
        have hnear := hwin.near n hn
        have hle := hwin.le
        show n ≤ s.nextSeq + job.maxReorder
        omega

/-- When every worker has stopped and the channel is empty, the consumer has had every chunk. -/
theorem Flow.complete (h : s.Flow log) (hstage : s.stage = .receiving) (hchannel : s.channel = [])
    (hstopped : ∀ w, s.workers w = .stopped) :
    (calledSeqs log : Multiset Nat) = Multiset.range job.numChunks := by
  -- a worker stops at an empty queue or after a failure, and the channel holds no failure
  have hqueue : s.queue = [] := by
    have hpos : 0 < job.workers := lt_of_lt_of_le Nat.zero_lt_one (le_max_right _ _)
    rcases h.stopped ⟨0, hpos⟩ (hstopped _) with hempty | ⟨seq, err, hmem⟩
    · exact hempty
    · rw [hchannel] at hmem
      cases hmem
  have hheld : (∑ w, (s.workers w).held) = 0 :=
    Finset.sum_eq_zero fun w _ => by rw [hstopped w]; rfl
  have hplaces := h.places
  rw [Executor.places, hqueue, hheld, hchannel, hstage] at hplaces
  simp only [Multiset.coe_nil, List.map_nil, zero_add, Stage.held, add_zero] at hplaces
  cases hord : job.ordered with
  | false =>
      rw [h.unordered hord] at hplaces
      exact (zero_add _).symm.trans hplaces
  | true =>
      obtain ⟨next, -, hwin⟩ := h.window hord
      have hnext := (hwin.receiving hstage).2
      rw [h.ordered hord] at hplaces ⊢
      have hlt : s.nextSeq ∉ Multiset.range job.numChunks := by
        rw [← hplaces, Multiset.mem_add, not_or]
        exact ⟨hnext, by simp⟩
      have hle : ∀ n < s.nextSeq, n < job.numChunks := by
        intro n hn
        rw [← Multiset.mem_range, ← hplaces]
        exact Multiset.mem_add.mpr (.inr (by simpa using hn))
      -- what is held back begins behind the next chunk, so nothing is held back at the end
      have heq : s.nextSeq = job.numChunks := by
        refine le_antisymm ?_ (not_lt.mp fun h' => hlt (Multiset.mem_range.mpr h'))
        by_contra hgt
        exact absurd (hle job.numChunks (not_le.mp hgt)) (lt_irrefl _)
      rw [heq, Multiset.coe_range]

/-- The loop ends without an error when every chunk is with the consumer. -/
theorem Inv.close (h : s.Inv log) (hstage : s.stage = .receiving) (hchannel : s.channel = [])
    (hstopped : ∀ w, s.workers w = .stopped) :
    ({ s with stage := .ended (.ok ()) } : Executor job).Inv (log ++ [.internal]) := by
  have hlive : s.stage.live = true := by
    rw [hstage]
    rfl
  have hflow := h.flow hlive
  have hcalled := hflow.called_of_internal
  refine .of_ended (h.sound.coordinate rfl rfl rfl fun _ _ _ hx => by cases hx) rfl ?_
  refine ⟨hcalled.1, hcalled.2, hflow.pending_le hlive, fun _ => ⟨?_, hflow.unrefused.append rfl,
    fun seq err hmem => ?_, hstopped⟩, fun err hx => (by cases hx)⟩
  · rw [calledSeqs_append, ← Multiset.coe_eq_coe, Multiset.coe_range]
    exact (congrArg _ (List.append_nil _)).trans (hflow.complete hstage hchannel hstopped)
  · rcases hflow.failures seq err (parsed_of_append rfl hmem) with ⟨w, hw⟩ | hmem
    · rw [hstopped w] at hw
      cases hw
    · rw [hchannel] at hmem
      cases hmem

/-- The coordinator's last steps keep what is settled. -/
theorem Settled.coordinate {s' : Executor job} {result : Except ε Unit} (h : s.Settled log result)
    (hworkers : s'.workers = s.workers) (hpending : s'.pending = s.pending) :
    s'.Settled (log ++ [.internal]) result := by
  have hsame : calledSeqs (log ++ [.internal]) = calledSeqs log :=
    (calledSeqs_append log _).trans (List.append_nil _)
  refine ⟨?_, ?_, hpending ▸ h.pending, fun hok => ?_, fun err herr => (h.error err herr).append _⟩
  · rw [hsame]
    exact h.ordered
  · rw [hsame]
    exact h.nodup
  · obtain ⟨hperm, hun, hparsed, hstopped⟩ := h.ok hok
    refine ⟨hsame ▸ hperm, hun.append rfl, fun seq err hmem => ?_, hworkers ▸ hstopped⟩
    exact hparsed seq err (parsed_of_append rfl hmem)

/-- Every step keeps the invariant. The steps of a worker only move its own chunk, and those of the
coordinator move chunks from the channel to the calls. -/
theorem Inv.step {s' : Executor job} (h : s.Inv log) (hstep : Step s a s') : s'.Inv (log ++ [a]) := by
  have hsound : ∀ s' : Executor job, s'.queue = s.queue → s'.workers = s.workers →
      s'.Sound (log ++ [.internal]) := fun s' hqueue hworkers =>
    h.sound.coordinate hqueue hworkers rfl fun _ _ _ hx => by cases hx
  cases hstep with
  | pop w seq hidle hpop => exact h.pop hidle hpop
  | quit w hidle hempty => exact h.quit hidle hempty
  | enter w seq hwaiting hopen => exact h.enter hwaiting hopen
  | withdraw w seq hwaiting hordered hnone => exact h.withdraw hwaiting hordered hnone
  | parse w seq result hparsing hresult => exact h.parse hparsing hresult
  | send w seq result hsending hlive hroom => exact h.send hsending
  | disconnected w seq result hsending hdead => exact h.disconnected hsending hdead
  | receive seq result rest hstage hchannel => exact h.receive hstage hchannel
  | consume seq b failure hstage => exact h.consume failure hstage
  | drain hstage => exact h.drain hstage
  | close hstage hchannel hstopped => exact h.close hstage hchannel hstopped
  | release result hstage =>
      refine ⟨hsound _ rfl rfl, fun hl => (by cases hl), fun result' hresult => ?_, fun _ _ => rfl⟩
      obtain rfl := Option.some.inj hresult
      exact (h.settled result (by rw [hstage]; rfl)).coordinate rfl rfl
  | join result hstage hstopped =>
      refine ⟨hsound _ rfl rfl, fun hl => (by cases hl), fun result' hresult => ?_,
        fun result' hx => (by cases hx)⟩
      obtain rfl := Option.some.inj hresult
      exact (h.settled result (by rw [hstage]; rfl)).coordinate rfl rfl

/-- The invariant holds in every run. -/
theorem inv_of_steps (h : Steps Step (initial job) log s) : s.Inv log :=
  h.invariant (inv_initial job) fun _ _ _ _ hinv hstep => hinv.step hstep

/-- The chunks that a finished run has parsed are all of them, each once. Every chunk was given to
the consumer, and none of these was parsed twice. -/
theorem Inv.parsed_perm (h : s.Inv log) (hcalled : (calledSeqs log).Perm (List.range job.numChunks)) :
    (parsedSeqs log).Perm (List.range job.numChunks) := by
  rw [← Multiset.coe_eq_coe, Multiset.coe_range]
  refine le_antisymm ?_ ((Multiset.le_iff_subset (Multiset.nodup_range _)).mpr fun seq hseq => ?_)
  · refine le_trans ?_ h.sound.once
    rw [add_assoc]
    exact Multiset.le_add_right _ _
  · have hmem : seq ∈ calledSeqs log := hcalled.mem_iff.mpr (List.mem_range.mpr (by simpa using hseq))
    obtain ⟨a, ha, hseq⟩ := List.mem_filterMap.mp hmem
    cases a with
    | internal => cases hseq
    | parsed _ _ => cases hseq
    | consumed n b failure =>
        obtain rfl := Option.some.inj hseq
        exact Multiset.mem_coe.mpr (mem_parsedSeqs (h.sound.called _ _ _ ha))

/-- The calls of the consumer in every state of a run: no chunk is given twice, they are in order if
the job is ordered, and no more results are pending than the bound allows. -/
theorem Inv.calls (h : s.Inv log) :
    (calledSeqs log).Nodup ∧
      (job.ordered = true → calledSeqs log = List.range (calledSeqs log).length) ∧
      s.pending.keys.length ≤ job.maxReorder := by
  cases hlive : s.stage.live with
  | true =>
      have hflow := h.flow hlive
      exact ⟨hflow.nodup_called, fun hord => by rw [hflow.ordered hord, List.length_range],
        hflow.pending_le hlive⟩
  | false =>
      have hresult : ∃ result, s.stage.result = some result := by
        cases hs : s.stage <;> simp [hs, Stage.live, Stage.result] at hlive ⊢
      obtain ⟨result, hresult⟩ := hresult
      have hsettled := h.settled result hresult
      exact ⟨hsettled.nodup, hsettled.ordered, hsettled.pending⟩

/-- A worker parses a chunk of the job, and no chunk is parsed twice. -/
theorem Inv.parsed (h : s.Inv log) :
    (parsedSeqs log).Nodup ∧ ∀ seq ∈ parsedSeqs log, seq < job.numChunks := by
  have hparsed : (parsedSeqs log : Multiset Nat) ≤ Multiset.range job.numChunks := by
    refine le_trans ?_ h.sound.once
    rw [add_assoc]
    exact Multiset.le_add_right _ _
  refine ⟨?_, fun seq hseq => ?_⟩
  · exact Multiset.coe_nodup.mp (Multiset.nodup_of_le hparsed (Multiset.nodup_range _))
  · exact Multiset.mem_range.mp (Multiset.mem_of_le hparsed (Multiset.mem_coe.mpr hseq))

/-- The consumer is called with the batch of a chunk that a worker has parsed. -/
theorem Inv.consumed {seq : Nat} {b : β} {failure : Option ε} (h : s.Inv log)
    (hmem : Action.consumed seq b failure ∈ log) :
    b = job.batch seq ∧ Action.parsed seq (.ok b) ∈ log := by
  have hmem' := h.sound.called seq b failure hmem
  exact ⟨h.sound.batch seq b hmem', hmem'⟩

/-- A run that returns `Ok` has called the consumer once for every chunk, and nothing in it has
failed. -/
theorem Inv.returned_ok (h : s.Inv log) (hs : s.stage = .returned (.ok ())) :
    (calledSeqs log).Perm (List.range job.numChunks) ∧ Unrefused log ∧
      ∀ seq err, Action.parsed seq (.error err) ∉ log := by
  obtain ⟨hperm, hun, hfail, -⟩ := (h.settled (.ok ()) (by rw [hs]; rfl)).ok rfl
  exact ⟨hperm, hun, hfail⟩

end Executor

open Executor in
/-- **Around any consumer**, ordered or not: no chunk is parsed twice, and the consumer is given no batch
twice, only what the chunks parsed to, in order if the run is ordered, and nothing after it has failed;
no more is held back than the reorder bound allows; a run that returns `Ok` has parsed every chunk and
given the consumer every batch, without a failure, and one that returns an error has a reason. -/
theorem any_consumer {s : Executor job} (h : Steps Executor.Step (initial job) log s) :
    ((parsedSeqs log).Nodup ∧ ∀ seq ∈ parsedSeqs log, seq < job.numChunks) ∧
      ((calledSeqs log).Nodup ∧ ∀ seq b failure, Action.consumed seq b failure ∈ log →
        b = job.batch seq ∧ Action.parsed seq (.ok b) ∈ log) ∧
      (job.ordered = true → calledSeqs log = List.range (calledSeqs log).length) ∧
      (∀ before seq b err after, log = before ++ .consumed seq b (some err) :: after →
        calledSeqs after = []) ∧
      s.pending.keys.length ≤ job.maxReorder ∧
      (s.stage = .returned (.ok ()) → (parsedSeqs log).Perm (List.range job.numChunks) ∧
        (calledSeqs log).Perm (List.range job.numChunks) ∧ Unrefused log ∧
        ∀ seq err, Action.parsed seq (.error err) ∉ log) ∧
      ∀ err, s.stage = .returned (.error err) → Reason job log err := by
  have hinv := inv_of_steps h
  obtain ⟨hnodup, hordered, hpending⟩ := hinv.calls
  refine ⟨hinv.parsed, ⟨hnodup, fun seq b failure hmem => hinv.consumed hmem⟩, hordered, hinv.sound.last,
    hpending, fun hs => ?_, fun err hs => ?_⟩
  · obtain ⟨hperm, hun, hfail⟩ := hinv.returned_ok hs
    exact ⟨hinv.parsed_perm hperm, hperm, hun, hfail⟩
  · exact (hinv.settled (.error err) (by rw [hs]; rfl)).error err rfl

section Examples

open Executor

theorem one_le_usizeMax : 1 ≤ usizeMax := by decide

/-- An unordered job of one chunk. -/
def oneBatch : Job Nat String where
  numChunks := 1
  numChunks_le := one_le_usizeMax
  threads := 1
  maxReorderOpt := 0
  maxInFlight := 1
  ordered := false
  strict := false
  allowance := 0
  size := fun _ => 0
  batch := fun _ => 7
  memory := fun _ _ => "memory"

/-- The only worker of the job. -/
def loneWorker : Fin oneBatch.workers := ⟨0, by decide⟩

/-- The consumer refuses the batch, and the job returns its error after the worker has stopped. -/
theorem oneBatch_refused : ∃ log s, Steps Executor.Step (initial oneBatch) log s ∧
    s.stage = .returned (.error "full") := by
  have hstopped : ∀ w : Fin oneBatch.workers, w = loneWorker := fun w =>
    Subsingleton.elim (α := Fin 1) w loneWorker
  have hpop := Steps.single (Executor.Step.pop (s := initial oneBatch) loneWorker 0 rfl rfl)
  have henter := hpop.snoc (.enter loneWorker 0 rfl (fun h => by cases h))
  have hparse := henter.snoc (.parse loneWorker 0 (.ok 7) rfl (fun b hb => by cases hb; rfl))
  have hsend := hparse.snoc (.send loneWorker 0 (.ok 7) rfl rfl (by decide))
  have hreceive := hsend.snoc (.receive 0 (.ok 7) [] rfl rfl)
  have hconsume := hreceive.snoc (.consume 0 7 (some "full") rfl)
  have hquit := hconsume.snoc (.quit loneWorker rfl rfl)
  have hrelease := hquit.snoc (.release (.error "full") rfl)
  exact ⟨_, _, hrelease.snoc (.join (.error "full") rfl (fun w => by rw [hstopped w]; rfl)), rfl⟩

theorem two_le_usizeMax : 2 ≤ usizeMax := by decide

/-- An ordered job of two chunks for two workers. -/
def twoBatches (batch : Nat → β) : Job β String where
  numChunks := 2
  numChunks_le := two_le_usizeMax
  threads := 2
  maxReorderOpt := 0
  maxInFlight := 2
  ordered := true
  strict := false
  allowance := 0
  size := fun _ => 0
  batch := batch
  memory := fun _ _ => "memory"

/-- The two workers of the job. -/
def slowWorker (batch : Nat → β) : Fin (twoBatches batch).workers := ⟨0, Nat.zero_lt_two⟩

def fastWorker (batch : Nat → β) : Fin (twoBatches batch).workers := ⟨1, Nat.one_lt_two⟩

/-- The second batch is held back while the first chunk waits for its worker. -/
def heldState (batch : Nat → β) : Executor (twoBatches batch) where
  queue := []
  workers := fun w => if w = slowWorker batch then .waiting 0 else .idle
  pending := AList.insert 1 (batch 1) ∅

/-- The consumer has both batches. -/
def servedState (batch : Nat → β) : Executor (twoBatches batch) where
  queue := []
  nextSeq := 2
  dispatch := some 2

/-- A state is known by its workers once the other fields are. -/
theorem workers_eq {s : Executor job} {workers : Fin job.workers → Worker β ε}
    (h : workers = s.workers) : { s with workers := workers } = s := by
  rw [h]

/-- The job has no third worker. -/
theorem slow_or_fast (batch : Nat → β) :
    ∀ w : Fin (twoBatches batch).workers, w = slowWorker batch ∨ w = fastWorker batch := by
  have hboth : ∀ w : Fin 2, w = 0 ∨ w = 1 := by decide
  exact hboth

/-- What the run does: the second chunk is parsed and received first, held back, and given to the
consumer after the first. -/
def heldLog (batch : Nat → β) : List (Action β String) :=
  [.internal, .internal, .internal, .parsed 1 (.ok (batch 1)), .internal, .internal, .internal,
    .parsed 0 (.ok (batch 0)), .internal, .internal, .consumed 0 (batch 0) none, .internal,
    .consumed 1 (batch 1) none, .internal, .internal, .internal, .internal, .internal, .internal]

/-- The worker of the second chunk is faster. Its batch is received first and held back, since the
first one is still due. -/
theorem twoBatches_held (batch : Nat → β) :
    Steps Executor.Step (initial (twoBatches batch)) ((heldLog batch).take 6) (heldState batch) := by
  have hpop := Steps.single
    (Executor.Step.pop (s := initial (twoBatches batch)) (slowWorker batch) 0 rfl rfl)
  have hpop' := hpop.snoc (.pop (fastWorker batch) 1 rfl rfl)
  have henter := hpop'.snoc (.enter (fastWorker batch) 1 rfl fun _ => ⟨0, rfl, rfl⟩)
  have hparse := henter.snoc (.parse (fastWorker batch) 1 (.ok (batch 1)) rfl
    fun b hb => (Except.ok.inj hb).symm)
  have hsend := hparse.snoc (.send (fastWorker batch) 1 (.ok (batch 1)) rfl rfl Nat.zero_lt_two)
  have hreceive := hsend.snoc (.receive 1 (.ok (batch 1)) [] rfl rfl)
  refine Eq.mp (congrArg (Steps _ _ _) (workers_eq (s := heldState batch) (funext fun w => ?_))) hreceive
  rcases slow_or_fast batch w with rfl | rfl <;> rfl

/-- The consumer is given the first batch, then the one held back. -/
theorem twoBatches_served (batch : Nat → β) :
    Steps Executor.Step (heldState batch) (((heldLog batch).drop 6).take 8) (servedState batch) := by
  have henter := Steps.single
    (Executor.Step.enter (s := heldState batch) (slowWorker batch) 0 rfl fun _ => ⟨0, rfl, rfl⟩)
  have hparse := henter.snoc (.parse (slowWorker batch) 0 (.ok (batch 0)) rfl
    fun b hb => (Except.ok.inj hb).symm)
  have hsend := hparse.snoc (.send (slowWorker batch) 0 (.ok (batch 0)) rfl rfl Nat.zero_lt_two)
  have hreceive := hsend.snoc (.receive 0 (.ok (batch 0)) [] rfl rfl)
  have hconsume := hreceive.snoc (.consume 0 (batch 0) none rfl)
  have hdrain := hconsume.snoc (.drain rfl)
  have hconsume' := hdrain.snoc (.consume 1 (batch 1) none rfl)
  have hdrain' := hconsume'.snoc (.drain rfl)
  refine Eq.mp (congrArg (Steps _ _ _) (workers_eq (s := servedState batch) (funext fun w => ?_))) hdrain'
  rcases slow_or_fast batch w with rfl | rfl <;> rfl

/-- The job returns `Ok` in such a run, once the batch that was held back has been delivered behind
the first. -/
theorem twoBatches_runs (batch : Nat → β) :
    ∃ s, Steps Executor.Step (initial (twoBatches batch)) (heldLog batch) s ∧
      s.stage = .returned (.ok ()) := by
  have hquit := Steps.single
    (Executor.Step.quit (s := servedState batch) (slowWorker batch) rfl rfl)
  have hquit' := hquit.snoc (.quit (fastWorker batch) rfl rfl)
  have hclose := hquit'.snoc
    (.close rfl rfl fun w => by rcases slow_or_fast batch w with rfl | rfl <;> rfl)
  have hrelease := hclose.snoc (.release (.ok ()) rfl)
  have hjoin := hrelease.snoc
    (.join (.ok ()) rfl fun w => by rcases slow_or_fast batch w with rfl | rfl <;> rfl)
  exact ⟨_, ((twoBatches_held batch).trans (twoBatches_served batch)).trans hjoin, rfl⟩

/-- The chunks are parsed in one order and consumed in the other, and the run that is refused has the
refusal for its reason. -/
theorem any_consumer_two :
    (∃ s : Executor (twoBatches (10 + ·)),
      Steps Executor.Step (initial (twoBatches (10 + ·))) (heldLog (10 + ·)) s ∧
        parsedSeqs (heldLog (10 + ·)) = [1, 0] ∧ [1, 0].Perm (List.range 2) ∧
        calledSeqs (heldLog (10 + ·)) = List.range 2) ∧
      ∃ log, ∃ s : Executor oneBatch, Steps Executor.Step (initial oneBatch) log s ∧
        Reason oneBatch log "full" := by
  obtain ⟨t, ht, hok⟩ := twoBatches_runs (10 + ·)
  obtain ⟨log, s, hs, hreturned⟩ := oneBatch_refused
  refine ⟨⟨t, ht, rfl, ?_, ?_⟩, log, s, hs, (any_consumer hs).2.2.2.2.2.2 "full" hreturned⟩
  · exact ((any_consumer ht).2.2.2.2.2.1 hok).1
  · exact (any_consumer ht).2.2.1 rfl

end Examples

end Stream

end Rypipe
