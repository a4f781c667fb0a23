import Rypipe.Stream.AnyConsumer

/-! # A run returns

Every step of the executor lowers `potential`, and short of the return some step can be taken: no
dispatch window, channel or queue keeps all threads waiting for each other. So every run returns, if
only its consumer answers. -/

namespace Rypipe

namespace Stream

universe u v

variable {β : Type u} {ε : Type v} {job : Job β ε} {log : List (Action β ε)} {a : Action β ε}

/-! ## Runs are bounded -/

/-- What a worker has still to do. -/
def Worker.weight : Worker β ε → Nat
  | .waiting _ => 8
  | .parsing _ => 7
  | .sending _ _ => 6
  | .idle => 1
  | .stopped => 0

/-- What the coordinator has still to do. -/
def Stage.weight : Stage β ε → Nat
  | .delivering _ _ => 6
  | .draining => 4
  | .receiving => 3
  | .ended _ => 2
  | .joining _ => 1
  | .returned _ => 0

namespace Executor

variable {s s' : Executor job}

/-- A bound on the steps to come. -/
def potential (s : Executor job) : Nat :=
  8 * s.queue.length + (∑ w, (s.workers w).weight) + 4 * s.channel.length +
    3 * s.pending.keys.length + s.stage.weight

theorem potential_initial (job : Job β ε) :
    (initial job).potential = 8 * job.numChunks + job.workers + 3 := by
  have hworkers : (∑ w, ((initial job).workers w).weight) = job.workers := by
    show (∑ _w : Fin job.workers, 1) = job.workers
    simp
  rw [potential, hworkers]
  simp [initial, Stage.weight]

/-- A worker's step lowers the potential by what it loses. -/
theorem potential_setWorker (s : Executor job) (w : Fin job.workers) (x : Worker β ε) :
    (s.setWorker w x).potential + (s.workers w).weight = s.potential + x.weight := by
  have hsum := sum_update_add Worker.weight s.workers w x
  simp only [potential, setWorker]
  omega

/-- A worker that goes on to a lighter state lowers the potential, as all else stays where it is. -/
theorem potential_setWorker_lt {w : Fin job.workers} {x : Worker β ε}
    (h : x.weight < (s.workers w).weight) : (s.setWorker w x).potential < s.potential := by
  have hset := potential_setWorker s w x
  omega

/-- Taking the oldest chunk out of the queue lowers the potential by more than the worker that takes
it gains. -/
theorem potential_pop_lt {w : Fin job.workers} {seq : Nat} (hidle : s.workers w = .idle)
    (hpop : s.queue.getLast? = some seq) :
    ({ s with queue := s.queue.dropLast }.setWorker w (.waiting seq) : Executor job).potential <
      s.potential := by
  have hlen : s.queue.length = s.queue.dropLast.length + 1 := by
    conv_lhs => rw [← List.dropLast_append_getLast? seq hpop]
    rw [List.length_append, List.length_singleton]
  have hset := potential_setWorker { s with queue := s.queue.dropLast } w (.waiting seq)
  rw [show ({ s with queue := s.queue.dropLast } : Executor job).workers w = .idle from hidle] at hset
  simp only [Worker.weight] at hset
  have hqueue : ({ s with queue := s.queue.dropLast } : Executor job).potential + 8 =
      s.potential := by
    simp only [potential]
    omega
  omega

/-- A chunk in the channel weighs less than with the worker that sends it. -/
theorem potential_send_lt {w : Fin job.workers} {seq : Nat} {result : Except ε β}
    (hsending : s.workers w = .sending seq result) :
    ({ s with channel := s.channel ++ [(seq, result)] }.setWorker w (afterSend result) :
      Executor job).potential < s.potential := by
  have hset := potential_setWorker { s with channel := s.channel ++ [(seq, result)] } w
    (afterSend result)
  rw [show ({ s with channel := s.channel ++ [(seq, result)] } : Executor job).workers w =
    .sending seq result from hsending] at hset
  have hchannel : ({ s with channel := s.channel ++ [(seq, result)] } : Executor job).potential =
      s.potential + 4 := by
    simp only [potential, List.length_append, List.length_singleton]
    omega
  have hafter : (afterSend result).weight ≤ 1 := by
    cases result <;> simp [afterSend, Worker.weight]
  rw [show (Worker.sending seq result).weight = 6 from rfl] at hset
  omega

/-- Receiving a result lowers the potential. A failure ends the run, a batch in turn goes on to the
consumer, and one that is early moves to the reorder buffer, where it weighs less than in the
channel. -/
theorem potential_receive_lt {seq : Nat} {result : Except ε β} {rest : List (Nat × Except ε β)}
    (hstage : s.stage = .receiving) (hchannel : s.channel = (seq, result) :: rest) :
    ({ s with channel := rest }.receive seq result).potential < s.potential := by
  cases result with
  | error err =>
      simp only [Executor.receive, potential, hstage, hchannel, Stage.weight, List.length_cons]
      omega
  | ok b =>
      have hkeys : (s.pending.insert seq b).keys.length ≤ s.pending.keys.length + 1 := by
        rw [AList.keys_insert, List.length_cons]
        exact Nat.succ_le_succ List.length_erase_le
      rw [Executor.receive]
      split
      · dsimp only
        split
        · simp only [potential, hstage, hchannel, Stage.weight, List.length_cons]
          omega
        · simp only [potential, hstage, hchannel, List.length_cons]
          omega
      · simp only [potential, hstage, hchannel, Stage.weight, List.length_cons]
        omega

/-- Draining lowers the potential. Either the next batch leaves the reorder buffer for the consumer,
or none is there and the coordinator receives again. -/
theorem potential_drain_lt (hstage : s.stage = .draining) : s.drain.potential < s.potential := by
  rw [Executor.drain]
  split
  · next b hlook =>
    have hmem : s.nextSeq ∈ s.pending.keys := by
      rw [← AList.mem_keys, ← AList.lookup_isSome, hlook]
      rfl
    have hlen : (s.pending.erase s.nextSeq).keys.length + 1 = s.pending.keys.length := by
      rw [AList.keys_erase, List.length_erase_of_mem hmem]
      have := List.length_pos_of_mem hmem
      omega
    simp only [potential, hstage, Stage.weight]
    omega
  · simp [potential, hstage, Stage.weight]

/-- Every step lowers the potential. Each chunk has a weight by the place it is in, which falls from
the queue over the states of a worker, the channel and the reorder buffer to nothing; a worker that
stops and the stages of the coordinator lower it as well. -/
theorem Step.potential_lt (h : Step s a s') : s'.potential < s.potential := by
  cases h with
  -- the steps of a worker
  | pop w seq hidle hpop => exact potential_pop_lt hidle hpop
  | quit w hidle hempty => exact potential_setWorker_lt (by simp [hidle, Worker.weight])
  | enter w seq hwaiting hopen => exact potential_setWorker_lt (by simp [hwaiting, Worker.weight])
  | withdraw w seq hwaiting hordered hnone =>
      exact potential_setWorker_lt (by simp [hwaiting, Worker.weight])
  | parse w seq result hparsing hresult =>
      exact potential_setWorker_lt (by simp [hparsing, Worker.weight])
  | send w seq result hsending hlive hroom => exact potential_send_lt hsending
  | disconnected w seq result hsending hdead =>
      exact potential_setWorker_lt (by simp [hsending, Worker.weight])
  -- the steps of the coordinator
  | receive seq result rest hstage hchannel => exact potential_receive_lt hstage hchannel
  | consume seq b failure hstage =>
      cases failure with
      | some err => simp [Executor.answer, potential, hstage, Stage.weight]
      | none =>
          rw [Executor.answer]
          split <;> simp [potential, hstage, Stage.weight]
  | drain hstage => exact potential_drain_lt hstage
  | close hstage hchannel hstopped => simp [potential, hstage, Stage.weight]
  | release result hstage => simp [potential, hstage, Stage.weight]
  | join result hstage hstopped => simp [potential, hstage, Stage.weight]

/-- A worker that is not held back by the window or a full channel can go on. -/
theorem exists_step_worker (w : Fin job.workers)
    (hwaiting : ∀ seq, s.workers w = .waiting seq → job.ordered = true →
      s.dispatch = none ∨ ∃ next, s.dispatch = some next ∧ job.withholds next seq = false)
    (hsending : ∀ seq result, s.workers w = .sending seq result → s.stage.live = true →
      s.channel.length < max job.maxInFlight 1)
    (hbusy : s.workers w ≠ .stopped) :
    ∃ a s', Step s a s' ∧ a.calledSeq = none := by
  cases hw : s.workers w with
  | idle =>
      cases hpop : s.queue.getLast? with
      | none => exact ⟨_, _, .quit w hw (List.getLast?_eq_none_iff.mp hpop), rfl⟩
      | some seq => exact ⟨_, _, .pop w seq hw hpop, rfl⟩
  | waiting seq =>
      cases hord : job.ordered with
      | false => exact ⟨_, _, .enter w seq hw (fun h => by rw [hord] at h; cases h), rfl⟩
      | true =>
          rcases hwaiting seq hw hord with hnone | hopen
          · exact ⟨_, _, .withdraw w seq hw hord hnone, rfl⟩
          · exact ⟨_, _, .enter w seq hw (fun _ => hopen), rfl⟩
  | parsing seq =>
      exact ⟨_, _, .parse w seq (.ok (job.batch seq)) hw (fun b hb => (Except.ok.inj hb).symm), rfl⟩
  | sending seq result =>
      cases hlive : s.stage.live with
      | true => exact ⟨_, _, .send w seq result hw hlive (hsending seq result hw hlive), rfl⟩
      | false => exact ⟨_, _, .disconnected w seq result hw hlive, rfl⟩
  | stopped => exact absurd hw hbusy

/-- The worker with the next chunk is not held back by the window. While the coordinator waits and
the channel is empty, the next chunk is neither there nor in the reorder buffer, so it is with a
worker, or no worker has anything; and its number lies below the published bound. -/
theorem Flow.exists_open (h : s.Flow log) (hstage : s.stage = .receiving) (hchannel : s.channel = [])
    (hord : job.ordered = true) {w : Fin job.workers} (hbusy : s.workers w ≠ .stopped) :
    ∃ v, s.workers v ≠ .stopped ∧ ∀ seq, s.workers v = .waiting seq →
      ∃ next, s.dispatch = some next ∧ job.withholds next seq = false := by
  obtain ⟨next, hnext, hwin⟩ := h.window hord
  obtain ⟨rfl, hheld⟩ := hwin.receiving hstage
  by_contra hall
  push Not at hall
  -- then every worker that has not stopped waits for a chunk after the next one
  have hblocked : ∀ v, s.workers v ≠ .stopped → ∃ seq, s.workers v = .waiting seq ∧ s.nextSeq < seq := by
    intro v hv
    obtain ⟨seq, hseq, hclosed⟩ := hall v hv
    refine ⟨seq, hseq, ?_⟩
    have hwith := hclosed _ hnext
    have hlt : seq < job.numChunks := by
      rw [← Multiset.mem_range, ← h.places, Executor.places]
      have hmem : seq ∈ ∑ v, (s.workers v).held :=
        Multiset.mem_sum.mpr ⟨v, Finset.mem_univ v, by rw [hseq]; exact Multiset.mem_singleton_self _⟩
      simp [hmem]
    have hmax := job.numChunks_le
    rw [Bool.ne_false_iff, Job.withholds, hord, Bool.true_and, decide_eq_true_iff] at hwith
    simp only [saturatingAdd, Job.dispatchWindow, usizeMax] at hwith hmax
    omega
  obtain ⟨seq, hseq, hlt⟩ := hblocked w hbusy
  have hheldSeq : seq ∈ ∑ v, (s.workers v).held :=
    Multiset.mem_sum.mpr ⟨w, Finset.mem_univ w, by rw [hseq]; exact Multiset.mem_singleton_self _⟩
  -- so the next chunk is in the queue, where the chunk of a worker would be too
  have hplace : s.nextSeq ∈ s.places log := by
    rw [h.places, Multiset.mem_range]
    refine lt_trans hlt ?_
    rw [← Multiset.mem_range, ← h.places, Executor.places]
    simp [hheldSeq]
  have hqueue : s.nextSeq ∈ s.queue := by
    have hnot : s.nextSeq ∉ ∑ v, (s.workers v).held := by
      intro hmem
      obtain ⟨v, -, hv⟩ := Multiset.mem_sum.mp hmem
      by_cases hstop : s.workers v = .stopped
      · rw [hstop] at hv
        exact Multiset.notMem_zero _ hv
      · obtain ⟨n, hn, hgt⟩ := hblocked v hstop
        rw [hn] at hv
        exact hgt.ne (Multiset.mem_singleton.mp hv)
    have hcalled : s.nextSeq ∉ calledSeqs log := by
      rw [h.ordered hord, List.mem_range]
      exact lt_irrefl _
    rw [Executor.places, hchannel, hstage] at hplace
    simpa [hnot, hheld, hcalled, Stage.held] using hplace
  obtain ⟨k, hk⟩ := h.queue
  have hin : seq ∈ s.queue := by
    have hlast : seq < job.numChunks := by
      rw [← Multiset.mem_range, ← h.places, Executor.places]
      simp [hheldSeq]
    rw [hk, List.mem_reverse, List.mem_drop_iff_getElem] at hqueue ⊢
    obtain ⟨i, hi, heq⟩ := hqueue
    rw [List.getElem_range] at heq
    refine ⟨seq - k, ?_, ?_⟩
    · rw [List.length_range]
      omega
    · rw [List.getElem_range]
      omega
  have hnodup := (Multiset.nodup_add.mp (Multiset.nodup_add.mp (Multiset.nodup_add.mp
    (Multiset.nodup_add.mp h.nodup).1).1).1).1
  exact Multiset.disjoint_left.mp (Multiset.nodup_add.mp hnodup).2.2 (Multiset.mem_coe.mpr hin) hheldSeq

/-- Short of the return, some thread can go on, or the coordinator waits for the consumer. -/
theorem Inv.progress (h : s.Inv log) (hreturned : ∀ result, s.stage ≠ .returned result) :
    (∃ a s', Step s a s' ∧ a.calledSeq = none) ∨ ∃ seq b, s.stage = .delivering seq b := by
  cases hs : s.stage with
  | delivering seq b => exact .inr ⟨seq, b, rfl⟩
  | draining => exact .inl ⟨_, _, .drain hs, rfl⟩
  | ended result => exact .inl ⟨_, _, .release result hs, rfl⟩
  | returned result => exact absurd hs (hreturned result)
  -- the run is over, and every worker comes to its end
  | joining result =>
      refine .inl ?_
      by_cases hstopped : ∀ w, s.workers w = .stopped
      · exact ⟨_, _, .join result hs hstopped, rfl⟩
      · obtain ⟨w, hw⟩ := not_forall.mp hstopped
        refine exists_step_worker w (fun _ _ _ => .inl (h.released result hs)) (fun _ _ _ hlive => ?_) hw
        rw [hs] at hlive
        cases hlive
  -- either something is in the channel, or a worker can go on, or all have stopped
  | receiving =>
      refine .inl ?_
      cases hchannel : s.channel with
      | cons p rest => exact ⟨_, _, .receive p.1 p.2 rest hs hchannel, rfl⟩
      | nil =>
          by_cases hstopped : ∀ w, s.workers w = .stopped
          · exact ⟨_, _, .close hs hchannel hstopped, rfl⟩
          · obtain ⟨w, hw⟩ := not_forall.mp hstopped
            have hroom : s.channel.length < max job.maxInFlight 1 := by
              rw [hchannel, List.length_nil]
              omega
            cases hord : job.ordered with
            | false =>
                refine exists_step_worker w (fun _ _ ho => ?_) (fun _ _ _ _ => hroom) hw
                rw [hord] at ho
                cases ho
            | true =>
                obtain ⟨v, hv, hopen⟩ := (h.flow (by rw [hs]; rfl)).exists_open hs hchannel hord hw
                exact exists_step_worker v (fun seq hseq _ => .inr (hopen seq hseq))
                  (fun _ _ _ _ => hroom) hv

end Executor

open Executor in
/-- A run of the executor takes at most `8 * num_chunks + workers + 3` steps, never gets stuck before
it has returned, and can so always be brought to its return. -/
theorem executor_returns {s : Executor job} (h : Steps Executor.Step (initial job) log s) :
    log.length ≤ 8 * job.numChunks + job.workers + 3 ∧
      ((∀ result, s.stage ≠ .returned result) → ∃ a s', Executor.Step s a s') ∧
      ∃ log' s' result, Steps Executor.Step s log' s' ∧ s'.stage = .returned result := by
  have hprogress : ∀ {log : List (Action β ε)} {s : Executor job},
      Steps Executor.Step (initial job) log s → (∀ result, s.stage ≠ .returned result) →
      ∃ a s', Executor.Step s a s' := by
    intro log s h hreturned
    rcases (inv_of_steps h).progress hreturned with ⟨a, s', hstep, -⟩ | ⟨seq, b, hs⟩
    · exact ⟨a, s', hstep⟩
    · exact ⟨_, _, .consume seq b none hs⟩
  refine ⟨?_, hprogress h, ?_⟩
  · have hlen := h.length_le fun _ _ _ hstep => hstep.potential_lt
    rw [potential_initial] at hlen
    omega
  · obtain ⟨log', s', hrun, hstuck⟩ := exists_steps_stuck
      (fun _ _ _ hstep => Executor.Step.potential_lt hstep) s
    by_contra hnot
    push Not at hnot
    obtain ⟨a, t, hstep⟩ := hprogress (h.trans hrun) fun result => hnot log' s' result hrun
    exact hstuck a t hstep

section Examples

/-- The job of one chunk can be brought to its return. -/
theorem executor_returns_oneBatch : ∃ log' s' result,
    Steps Executor.Step (Executor.initial oneBatch) log' s' ∧ s'.stage = .returned result :=
  (executor_returns (.refl : Steps Executor.Step (Executor.initial oneBatch) [] _)).2.2

end Examples

end Stream

end Rypipe
