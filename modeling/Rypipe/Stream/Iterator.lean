import Rypipe.Foundation.Handoff
import Rypipe.Stream.Returns
import Mathlib.Data.List.ReduceOption

/-! # The streaming iterators

`ParallelStreamingBatchIterator` and `StreamingBatchIterator` run an executor in a thread of their own,
around a consumer that sends every batch through a bounded channel; `next` reads the other end. Here the
two are instances of a producer behind an iterator. -/

namespace Rypipe

namespace Stream

universe u v

open Handoff (Exit Producer Channel items produced started)

variable {β : Type u} {ε : Type v} {job : Job β ε}

/-! ## The parallel iterator -/

/-- The thread of the parallel iterator: `run_stream` opens the input and plans the run, which may fail,
panic, or find nothing to do, and then runs the executor. -/
inductive StreamRun (job : Job β ε) where
  | planning
  | aborted (exit : Exit ε)
  | executing (s : Executor job)

namespace StreamRun

inductive Step : StreamRun job → Option (Action β ε) → StreamRun job → Prop
  | abort (exit : Exit ε) : Step .planning none (.aborted exit)
  | start : Step .planning none (.executing (Executor.initial job))
  | execute {s s' : Executor job} {a : Action β ε} (h : Executor.Step s a s') :
      Step (.executing s) (some a) (.executing s')

/-- How the thread ends. -/
def exit : StreamRun job → Option (Exit ε)
  | .planning => none
  | .aborted exit => some exit
  | .executing s =>
      match s.stage with
      | .returned result => some (.finished result)
      | .receiving | .delivering _ _ | .draining | .ended _ | .joining _ => none

end StreamRun

/-- The call of the consumer in an action. -/
def Action.answered : Action β ε → Option (β × Option ε)
  | .consumed _ b failure => some (b, failure)
  | .internal | .parsed _ _ => none

/-- `run_stream`, as a producer of batches. -/
def streamRun (job : Job β ε) : Producer (StreamRun job) (Option (Action β ε)) β ε where
  step := StreamRun.Step
  call a := a.bind Action.answered
  exit := StreamRun.exit

/-- The channel of the parallel iterator. -/
def parallelChannel (job : Job β ε) (disconnected : ε) : Channel ε where
  capacity := 2 * job.threads
  disconnected := disconnected
  stopsAtError := true

/-- The chunk whose batch the consumer has taken in a step. -/
def Action.acceptedSeq : Action β ε → Option Nat
  | .consumed seq _ none => some seq
  | .consumed _ _ (some _) | .internal | .parsed _ _ => none

/-- The chunks whose batches the consumer has taken. -/
def acceptedSeqs (log : List (Action β ε)) : List Nat := log.filterMap Action.acceptedSeq

section Runs

variable {log : List (Option (Action β ε))} {actions : List (Action β ε)} {p : StreamRun job}

/-- The runs of the thread are those of the executor, once it has started. -/
theorem steps_streamRun (h : Steps (streamRun job).step .planning log p) :
    (p = .planning ∧ log.reduceOption = []) ∨ (∃ exit, p = .aborted exit ∧ log.reduceOption = []) ∨
      ∃ s, p = .executing s ∧ Steps Executor.Step (Executor.initial job) log.reduceOption s := by
  induction h with
  | refl => exact .inl ⟨rfl, rfl⟩
  | snoc _ hstep ih =>
      rw [List.reduceOption_append]
      cases hstep with
      | abort exit =>
          obtain ⟨-, hnil⟩ | ⟨_, hp, -⟩ | ⟨_, hp, -⟩ := ih
          · exact .inr (.inl ⟨exit, rfl, by rw [hnil]; rfl⟩)
          · cases hp
          · cases hp
      | start =>
          obtain ⟨-, hnil⟩ | ⟨_, hp, -⟩ | ⟨_, hp, -⟩ := ih
          · exact .inr (.inr ⟨_, rfl, by rw [hnil]; exact .refl⟩)
          · cases hp
          · cases hp
      | execute hs =>
          obtain ⟨hp, -⟩ | ⟨_, hp, -⟩ | ⟨s, hp, hrun⟩ := ih
          · cases hp
          · cases hp
          · cases hp
            exact .inr (.inr ⟨_, rfl, hrun.snoc hs⟩)

/-- The batches the consumer has taken are those of the accepted chunks. -/
theorem taken_streamRun
    (hbatch : ∀ seq b failure, Action.consumed seq b failure ∈ log.reduceOption → b = job.batch seq) :
    (streamRun job).taken log = (acceptedSeqs log.reduceOption).map job.batch := by
  induction log with
  | nil => rfl
  | cons a log ih =>
      cases a with
      | none =>
          rw [List.reduceOption_cons_of_none] at hbatch ⊢
          exact ih hbatch
      | some a =>
          rw [List.reduceOption_cons_of_some] at hbatch ⊢
          have hrest := ih fun seq b failure hmem => hbatch seq b failure (List.mem_cons_of_mem _ hmem)
          cases a with
          | internal => exact hrest
          | parsed seq result => exact hrest
          | consumed seq b failure =>
              cases failure with
              | some err => exact hrest
              | none =>
                  obtain rfl := hbatch seq b none List.mem_cons_self
                  exact congrArg (job.batch seq :: ·) hrest

/-- Without a failure, every call has taken its batch. -/
theorem acceptedSeqs_of_unrefused (h : Unrefused actions) : acceptedSeqs actions = calledSeqs actions := by
  refine List.filterMap_congr fun a ha => ?_
  cases a with
  | internal => rfl
  | parsed seq result => rfl
  | consumed seq b failure =>
      cases failure with
      | none => rfl
      | some err => exact absurd ha (h seq b err)

/-- The calls are those that have taken a batch, and at most a last one that failed. -/
theorem calledSeqs_eq (h : ∀ before seq b err after,
      actions = before ++ .consumed seq b (some err) :: after → calledSeqs after = []) :
    acceptedSeqs actions <+: calledSeqs actions := by
  by_cases hun : Unrefused actions
  · rw [acceptedSeqs_of_unrefused hun]
  · obtain ⟨seq, b, err, hmem⟩ : ∃ seq b err, Action.consumed seq b (some err) ∈ actions := by
      by_contra hnot
      exact hun fun seq b err hmem => hnot ⟨seq, b, err, hmem⟩
    obtain ⟨before, after, heq⟩ := List.append_of_mem hmem
    have hafter := h before seq b err after heq
    have hbefore : Unrefused before := by
      intro n b' err' hmem'
      obtain ⟨first, between, hsplit⟩ := List.append_of_mem hmem'
      have hnil := h first n b' err' (between ++ .consumed seq b (some err) :: after)
        (by rw [heq, hsplit, List.append_assoc, List.cons_append])
      rw [calledSeqs, List.filterMap_append] at hnil
      have hcons := (List.append_eq_nil_iff.mp hnil).2
      cases hcons
    have haccepted : acceptedSeqs after = [] := by
      refine List.filterMap_eq_nil_iff.mpr fun a ha => ?_
      have hnone := List.filterMap_eq_nil_iff.mp hafter a ha
      cases a with
      | consumed n b' failure => cases hnone
      | internal => rfl
      | parsed n result => rfl
    have hsplit : acceptedSeqs actions = acceptedSeqs before := by
      rw [heq, acceptedSeqs, List.filterMap_append]
      exact (congrArg (acceptedSeqs before ++ ·) haccepted).trans (List.append_nil _)
    rw [hsplit, acceptedSeqs_of_unrefused hbefore, heq, calledSeqs, calledSeqs, List.filterMap_append]
    exact List.prefix_append _ _

end Runs

/-- A bound on the steps of the thread. -/
def StreamRun.potential : StreamRun job → Nat
  | .planning => 8 * job.numChunks + job.workers + 4
  | .aborted _ => 0
  | .executing s => s.potential

/-- The thread does not get stuck, and does not run forever. -/
theorem lively_streamRun (job : Job β ε) :
    Handoff.Lively (streamRun job) .planning StreamRun.potential where
  decreases p a p' hstep := by
    cases hstep with
    | abort exit => exact Nat.succ_pos _
    | start =>
        rw [StreamRun.potential, StreamRun.potential, Executor.potential_initial]
        exact Nat.lt_succ_self _
    | execute hs => exact hs.potential_lt
  progress log p hrun hexit := by
    obtain ⟨rfl, -⟩ | ⟨exit, rfl, -⟩ | ⟨s, rfl, hs⟩ := steps_streamRun hrun
    · exact .inl ⟨none, _, .start, rfl⟩
    · cases hexit
    · have hreturned : ∀ result, s.stage ≠ .returned result := by
        intro result hstage
        have hsome : (StreamRun.executing s).exit = some (.finished result) := by
          rw [StreamRun.exit, hstage]
        rw [show (streamRun job).exit (.executing s) = _ from hsome] at hexit
        cases hexit
      rcases (Executor.inv_of_steps hs).progress hreturned with ⟨a, s', hstep, hcall⟩ | ⟨seq, b, hstage⟩
      · refine .inl ⟨some a, .executing s', .execute hstep, ?_⟩
        cases a with
        | consumed seq b failure => cases hcall
        | internal => rfl
        | parsed seq result => rfl
      · exact .inr ⟨b, fun failure => ⟨_, _, .execute (.consume seq b failure hstage), rfl⟩⟩

/-- What the consumer has had of a run: batches of different chunks of the job, in order if the run
is ordered. They are the accepted calls of the executor's log, which has every call once. -/
theorem accepted_streamRun {log : List (Option (Action β ε))} {p : StreamRun job}
    (h : Steps (streamRun job).step .planning log p) :
    (streamRun job).taken log = (acceptedSeqs log.reduceOption).map job.batch ∧
      (acceptedSeqs log.reduceOption).Nodup ∧
      (∀ seq ∈ acceptedSeqs log.reduceOption, seq < job.numChunks) ∧
      (job.ordered = true → acceptedSeqs log.reduceOption =
        List.range (acceptedSeqs log.reduceOption).length) := by
  -- before the executor starts nothing has been delivered
  have hnone : log.reduceOption = [] → (streamRun job).taken log =
        (acceptedSeqs log.reduceOption).map job.batch ∧ (acceptedSeqs log.reduceOption).Nodup ∧
      (∀ seq ∈ acceptedSeqs log.reduceOption, seq < job.numChunks) ∧
      (job.ordered = true → acceptedSeqs log.reduceOption =
        List.range (acceptedSeqs log.reduceOption).length) := by
    intro hnil
    refine ⟨taken_streamRun fun seq b failure hmem => ?_, ?_⟩
    · rw [hnil] at hmem
      cases hmem
    · rw [hnil]
      simp [acceptedSeqs]
  obtain ⟨-, hnil⟩ | ⟨exit, -, hnil⟩ | ⟨s, -, hs⟩ := steps_streamRun h
  · exact hnone hnil
  · exact hnone hnil
  · have hinv := Executor.inv_of_steps hs
    obtain ⟨hnodup, hordered, -⟩ := hinv.calls
    -- the accepted chunks are the ones handed over, but for a last one that was refused
    have hinit := calledSeqs_eq hinv.sound.last
    refine ⟨taken_streamRun fun seq b failure hmem => ?_, hinit.sublist.nodup hnodup,
      fun seq hseq => ?_, fun hord => ?_⟩
    · exact hinv.sound.batch seq b (hinv.sound.called seq b failure hmem)
    · obtain ⟨a, ha, heq⟩ := List.mem_filterMap.mp (hinit.subset hseq)
      cases a with
      | consumed n b failure =>
          obtain rfl := Option.some.inj heq
          have hparsed := mem_parsedSeqs (hinv.sound.called _ b failure ha)
          refine Multiset.mem_range.mp (Multiset.mem_of_le hinv.sound.once ?_)
          rw [add_assoc]
          exact Multiset.mem_add.mpr (.inl (Multiset.mem_coe.mpr hparsed))
      | internal => cases heq
      | parsed n result => cases heq
    · have hle := hinit.length_le
      rw [hordered hord] at hinit
      have htake := List.prefix_iff_eq_take.mp hinit
      rwa [List.take_range, min_eq_left hle] at htake

/-- How a thread whose consumer never failed has ended. -/
theorem exit_streamRun {log : List (Option (Action β ε))} {p : StreamRun job} {exit : Exit ε}
    (h : Steps (streamRun job).step .planning log p) (hexit : (streamRun job).exit p = some exit)
    (hun : (streamRun job).Unrefused log) :
    p = .aborted exit ∨
      (exit = .finished (.ok ()) ∧ (acceptedSeqs log.reduceOption).Perm (List.range job.numChunks)) ∨
      ∃ err, exit = .finished (.error err) ∧ Reason job log.reduceOption err ∧
        Unrefused log.reduceOption := by
  have hunref : Unrefused log.reduceOption := by
    intro seq b err hmem
    exact hun _ (List.reduceOption_mem_iff.mp hmem) b err rfl
  obtain ⟨rfl, -⟩ | ⟨exit', rfl, -⟩ | ⟨s, rfl, hs⟩ := steps_streamRun h
  · cases hexit
  · obtain rfl := Option.some.inj hexit
    exact .inl rfl
  · have hinv := Executor.inv_of_steps hs
    have hreturned : ∃ result, s.stage = .returned result ∧ exit = .finished result := by
      have hx : (StreamRun.executing s).exit = some exit := hexit
      rw [StreamRun.exit] at hx
      split at hx
      · next result hstage => exact ⟨result, hstage, (Option.some.inj hx).symm⟩
      all_goals cases hx
    obtain ⟨result, hstage, rfl⟩ := hreturned
    have hsettled := hinv.settled result (by rw [hstage]; rfl)
    cases result with
    | ok u =>
        refine .inr (.inl ⟨rfl, ?_⟩)
        rw [acceptedSeqs_of_unrefused hunref]
        exact (hsettled.ok rfl).1
    | error err => exact .inr (.inr ⟨err, rfl, hsettled.error err rfl, hunref⟩)

/-- A call of `next` on a parallel iterator returns, and once the iterator is dropped its threads end:
in every state the steps that are not the caller's choice are bounded in number, and they only come to
an end between two calls, or when the threads of a dropped iterator have ended. -/
theorem parallel_iterator_returns {disconnected : ε} {s : Handoff.State (StreamRun job) β ε}
    {log : List (Handoff.Event (Option (Action β ε)) β ε)}
    (h : Steps (Handoff.Step (streamRun job) (parallelChannel job disconnected)) (started .planning)
      log s) :
    (∃ bound, ∀ log' s', Steps (Handoff.Step (streamRun job) (parallelChannel job disconnected)) s
        log' s' → (∀ e ∈ log', e.quiet = true) → log'.length ≤ bound) ∧
      ((∀ e s', Handoff.Step (streamRun job) (parallelChannel job disconnected) s e s' →
          e.quiet = false) →
        s.caller = .between ∨ s.caller = .gone ∧ ∃ panic, s.thread = .ended panic) := by
  obtain ⟨hbound, hrest⟩ := Handoff.comes_to_rest h (lively_streamRun job)
  exact ⟨⟨_, hbound⟩, hrest⟩

section Examples

/-- The caller of an iterator over one chunk receives its batch, whatever the run does next. -/
theorem oneBatch_received : ∃ log s, Steps (Handoff.Step (streamRun oneBatch)
      (parallelChannel oneBatch "disconnected")) (started .planning) log s ∧
    items log = [some (.ok 7)] := by
  have hcall := Steps.single (Handoff.Step.call (P := streamRun oneBatch)
    (c := parallelChannel oneBatch "disconnected") (s := started .planning) rfl rfl)
  have hstart := hcall.snoc (.produce none _ rfl rfl .start rfl)
  have hpop := hstart.snoc
    (.produce (some .internal) _ rfl rfl (.execute (.pop loneWorker 0 rfl rfl)) rfl)
  have henter := hpop.snoc (.produce (some .internal) _ rfl rfl
    (.execute (.enter loneWorker 0 rfl fun h => by cases h)) rfl)
  have hparse := henter.snoc (.produce (some (.parsed 0 (.ok 7))) _ rfl rfl
    (.execute (.parse loneWorker 0 (.ok 7) rfl fun b hb => by cases hb; rfl)) rfl)
  have hsend := hparse.snoc (.produce (some .internal) _ rfl rfl
    (.execute (.send loneWorker 0 (.ok 7) rfl rfl (by decide))) rfl)
  have hreceive := hsend.snoc (.produce (some .internal) _ rfl rfl
    (.execute (.receive 0 (.ok 7) [] rfl rfl)) rfl)
  have hdeliver := hreceive.snoc (.deliver (some (.consumed 0 7 none)) _ 7 rfl rfl
    (.execute (.consume 0 7 none rfl)) rfl (fun h => by cases h) (.inl (by decide)))
  exact ⟨_, _, hdeliver.snoc (.receive (.ok 7) [] rfl rfl), rfl⟩

/-- Nor can the threads keep the next call waiting. -/
theorem parallel_iterator_returns_one : ∃ log s, Steps (Handoff.Step (streamRun oneBatch)
      (parallelChannel oneBatch "disconnected")) (started .planning) log s ∧
    items log = [some (.ok 7)] ∧
    ∃ bound, ∀ log' s', Steps (Handoff.Step (streamRun oneBatch)
        (parallelChannel oneBatch "disconnected")) s log' s' →
      (∀ e ∈ log', e.quiet = true) → log'.length ≤ bound := by
  obtain ⟨log, s, hs, hone⟩ := oneBatch_received
  exact ⟨log, s, hs, hone, (parallel_iterator_returns hs).1⟩

end Examples

end Stream

end Rypipe
