import Rypipe.Foundation.Handoff
import Rypipe.Spill.Accounting
import Rypipe.Spill.AnyConsumer

/-! # The serial iterator

`StreamingBatchIterator` runs `BoundedExecutor::run_stream` in a thread of its own, around a consumer
that sends every batch through a channel of one place. A run is a function of what its consumer answers,
so it is a producer whose state is the list of the answers. -/

namespace Rypipe

section Serial

variable [Platform]

open Handoff (Exit Producer Channel items produced started)

/-- A consumer with its answers in advance (`none` for `Ok`). After the last one it refuses, which cuts
the run: the error does not matter. -/
structure Script where
  answers : List (Option Error)
  /-- The batches it was given. -/
  asked : List RecordBatch := []

instance : BatchConsumer Script where
  consume c batch :=
    ({ answers := c.answers.tail, asked := c.asked ++ [batch] },
      match c.answers.head? with
      | some none => .ok ()
      | some (some err) => .error err
      | none => .error (.memory 0 0))

/-- The calls and sizes of a run of the sink, and the result of its parser. -/
structure SliceRun where
  options : SpillOptions
  engine : TableBuilder
  calls : List (TableBuilder.Call × Sizes)
  parsed : Except Error Unit
  sizes : Sizes

namespace SliceRun

variable (run : SliceRun)

/-- The run around a consumer. -/
def around {κ : Type} [BatchConsumer κ] (consumer : κ) : SpillSink κ × Except Error Unit :=
  ({ engine := run.engine, consumer } : SpillSink κ).runSliceSpill run.options run.calls run.parsed
    run.sizes

/-- The batches of the run. -/
def batches : List RecordBatch := (run.around ({} : CollectingConsumer)).1.consumer.batches

/-- Its result, if no batch is refused. -/
def result : Except Error Unit := (run.around ({} : CollectingConsumer)).2

/-- The batches a consumer with these answers is given. -/
def asked (answers : List (Option Error)) : List RecordBatch :=
  (run.around ({ answers } : Script)).1.consumer.asked

/-- The run as a producer: after some answers it gives the consumer its next batch, or ends. -/
def producer : Producer (List (Option Error)) (RecordBatch × Option Error) RecordBatch Error where
  step answers a answers' :=
    (run.asked answers)[answers.length]? = some a.1 ∧ answers' = answers ++ [a.2]
  call a := some a
  exit answers :=
    match (run.asked answers)[answers.length]? with
    | some _ => none
    | none => some (.finished (run.around ({ answers } : Script)).2)

end SliceRun

/-- The channel of the serial iterator. -/
def serialChannel (disconnected : Error) : Channel Error where
  capacity := 1
  disconnected := disconnected
  stopsAtError := false

/-! ## What a script is given -/

open SpillSink (feed)

/-- A script that takes no fewer batches than there are is given all. -/
theorem feed_of_le (asked : List RecordBatch) {k : Nat} {bs : List RecordBatch} (h : bs.length ≤ k) :
    feed ({ answers := List.replicate k none, asked } : Script) bs =
      ({ answers := List.replicate (k - bs.length) none, asked := asked ++ bs }, none) := by
  induction bs generalizing k asked with
  | nil => simp [feed]
  | cons b bs ih =>
      obtain ⟨k, rfl⟩ : ∃ n, k = n + 1 := ⟨k - 1, by rw [List.length_cons] at h; omega⟩
      have hrest := ih (asked ++ [b]) (k := k) (by simpa using h)
      rw [feed]
      simp only [consume, List.replicate_succ, List.head?_cons, List.tail_cons]
      rw [hrest]
      simp

/-- Otherwise it is given as many as it takes, and the one it answers next. -/
theorem feed_of_lt (asked : List RecordBatch) (later : List (Option Error)) {k : Nat}
    {bs : List RecordBatch} (h : k < bs.length) (hlater : later.head? ≠ some none) :
    ∃ answers err, feed ({ answers := List.replicate k none ++ later, asked } : Script) bs =
      ({ answers, asked := asked ++ bs.take (k + 1) }, some err) := by
  induction bs generalizing k asked with
  | nil => cases h
  | cons b bs ih =>
      cases k with
      | zero =>
          rw [feed]
          simp only [consume, List.replicate_zero, List.nil_append, List.take_succ_cons, List.take_zero]
          rcases hhead : later.head? with _ | _ | err
          · exact ⟨_, _, rfl⟩
          · exact absurd hhead hlater
          · exact ⟨_, _, rfl⟩
      | succ k =>
          obtain ⟨answers, err, hrest⟩ := ih (asked ++ [b]) (k := k) (by simpa using h)
          refine ⟨answers, err, ?_⟩
          rw [feed]
          simp only [consume, List.replicate_succ, List.cons_append, List.head?_cons, List.tail_cons]
          rw [hrest]
          simp

/-- A script is given no more than there is: each batch asks it at most once. -/
theorem asked_length_feed (c : Script) (bs : List RecordBatch) :
    (feed c bs).1.asked.length ≤ c.asked.length + bs.length := by
  induction bs generalizing c with
  | nil => exact le_rfl
  | cons b bs ih =>
      rw [feed]
      simp only [consume]
      rcases c.answers.head? with _ | _ | err
      · simp
      · refine (ih _).trans ?_
        simp
        omega
      · simp

namespace SliceRun

variable (run : SliceRun)

/-- What a run gives its consumer, by the batches of the collecting run. -/
theorem sees (consumer : Script) :
    (run.around consumer).1.consumer = (feed consumer run.batches).1 ∧
      ((feed consumer run.batches).2 = none → (run.around consumer).2 = run.result) := by
  have hstart : SpillSink.Sees consumer ({ engine := run.engine, consumer } : SpillSink Script)
      ({ engine := run.engine, consumer := {} } : SpillSink CollectingConsumer) := .fed rfl rfl rfl rfl
  obtain ⟨hconsumer, hnone, -⟩ := hstart.run run.options run.calls run.parsed run.sizes
  exact ⟨hconsumer, hnone⟩

/-- After batches were taken, the next one is given, or the run ends with its result. -/
theorem asked_replicate {k : Nat} (hk : k ≤ run.batches.length) :
    (run.asked (List.replicate k none))[k]? = run.batches[k]? ∧
      (k = run.batches.length →
        (run.around ({ answers := List.replicate k none } : Script)).2 = run.result) := by
  obtain ⟨hconsumer, hnone⟩ := run.sees { answers := List.replicate k none }
  rcases hk.lt_or_eq with hlt | rfl
  · obtain ⟨answers, err, hfeed⟩ := feed_of_lt [] [] hlt (by simp)
    rw [List.append_nil] at hfeed
    rw [asked, hconsumer, hfeed]
    refine ⟨?_, fun heq => absurd heq hlt.ne⟩
    rw [List.nil_append, List.getElem?_take, if_pos (Nat.lt_succ_self k)]
  · have hfeed := feed_of_le [] (le_refl run.batches.length)
    rw [asked, hconsumer, hfeed]
    exact ⟨rfl, fun _ => hnone (by rw [hfeed])⟩

/-- After a refusal the run ends. -/
theorem asked_refused {k : Nat} (hk : k < run.batches.length) (err : Error) :
    (run.asked (List.replicate k none ++ [some err]))[k + 1]? = none := by
  obtain ⟨hconsumer, -⟩ := run.sees { answers := List.replicate k none ++ [some err] }
  obtain ⟨answers, err', hfeed⟩ := feed_of_lt [] [some err] hk (by simp)
  rw [asked, hconsumer, hfeed, List.nil_append, List.getElem?_take, if_neg (lt_irrefl _)]

/-- Where a run of the producer is: it took some batches, and may have refused the next one. -/
inductive Answered (log : List (RecordBatch × Option Error)) (answers : List (Option Error)) : Prop
  | taken (k : Nat) (hk : k ≤ run.batches.length) (h : answers = List.replicate k none)
      (htaken : run.producer.taken log = run.batches.take k) (hun : run.producer.Unrefused log)
  | refused (k : Nat) (hk : k < run.batches.length) (err : Error)
      (h : answers = List.replicate k none ++ [some err])
      (htaken : run.producer.taken log = run.batches.take k) (hun : ¬ run.producer.Unrefused log)

/-- What a run of the producer has taken. -/
theorem answered {log : List (RecordBatch × Option Error)} {answers : List (Option Error)}
    (h : Steps run.producer.step [] log answers) : run.Answered log answers := by
  induction h with
  | refl => exact .taken 0 (Nat.zero_le _) rfl rfl fun a ha => by cases ha
  | @snoc log answers a answers' hrun hstep ih =>
      obtain ⟨hask, rfl⟩ := hstep
      have htakes := run.producer.taken_append log a
      cases ih with
      -- after a refusal the parse asks for no further batch
      | refused k hk err h htaken hun =>
          rw [h, List.length_append, List.length_replicate, List.length_singleton,
            run.asked_refused hk err] at hask
          cases hask
      -- so far every batch was taken, and the next one is taken or refused
      | taken k hk h htaken hun =>
          rw [h, List.length_replicate, (run.asked_replicate hk).1] at hask
          obtain ⟨hlt, hget⟩ := List.getElem?_eq_some_iff.mp hask
          obtain ⟨b, answer⟩ := a
          cases answer with
          | none =>
              refine .taken (k + 1) hlt ?_ ?_ fun a' ha' b' err => ?_
              · rw [h, List.replicate_succ']
              · rw [htakes, htaken, List.take_add_one, hask]
                rfl
              · rcases List.mem_append.mp ha' with hold | hnew
                · exact hun a' hold b' err
                · obtain rfl := List.mem_singleton.mp hnew
                  simp [producer]
          | some err =>
              refine .refused k hlt err (by rw [h]) ?_ fun hnot => ?_
              · rw [htakes, htaken]
                exact List.append_nil _
              · exact hnot (b, some err) (List.mem_append_right _ (List.mem_singleton_self _)) b err rfl

/-- The run of a thread does not get stuck, and gives no more batches than there are. -/
theorem lively : Handoff.Lively run.producer [] fun answers => run.batches.length - answers.length where
  decreases answers a answers' hstep := by
    obtain ⟨hask, rfl⟩ := hstep
    have hle : (run.asked answers).length ≤ run.batches.length := by
      obtain ⟨hconsumer, -⟩ := run.sees { answers }
      rw [asked, hconsumer]
      exact (asked_length_feed _ _).trans (Nat.zero_add _).le
    have hlt := (List.getElem?_eq_some_iff.mp hask).1
    rw [List.length_append, List.length_singleton]
    omega
  progress log answers hrun hexit := by
    cases hask : (run.asked answers)[answers.length]? with
    | none =>
        simp only [producer, hask] at hexit
        cases hexit
    | some b => exact .inr ⟨b, fun failure => ⟨(b, failure), _, ⟨hask, rfl⟩, rfl⟩⟩

end SliceRun

/-- The calls of `next` on a serial iterator return, in every interleaving, the batches that the run
hands a collecting consumer, in order; if they return more, it is after the last one: the error of the
run, if it has one, and then `None` forever. -/
theorem serial_iterator (run : SliceRun) {disconnected : Error}
    {s : Handoff.State (List (Option Error)) RecordBatch Error}
    {log : List (Handoff.Event (RecordBatch × Option Error) RecordBatch Error)}
    (h : Steps (Handoff.Step run.producer (serialChannel disconnected)) (started []) log s) :
    (∃ bs, bs <+: run.batches ∧ items log = bs.map fun b => some (.ok b)) ∨
      ∃ k, items log = run.batches.map (fun b => some (.ok b)) ++ (Exit.finished run.result).items ++
        List.replicate k none := by
  have hinv := Handoff.inv_of_steps h
  have hanswered := run.answered hinv.run
  rcases hinv.served with ⟨bs, hbs, hitems⟩ | ⟨hun, exit, k, hexit, hitems⟩
  · refine .inl ⟨bs, hbs.trans ?_, hitems⟩
    cases hanswered with
    | taken k hk h htaken hun => exact htaken ▸ List.take_prefix _ _
    | refused k hk err h htaken hun => exact htaken ▸ List.take_prefix _ _
  · cases hanswered with
    | refused n hn err h htaken hnot => exact absurd hun hnot
    | taken n hn h htaken _ =>
        obtain ⟨hask, hresult⟩ := run.asked_replicate hn
        -- the run exits when all batches are taken, with its own result
        have hend : n = run.batches.length ∧ exit = .finished run.result := by
          have hx : run.producer.exit s.producer = some exit := hexit
          rw [h, SliceRun.producer] at hx
          dsimp only at hx
          rw [List.length_replicate, hask] at hx
          rcases hn.lt_or_eq with hlt | heq
          · rw [List.getElem?_eq_getElem hlt] at hx
            cases hx
          · rw [heq, List.getElem?_eq_none (le_refl _)] at hx
            refine ⟨heq, ?_⟩
            rw [← heq, hresult heq] at hx
            exact (Option.some.inj hx).symm
        refine .inr ⟨k, ?_⟩
        rw [hitems, htaken, hend.1, List.take_length, hend.2]

/-- A call of `next` on a serial iterator returns, and once the iterator is dropped its thread ends: in
every state the steps that are not the caller's choice are bounded in number, and they only come to an
end between two calls, or when the thread of a dropped iterator has ended. -/
theorem serial_iterator_returns (run : SliceRun) {disconnected : Error}
    {s : Handoff.State (List (Option Error)) RecordBatch Error}
    {log : List (Handoff.Event (RecordBatch × Option Error) RecordBatch Error)}
    (h : Steps (Handoff.Step run.producer (serialChannel disconnected)) (started []) log s) :
    (∃ bound, ∀ log' s', Steps (Handoff.Step run.producer (serialChannel disconnected)) s log' s' →
        (∀ e ∈ log', e.quiet = true) → log'.length ≤ bound) ∧
      ((∀ e s', Handoff.Step run.producer (serialChannel disconnected) s e s' → e.quiet = false) →
        s.caller = .between ∨ s.caller = .gone ∧ ∃ panic, s.thread = .ended panic) := by
  obtain ⟨hbound, hrest⟩ := Handoff.comes_to_rest h run.lively
  exact ⟨⟨_, hbound⟩, hrest⟩

end Serial

section Examples

attribute [local instance] integerPlatform

open Handoff (Exit items started)

/-- A run over one row. -/
def oneRowRun : SliceRun where
  options := SpillSink.everyRow
  engine := TableBuilder.start {} none
  calls := SpillSink.oneField "k" "1"
  parsed := .ok ()
  sizes := {}

/-- The batch of the row. -/
def oneRowBatch : RecordBatch := ⟨[("k", .utf8)], [⟨.utf8, [some (.str "1")]⟩], 1⟩

/-- The caller receives the batch and then `None`. -/
theorem oneRowRun_received : ∃ log s, Steps (Handoff.Step oneRowRun.producer
      (serialChannel (.plan "disconnected"))) (started []) log s ∧
    items log = [some (.ok oneRowBatch), none] := by
  have hcall := Steps.single (Handoff.Step.call (P := oneRowRun.producer)
    (c := serialChannel (.plan "disconnected")) (s := started []) rfl rfl)
  have hdeliver := hcall.snoc (.deliver (oneRowBatch, none) [none] oneRowBatch rfl rfl ⟨rfl, rfl⟩ rfl
    (fun h => by cases h) (.inl (by decide)))
  have hreceive := hdeliver.snoc (.receive (.ok oneRowBatch) [] rfl rfl)
  have hfinish := hreceive.snoc (.finish (.finished (.ok ())) rfl rfl)
  have hleave := hfinish.snoc (.leave none rfl)
  have hagain := hleave.snoc (.call rfl rfl)
  have hhangUp := hagain.snoc (.hangUp none rfl rfl (.inr rfl))
  exact ⟨_, _, hhangUp.snoc (.join none rfl rfl), rfl⟩

/-- These are the batches of the run, and its end. -/
theorem serial_iterator_one : ∃ log s, Steps (Handoff.Step oneRowRun.producer
      (serialChannel (.plan "disconnected"))) (started []) log s ∧
    items log = [some (.ok oneRowBatch), none] ∧
    ((∃ bs, bs <+: oneRowRun.batches ∧ items log = bs.map fun b => some (.ok b)) ∨
      ∃ k, items log = oneRowRun.batches.map (fun b => some (.ok b)) ++
        (Exit.finished oneRowRun.result).items ++ List.replicate k none) := by
  obtain ⟨log, s, hs, hitems⟩ := oneRowRun_received
  exact ⟨log, s, hs, hitems, serial_iterator oneRowRun hs⟩

/-- The next call returns. -/
theorem serial_iterator_returns_one : ∃ log s, Steps (Handoff.Step oneRowRun.producer
      (serialChannel (.plan "disconnected"))) (started []) log s ∧
    items log = [some (.ok oneRowBatch), none] ∧
    ∃ bound, ∀ log' s', Steps (Handoff.Step oneRowRun.producer
        (serialChannel (.plan "disconnected"))) s log' s' →
      (∀ e ∈ log', e.quiet = true) → log'.length ≤ bound := by
  obtain ⟨log, s, hs, hitems⟩ := oneRowRun_received
  exact ⟨log, s, hs, hitems, (serial_iterator_returns oneRowRun hs).1⟩

end Examples

end Rypipe
