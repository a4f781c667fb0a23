import Rypipe.Engine.Memory

/-! # The spilling sink

`SpillSink` (`spill.rs`) forwards the row interface to a table builder, and hands the rows to a
consumer as a record batch whenever enough of them have come together. The sizes it reads, which depend
on the allocator, come with the calls. -/

namespace Rypipe

section Spill

variable [Platform]

/-- `MemoryBudget`. -/
structure MemoryBudget where
  bytes : Nat
  strict : Bool

/-- `share`. -/
def MemoryBudget.share (budget : MemoryBudget) (count : Nat) : MemoryBudget :=
  { budget with bytes := budget.bytes / max count 1 }

/-- `check`. -/
def MemoryBudget.check (budget : MemoryBudget) (used : Nat) : Except Error Unit :=
  if budget.strict && decide (budget.bytes < used) then .error (.memory used budget.bytes)
  else .ok ()

/-- `BatchConsumer`. -/
class BatchConsumer (κ : Type) where
  /-- `consume`, with the consumer afterwards. -/
  consume : κ → RecordBatch → κ × Except Error Unit

export BatchConsumer (consume)

/-- `CollectingConsumer`. -/
structure CollectingConsumer where
  batches : List RecordBatch := []

instance : BatchConsumer CollectingConsumer where
  consume c batch := (⟨c.batches ++ [batch]⟩, .ok ())

/-- `StreamStats`, without the peak. -/
structure StreamStats where
  batches : Nat := 0
  rows : Nat := 0
  oversizeBatches : Nat := 0

/-- How a sink spills. -/
structure SpillOptions where
  rowsPerBatch : Nat
  batchTargetBytes : Nat
  softCapBytes : Nat
  /-- The budget cannot hold a row: the capacity does not make the sink spill. -/
  oversize : Bool
  budget : MemoryBudget
  /-- `memory_limit` of the builder. -/
  memoryLimit : Option Nat

/-- The options without a memory limit. -/
def SpillOptions.unlimited (options : SpillOptions) : SpillOptions :=
  { options with memoryLimit := none }

/-- The sizes that are read at a call. -/
structure Sizes where
  /-- `capacity_bytes` of the builder when memory is reserved. -/
  reserve : Nat := 0
  /-- `capacity_bytes` of the builder when the sink decides whether to spill. -/
  grown : Nat := 0
  /-- `capacity_bytes` of the rows that are cut off. -/
  part : Nat := 0
  /-- `get_array_memory_size` of their batch. -/
  batch : Nat := 0

/-- `SpillSink`: the builder, the consumer, the counts, and the error that waits for the end of the
run. -/
structure SpillSink (κ : Type) where
  engine : TableBuilder
  consumer : κ
  stats : StreamStats := {}
  error : Option Error := none

namespace SpillSink

variable {κ : Type} [BatchConsumer κ] (options : SpillOptions)

/-- `should_spill`. -/
def shouldSpill (s : SpillSink κ) (sizes : Sizes) : Bool :=
  s.error.isNone && (decide (options.rowsPerBatch ≤ s.engine.rowCount) ||
    (!options.oversize && decide (options.softCapBytes ≤ sizes.grown)))

/-- The batch goes to the consumer, unless it is over the budget. -/
def deliver (s : SpillSink κ) (rows : Nat) (sizes : Sizes) (batch : RecordBatch) :
    SpillSink κ × Except Error Unit :=
  match (options.budget.share 4).check sizes.batch with
  | .error err => (s, .error err)
  | .ok () =>
      let oversized := rows = 1 ∧ options.batchTargetBytes < sizes.batch
      let stats := { s.stats with
        oversizeBatches := s.stats.oversizeBatches + if oversized then 1 else 0 }
      match consume s.consumer batch with
      | (consumer, .error err) => ({ s with consumer, stats }, .error err)
      | (consumer, .ok ()) =>
          ({ s with
            consumer
            stats := { stats with batches := stats.batches + 1, rows := stats.rows + rows } }, .ok ())

/-- `spill_inner`: cut off all rows, export them and deliver the batch. The part reports to the
observer of the builder. -/
def spillInner (s : SpillSink κ) (sizes : Sizes) : SpillSink κ × Except Error Unit :=
  let rows := s.engine.rowCount
  let (part, rest) := s.engine.splitOff rows
  match part.prepareFinishWithin options.memoryLimit sizes.part with
  | .error err => ({ s with engine := rest }, .error err)
  | .ok prepared =>
      let s := { s with engine := { rest with events := rest.events ++ prepared.events } }
      match part.finish with
      | .error err => (s, .error err)
      | .ok batch => s.deliver options rows sizes batch

/-- `spill`: an error waits for the end of the run. -/
def spill (s : SpillSink κ) (sizes : Sizes) : SpillSink κ :=
  if s.error.isSome || decide (s.engine.rowCount = 0) then s
  else
    match s.spillInner options sizes with
    | (s, .error err) => { s with error := some err }
    | (s, .ok ()) => s

/-- A call of the row interface; the end of a row may spill. -/
def call (s : SpillSink κ) (c : TableBuilder.Call × Sizes) : SpillSink κ :=
  let s := { s with engine := s.engine.callWithin options.memoryLimit (c.1, c.2.reserve) }
  match c.1 with
  | .endRow => if s.shouldSpill options c.2 then s.spill options c.2 else s
  | _ => s

/-- A list of calls, each with the sizes it finds. -/
def callAll (s : SpillSink κ) (calls : List (TableBuilder.Call × Sizes)) : SpillSink κ :=
  calls.foldl (call options) s

/-- The end of `finish_run`: raise the error that waits, or those of the builder. -/
def surface (s : SpillSink κ) (sizes : Sizes) : Except Error (SpillSink κ) :=
  match s.error, s.engine.unknownError, s.engine.strictError with
  | some err, _, _ => .error err
  | none, some message, _ => .error (.merge message)
  | none, none, some err => .error err
  | none, none, none => do
      s.engine.checkMemoryBudget options.memoryLimit sizes.grown
      .ok s

/-- `finish_run`: spill the last rows, and raise the errors. -/
def finishRun (s : SpillSink κ) (sizes : Sizes) : Except Error (SpillSink κ) :=
  (s.spill options sizes).surface options sizes

/-! ## Memory limits -/

section Limits

variable {options} {s : SpillSink κ} {sizes : Sizes}

/-- The run is bound to end in an error. -/
def Doomed (s : SpillSink κ) : Prop := ¬ s.engine.NoError ∨ s.error.isSome

/-- The reservation of the call is refused. -/
def Refuses (options : SpillOptions) (s : SpillSink κ) (c : TableBuilder.Call × Sizes) : Prop :=
  s.engine.Refuses options.memoryLimit (c.1, c.2.reserve)

/-- Delivering a batch does not touch the builder. The error of a consumer is returned, and it is
the caller who keeps it in the sink. -/
theorem engine_deliver (rows : Nat) (batch : RecordBatch) :
    (s.deliver options rows sizes batch).1.engine = s.engine ∧
      (s.deliver options rows sizes batch).1.error = s.error := by
  rw [deliver]
  split
  · exact ⟨rfl, rfl⟩
  · dsimp only
    split
    · exact ⟨rfl, rfl⟩
    · exact ⟨rfl, rfl⟩

/-- The errors of the builder stay with the rest. The part that is cut off has none of them, so that
they are still there to be surfaced. -/
theorem errors_spillInner :
    (s.spillInner options sizes).1.engine.unknownError = s.engine.unknownError ∧
      (s.spillInner options sizes).1.engine.strictError = s.engine.strictError ∧
      (s.spillInner options sizes).1.error = s.error := by
  rw [spillInner]
  dsimp only
  split
  · exact ⟨rfl, rfl, rfl⟩
  · split
    · exact ⟨rfl, rfl, rfl⟩
    · next prepared _ _ batch _ =>
      obtain ⟨hengine, herror⟩ := @engine_deliver _ _ _ options
        { s with engine := { (s.engine.splitOff s.engine.rowCount).2 with
          events := (s.engine.splitOff s.engine.rowCount).2.events ++ prepared.events } } sizes
        s.engine.rowCount batch
      rw [hengine, herror]
      exact ⟨rfl, rfl, rfl⟩

/-- A sink that is bound to fail stays so when it spills. Its error stays where it is, in the sink
or in the part of the builder that is left. -/
theorem Doomed.spill (h : s.Doomed) : (s.spill options sizes).Doomed := by
  obtain ⟨hunknown, hstrict, herror⟩ := @errors_spillInner _ _ _ options s sizes
  have hinner : (s.spillInner options sizes).1.Doomed := by
    rcases h with herr | hsome
    · left
      intro hok
      exact herr ⟨hunknown.symm.trans hok.unknown, hstrict.symm.trans hok.strict⟩
    · right
      rwa [herror]
  rw [SpillSink.spill]
  split
  · exact h
  · generalize s.spillInner options sizes = outcome at hinner ⊢
    obtain ⟨s', err | _⟩ := outcome
    · exact .inr rfl
    · exact hinner

/-- Without the limit nothing is refused that is prepared within it. -/
theorem prepareFinishWithin_none {b b' : TableBuilder} {memoryLimit : Option Nat} {capacity : Nat}
    (h : b.prepareFinishWithin memoryLimit capacity = .ok b') :
    b.prepareFinishWithin none capacity = .ok b' := by
  obtain ⟨hunknown, hstrict⟩ := TableBuilder.errors_of_prepareFinish
    (TableBuilder.prepareFinish_of_within h)
  rw [TableBuilder.prepareFinishWithin, hunknown, hstrict]
  simp only [TableBuilder.checkMemoryBudget, hstrict]
  exact TableBuilder.prepareFinish_of_within h

/-- Under the limit the sink spills as without it, or is bound to fail. -/
theorem spill_unlimited :
    (s.spill options sizes).Doomed ∨ s.spill options sizes = s.spill options.unlimited sizes := by
  rw [spill, spill]
  split
  · exact .inr rfl
  · rw [spillInner, spillInner]
    dsimp only
    cases hprep : (s.engine.splitOff s.engine.rowCount).1.prepareFinishWithin options.memoryLimit
        sizes.part with
    | error err => exact .inl (.inr rfl)
    | ok prepared =>
        refine .inr ?_
        rw [show options.unlimited.memoryLimit = none from rfl, prepareFinishWithin_none hprep]
        rfl

/-- A call that leaves a builder with an error dooms the run. -/
theorem doomed_call {c : TableBuilder.Call × Sizes} {engine : TableBuilder}
    (hengine : s.engine.callWithin options.memoryLimit (c.1, c.2.reserve) = engine)
    (h : ({ s with engine } : SpillSink κ).Doomed) : (s.call options c).Doomed := by
  rw [call, hengine]
  split
  · split
    · exact h.spill
    · exact h
  · exact h

/-- **The limit guards the sink**: a call under it is the call without it, or the run is bound to end
in an error, and stays so. -/
theorem guards_call (options : SpillOptions) :
    Guards (fun (s : SpillSink κ) c => s.call options.unlimited c) (call options) Doomed := by
  have hguards := TableBuilder.guards_callWithin options.memoryLimit
  refine ⟨fun s c hdoomed => ?_, fun s c => ?_⟩
  · exact doomed_call rfl (hdoomed.imp (hguards.sticky s.engine (c.1, c.2.reserve)) id)
  · have hunlimited : s.engine.callWithin options.unlimited.memoryLimit (c.1, c.2.reserve) =
        s.engine.call c.1 := s.engine.callWithin_none _
    rcases hguards.agrees s.engine (c.1, c.2.reserve) with herr | heq
    · exact .inl (doomed_call rfl (.inl herr))
    · rw [call, call, hunlimited, heq]
      generalize ({ s with engine := s.engine.call c.1 } : SpillSink κ) = s'
      split
      · have hshould : s'.shouldSpill options.unlimited c.2 = s'.shouldSpill options c.2 := rfl
        rw [hshould]
        split
        · exact spill_unlimited
        · exact .inr rfl
      · exact .inr rfl

/-- A refused call dooms the run. -/
theorem doomed_of_refuses {c : TableBuilder.Call × Sizes} (h : s.Refuses options c) :
    (s.call options c).Doomed :=
  doomed_call rfl (.inl (TableBuilder.not_noError_of_refuses h))

omit [BatchConsumer κ] in
/-- A run that ends well carries no error. All the places that an error may be kept in are looked
at, and the sink is returned as it was. -/
theorem surface_ok {s' : SpillSink κ} (h : s.surface options sizes = .ok s') :
    s' = s ∧ s.error = none ∧ s.engine.NoError := by
  rw [surface] at h
  cases herror : s.error with
  | some err => simp [herror] at h
  | none =>
  cases hunknown : s.engine.unknownError with
  | some message => simp [herror, hunknown] at h
  | none =>
  cases hstrict : s.engine.strictError with
  | some err => simp [herror, hunknown, hstrict] at h
  | none =>
      simp only [herror, hunknown, hstrict] at h
      cases hcheck : s.engine.checkMemoryBudget options.memoryLimit sizes.grown with
      | error err => simp [hcheck, bind, Except.bind] at h
      | ok _ =>
          simp only [hcheck, bind, Except.bind, Except.ok.injEq] at h
          exact ⟨h.symm, rfl, hunknown, hstrict⟩

omit [BatchConsumer κ] in
/-- A run that is bound to end in an error does. -/
theorem surface_of_doomed (h : s.Doomed) : ∃ err, s.surface options sizes = .error err := by
  cases hsurface : s.surface options sizes with
  | error err => exact ⟨err, rfl⟩
  | ok s' =>
      obtain ⟨-, herror, hok⟩ := surface_ok hsurface
      rcases h with herr | hsome
      · exact absurd hok herr
      · rw [herror] at hsome
        cases hsome

/-- A run that ends well under the limit ends the same without it. -/
theorem finishRun_unlimited {s' : SpillSink κ} (h : s.finishRun options sizes = .ok s') :
    s.finishRun options.unlimited sizes = .ok s' := by
  rw [finishRun] at h ⊢
  obtain ⟨rfl, herror, hok⟩ := surface_ok h
  rcases @spill_unlimited _ _ _ options s sizes with hdoomed | heq
  · obtain ⟨err, herr⟩ : ∃ err, (s.spill options sizes).surface options sizes = .error err :=
      surface_of_doomed hdoomed
    rw [herr] at h
    cases h
  · rw [← heq, surface, herror, hok.unknown, hok.strict]
    simp only [TableBuilder.checkMemoryBudget, hok.strict]
    rfl

end Limits

/-- **Refusals are never silent**: a run in which a call was refused under the memory limit ends in an
error, and one that ends well is the run without the limit; so for `finish` of a builder and for
`finish_run` of a sink. -/
theorem refusals_raised (memoryLimit : Option Nat) (b : TableBuilder) :
    (∀ (calls : List (TableBuilder.Call × Nat)) (capacity : Nat),
      (RefusesSome (TableBuilder.callWithin memoryLimit) (TableBuilder.Refuses memoryLimit) b calls →
        ∃ err, (b.callAllWithin memoryLimit calls).finishWithin memoryLimit capacity = .error err) ∧
      ∀ batch, (b.callAllWithin memoryLimit calls).finishWithin memoryLimit capacity = .ok batch →
        (b.callAll (calls.map Prod.fst)).finish = .ok batch) ∧
    ∀ (options : SpillOptions), options.memoryLimit = memoryLimit →
      ∀ (consumer : κ) (calls : List (TableBuilder.Call × Sizes)) (sizes : Sizes),
        let s : SpillSink κ := { engine := b, consumer }
        (RefusesSome (call options) (Refuses options) s calls →
          ∃ err, (s.callAll options calls).finishRun options sizes = .error err) ∧
        ∀ s', (s.callAll options calls).finishRun options sizes = .ok s' →
          (s.callAll options.unlimited calls).finishRun options.unlimited sizes = .ok s' := by
  constructor
  · intro calls capacity
    -- a refused call leaves its error, and a run without a refused call is the run without a
    -- limit
    have hguards := TableBuilder.guards_callWithin memoryLimit
    constructor
    · intro hrefuses
      exact TableBuilder.finishWithin_of_error
        (hguards.marked_of_refuses (fun _ _ => TableBuilder.not_noError_of_refuses) hrefuses)
    · intro batch hfinish
      have hfinish' := TableBuilder.finish_of_within hfinish
      obtain ⟨hunknown, hstrict⟩ := TableBuilder.errors_of_finish hfinish'
      rcases hguards.marked_or_eq b calls with herr | heq
      · exact absurd ⟨hunknown, hstrict⟩ herr
      · rw [← TableBuilder.foldl_call, ← heq]
        exact hfinish'
  · rintro options rfl consumer calls sizes s
    -- the same for the sink, whose error is kept until the run is finished
    have hguards : Guards (fun (s : SpillSink κ) c => s.call options.unlimited c) (call options)
        Doomed := guards_call options
    constructor
    · intro hrefuses
      have hdoomed := hguards.marked_of_refuses (fun _ _ => doomed_of_refuses) hrefuses
      exact surface_of_doomed hdoomed.spill
    · intro s' hfinish
      rcases hguards.marked_or_eq s calls with hdoomed | heq
      · have hspilled : ((s.callAll options calls).spill options sizes).Doomed := hdoomed.spill
        obtain ⟨err, herr⟩ : ∃ err, (s.callAll options calls).finishRun options sizes = .error err :=
          surface_of_doomed hspilled
        rw [herr] at hfinish
        cases hfinish
      · have hsame : s.callAll options calls = s.callAll options.unlimited calls := heq
        rw [← hsame]
        exact finishRun_unlimited hfinish

end SpillSink

end Spill

section Examples

attribute [local instance] integerPlatform

namespace SpillSink

/-- A sink with one row a batch, whose builder has a limit of 100 bytes. -/
def rowByRow : SpillOptions where
  rowsPerBatch := 1
  batchTargetBytes := 1000
  softCapBytes := 1000
  oversize := false
  budget := ⟨1000, true⟩
  memoryLimit := some 100

/-- A row whose put finds the builder with the given capacity. -/
def rowAt (capacity : Nat) : List (TableBuilder.Call × Sizes) :=
  [(.beginRow, { reserve := 50 }), (.put (.field "a" (.str "abc")), { reserve := capacity }),
    (.endRow, { reserve := 50 })]

/-- A sink before its first row. -/
def newSink : SpillSink CollectingConsumer := { engine := TableBuilder.withPlan {}, consumer := {} }

/-- Four bytes of name and value ask for eight. A builder with room for five refuses them, and so does a
sink that has delivered one row; with room for eight they are kept, as without a limit. -/
theorem refusals_raised_rows :
    (∃ err, ((TableBuilder.withPlan {}).callAllWithin (some 100)
      [(.beginRow, 50), (.put (.field "a" (.str "abc")), 95), (.endRow, 50)]).finishWithin
        (some 100) 50 = .error err) ∧
      (∃ err, (newSink.callAll rowByRow (rowAt 50 ++ rowAt 95)).finishRun rowByRow {} = .error err) ∧
      ∃ s : SpillSink CollectingConsumer, s.consumer.batches.length = 2 ∧
        (newSink.callAll rowByRow (rowAt 50 ++ rowAt 92)).finishRun rowByRow {} = .ok s ∧
        (newSink.callAll rowByRow.unlimited (rowAt 50 ++ rowAt 92)).finishRun rowByRow.unlimited {} =
          .ok s := by
  obtain ⟨hbuilder, hsink⟩ :=
    @refusals_raised _ CollectingConsumer _ (some 100) (TableBuilder.withPlan {})
  refine ⟨(hbuilder _ 50).1 (.inr (.inl rfl)),
    (hsink rowByRow rfl {} (rowAt 50 ++ rowAt 95) {}).1 (.inr (.inr (.inr (.inr (.inl rfl))))), ?_⟩
  have hok : ∃ s, s.consumer.batches.length = 2 ∧
      (newSink.callAll rowByRow (rowAt 50 ++ rowAt 92)).finishRun rowByRow {} = .ok s :=
    ⟨_, rfl, rfl⟩
  obtain ⟨s, hbatches, hs⟩ := hok
  exact ⟨s, hbatches, hs, (hsink rowByRow rfl {} (rowAt 50 ++ rowAt 92) {}).2 s hs⟩

end SpillSink

end Examples

end Rypipe
