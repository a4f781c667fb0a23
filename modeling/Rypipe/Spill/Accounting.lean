import Rypipe.Engine.Moves
import Rypipe.Spill
import Mathlib.Algebra.BigOperators.Group.List.Basic
import Mathlib.Algebra.Group.Prod

/-! # What the chunks of a spilling run report

Every batch that is cut off reports to the observer how many rows were accepted and rejected since the
batch before. What has been reported and what the builder still counts is all rows so far, at every
point of a run. At its end nothing is left over when rows were still there to cut off; the rejections
since the last batch are lost when there are none. -/

namespace Rypipe

section Accounting

variable [Platform]

/-- The rows a hook reports as accepted and rejected. -/
def Event.chunkCounts : Event → Nat × Nat
  | .chunkFinished _ accepted rejected => (accepted, rejected)
  | _ => 0

/-- The rows that the finished chunks report together. -/
def reported (events : List Event) : Nat × Nat := (events.map Event.chunkCounts).sum

@[simp] theorem reported_nil : reported [] = 0 := rfl

@[simp] theorem reported_append (events events' : List Event) :
    reported (events ++ events') = reported events + reported events' := by
  rw [reported, List.map_append, List.sum_append]
  rfl

@[simp] theorem reported_singleton (e : Event) : reported [e] = e.chunkCounts := by
  rw [reported, List.map_singleton, List.sum_singleton]

/-- A hook of a row reports no chunk. -/
theorem Event.OfRow.chunkCounts {e : Event} (h : e.OfRow) : e.chunkCounts = 0 := by
  cases e with
  | chunkFinished total accepted rejected => exact h.elim
  | _ => rfl

namespace TableBuilder

/-- What a builder counts and has not reported: the rows accepted and rejected since the last cut. -/
def pending (b : TableBuilder) : Nat × Nat := (b.rowsAccepted, b.rowsRejected)

/-- What moves do to the counts: every accepted row is counted twice, and no chunk is reported. -/
structure Counts (b b' : TableBuilder) : Prop where
  plan : b'.plan = b.plan
  accepted : ∃ n, b'.rowCount = b.rowCount + n ∧ b'.rowsAccepted = b.rowsAccepted + n
  rejected : b.rowsRejected ≤ b'.rowsRejected
  reported : reported b'.events = reported b.events

/-- The moves of a call count what they report, move by move. An accepted row adds to both counters,
a rejected one to its own, and no hook of a row reports a chunk. -/
theorem Moves.counts {b b' : TableBuilder} (h : Moves b b') : b.Counts b' := by
  induction h with
  | inner h =>
      exact ⟨h.plan, ⟨0, h.rowCount, h.accepted⟩, Nat.le_of_eq h.rejected.symm, by rw [h.events]⟩
  | @hook b e h =>
      refine ⟨rfl, ⟨0, rfl, rfl⟩, le_rfl, ?_⟩
      rw [notify]
      dsimp only
      split
      · rw [reported_append, reported_singleton, h.chunkCounts, add_zero]
      · rfl
  -- an accepted row adds to both counters, and a rejected one to its own
  | @accept b =>
      refine ⟨rfl, ⟨1, rfl, rfl⟩, le_rfl, ?_⟩
      rw [acceptRow, notify]
      dsimp only
      split
      · exact (reported_append _ _).trans (add_zero _)
      · rfl
  | @reject b =>
      refine ⟨rfl, ⟨0, rfl, rfl⟩, Nat.le_succ _, ?_⟩
      rw [rejectRow, notify]
      dsimp only
      split
      · exact (reported_append _ _).trans (add_zero _)
      · rfl
  | trans _ _ ih ih' =>
      obtain ⟨n, hrow, hacc⟩ := ih.accepted
      obtain ⟨n', hrow', hacc'⟩ := ih'.accepted
      refine ⟨ih'.plan.trans ih.plan, ⟨n + n', ?_, ?_⟩, ih.rejected.trans ih'.rejected,
        ih'.reported.trans ih.reported⟩
      · rw [hrow', hrow, Nat.add_assoc]
      · rw [hacc', hacc, Nat.add_assoc]

/-- A refused call counts nothing. -/
theorem moves_callWithin (memoryLimit : Option Nat) (b : TableBuilder) (c : Call × Nat) :
    Moves b (b.callWithin memoryLimit c) := by
  rcases reserve_cases memoryLimit b c.2 c.1 with heq | ⟨err, heq⟩
  · rw [callWithin_of_granted heq]
    exact b.moves_call c.1
  · obtain ⟨err', heq'⟩ := callWithin_of_refuses (show b.Refuses memoryLimit c by rw [Refuses, heq])
    rw [heq']
    exact .inner ⟨rfl, rfl, rfl, rfl, rfl⟩

end TableBuilder

namespace SpillSink

variable {κ : Type} [BatchConsumer κ] (options : SpillOptions)

/-- The rows that the calls accept and reject. -/
def outcomes (s : SpillSink κ) : List (TableBuilder.Call × Sizes) → Nat × Nat
  | [] => 0
  | c :: calls =>
      let b := s.engine.callWithin options.memoryLimit (c.1, c.2.reserve)
      (b.pending - s.engine.pending) + (s.call options c).outcomes calls

/-- The observer is attached, and the rows of the builder are the accepted ones not yet reported. -/
structure Balanced (s : SpillSink κ) : Prop where
  observer : s.engine.plan.observer = true
  accepted : s.engine.rowsAccepted = s.engine.rowCount

/-- What was reported and what waits to be. -/
def ledger (s : SpillSink κ) : Nat × Nat := reported s.engine.events + s.engine.pending

variable {options} {s : SpillSink κ} {sizes : Sizes}

/-- The part that is cut off reports the rows since the cut before. -/
theorem events_prepared {b prepared : TableBuilder} (hobserver : b.plan.observer = true)
    (h : (b.splitOff b.rowCount).1.prepareFinish = .ok prepared) :
    reported prepared.events = b.pending := by
  rw [TableBuilder.prepareFinish] at h
  have hevents : ((b.splitOff b.rowCount).1.notify (.chunkFinished (b.rowsAccepted + b.rowsRejected)
      b.rowsAccepted b.rowsRejected)).events =
      [.chunkFinished (b.rowsAccepted + b.rowsRejected) b.rowsAccepted b.rowsRejected] := if_pos hobserver
  cases h
  show reported ((b.splitOff b.rowCount).1.notify (.chunkFinished (b.rowsAccepted + b.rowsRejected)
    b.rowsAccepted b.rowsRejected)).events = _
  rw [hevents, reported_singleton]
  rfl

/-- A cut that succeeds reports what the builder counts, and starts the counts again. -/
theorem spillInner_ok (h : (s.spillInner options sizes).2 = .ok ()) :
    ∃ prepared, (s.engine.splitOff s.engine.rowCount).1.prepareFinish = .ok prepared ∧
      (s.spillInner options sizes).1.engine = { (s.engine.splitOff s.engine.rowCount).2 with
        events := s.engine.events ++ prepared.events } := by
  rw [spillInner] at h ⊢
  dsimp only at h ⊢
  cases hprep : (s.engine.splitOff s.engine.rowCount).1.prepareFinishWithin options.memoryLimit
      sizes.part with
  | error err => simp [hprep] at h
  | ok prepared =>
      refine ⟨prepared, TableBuilder.prepareFinish_of_within hprep, ?_⟩
      rw [hprep] at h
      dsimp only at h ⊢
      cases hfinish : (s.engine.splitOff s.engine.rowCount).1.finish with
      | error err => simp [hfinish] at h
      | ok batch =>
          dsimp only
          rw [(engine_deliver _ _).1]
          rfl

/-- **A spill loses no count**: what the builder counted is reported when there are rows, and waits
otherwise. -/
theorem Balanced.spill (h : s.Balanced) (hok : (s.spill options sizes).error = none) :
    (s.spill options sizes).Balanced ∧ (s.spill options sizes).ledger = s.ledger ∧
      ((s.spill options sizes).engine.pending = 0 ↔
        0 < s.engine.rowCount ∨ s.engine.rowsRejected = 0) := by
  by_cases hstay : (s.error.isSome || decide (s.engine.rowCount = 0)) = true
  · rw [SpillSink.spill, if_pos hstay] at hok ⊢
    have hzero : s.engine.rowCount = 0 := by
      rw [hok] at hstay
      simpa using hstay
    refine ⟨h, rfl, ?_⟩
    rw [TableBuilder.pending, h.accepted, hzero]
    simp
  · rw [SpillSink.spill, if_neg hstay] at hok ⊢
    have hrows : 0 < s.engine.rowCount := by
      simp only [Bool.or_eq_true, decide_eq_true_eq, not_or] at hstay
      exact Nat.pos_of_ne_zero hstay.2
    have hdone := @spillInner_ok _ _ _ options s sizes
    generalize s.spillInner options sizes = outcome at hok hdone ⊢
    obtain ⟨s', err | _⟩ := outcome
    · cases hok
    · obtain ⟨prepared, hprep, hengine⟩ := hdone rfl
      -- the spill has reported what was pending and starts from a new part
      have hpending : s'.engine.pending = 0 := by
        rw [hengine]
        rfl
      refine ⟨⟨?_, ?_⟩, ?_, fun _ => .inl hrows, fun _ => hpending⟩
      · rw [hengine]
        exact h.observer
      · rw [hengine]
        exact (Nat.sub_self _).symm
      · show reported s'.engine.events + s'.engine.pending = _
        rw [hpending, hengine, reported_append, events_prepared h.observer hprep, add_zero]
        rfl

/-- A call that does not fail keeps the ledger, up to the rows it accepts and rejects. -/
theorem Balanced.call (h : s.Balanced) (c : TableBuilder.Call × Sizes)
    (hok : (s.call options c).error = none) :
    (s.call options c).Balanced ∧ (s.call options c).ledger = s.ledger +
      ((s.engine.callWithin options.memoryLimit (c.1, c.2.reserve)).pending - s.engine.pending) := by
  have hcounts := (TableBuilder.moves_callWithin options.memoryLimit s.engine
    (c.1, c.2.reserve)).counts
  rw [SpillSink.call] at hok ⊢
  generalize s.engine.callWithin options.memoryLimit (c.1, c.2.reserve) = b at hcounts hok ⊢
  obtain ⟨n, hrow, hacc⟩ := hcounts.accepted
  have hreached : ({ s with engine := b } : SpillSink κ).Balanced := by
    refine ⟨?_, ?_⟩
    · rw [hcounts.plan]
      exact h.observer
    · rw [hacc, hrow, h.accepted]
  -- what the call adds to the pending rows it adds to the ledger
  have hledger : ({ s with engine := b } : SpillSink κ).ledger =
      s.ledger + (b.pending - s.engine.pending) := by
    have hle : s.engine.pending ≤ b.pending :=
      ⟨Nat.le.intro hacc.symm, hcounts.rejected⟩
    show reported b.events + b.pending = reported s.engine.events + s.engine.pending + _
    rw [hcounts.reported, add_assoc]
    congr 1
    exact Prod.ext (Nat.add_sub_of_le hle.1).symm (Nat.add_sub_of_le hle.2).symm
  obtain ⟨c, sizes⟩ := c
  cases c with
  -- only the end of a row may spill
  | endRow =>
      dsimp only at hok ⊢
      by_cases hspill : ({ s with engine := b } : SpillSink κ).shouldSpill options sizes = true
      · rw [if_pos hspill] at hok ⊢
        obtain ⟨hbalanced, hsame, -⟩ := hreached.spill hok
        exact ⟨hbalanced, hsame.trans hledger⟩
      · rw [if_neg hspill]
        exact ⟨hreached, hledger⟩
  | _ => exact ⟨hreached, hledger⟩

/-- An error of the sink stays. So a sink without one after a call had none before it. -/
theorem error_of_call {c : TableBuilder.Call × Sizes} (hok : (s.call options c).error = none) :
    s.error = none := by
  cases herror : s.error with
  | none => rfl
  | some err =>
      rw [SpillSink.call] at hok
      split at hok
      · rw [if_neg (by simp [shouldSpill, herror])] at hok
        exact herror.symm.trans hok
      · exact herror.symm.trans hok

/-- A spill does not take an error back. -/
theorem error_of_spill (hok : (s.spill options sizes).error = none) : s.error = none := by
  cases herror : s.error with
  | none => rfl
  | some err =>
      rw [SpillSink.spill, if_pos (by rw [herror]; rfl)] at hok
      exact herror.symm.trans hok

/-- Nor do calls, so a run that ends without an error never had one. -/
theorem error_of_callAll {calls : List (TableBuilder.Call × Sizes)}
    (hok : (s.callAll options calls).error = none) : s.error = none := by
  induction calls generalizing s with
  | nil => exact hok
  | cons c calls ih => exact error_of_call (ih hok)

/-- **The ledger of a run**: what was reported and what waits are the rows of the run. -/
theorem Balanced.callAll (h : s.Balanced) (calls : List (TableBuilder.Call × Sizes))
    (hok : (s.callAll options calls).error = none) :
    (s.callAll options calls).Balanced ∧
      (s.callAll options calls).ledger = s.ledger + s.outcomes options calls := by
  induction calls generalizing s with
  | nil => exact ⟨h, (add_zero _).symm⟩
  | cons c calls ih =>
      obtain ⟨hbalanced, hledger⟩ := h.call c (error_of_callAll hok)
      obtain ⟨hbalanced', hledger'⟩ := ih hbalanced hok
      refine ⟨hbalanced', hledger'.trans ?_⟩
      rw [hledger, outcomes, add_assoc]

omit [BatchConsumer κ] in
/-- The builder to start with has counted nothing, and nothing has been reported. -/
theorem balanced_start {plan : ExecutionPlan} (hobserver : plan.observer = true)
    (layout : Option FrozenSchema) (consumer : κ) :
    ({ engine := TableBuilder.start plan layout, consumer } : SpillSink κ).Balanced ∧
      ({ engine := TableBuilder.start plan layout, consumer } : SpillSink κ).ledger = 0 := by
  obtain ⟨columns, fieldIndex, columnOrder, rowDirty, mask, hnew⟩ := TableBuilder.withPlan_eq plan
  cases layout with
  | none =>
      rw [TableBuilder.start, hnew]
      exact ⟨⟨hobserver, rfl⟩, rfl⟩
  | some schema =>
      obtain ⟨columns', fieldIndex', columnOrder', hdeclared⟩ :=
        (TableBuilder.withPlan plan).declareColumns_eq schema.columns
      rw [TableBuilder.start, TableBuilder.ensureSchema, hdeclared, hnew]
      exact ⟨⟨hobserver, rfl⟩, rfl⟩

/-- **Chunk accounting.** In a run that ends well the finished chunks report all accepted and rejected
rows exactly when, at the end, the builder still holds a row that was not cut off, or has rejected none
since the last cut. -/
theorem reported_iff {plan : ExecutionPlan} (hobserver : plan.observer = true)
    (layout : Option FrozenSchema) (options : SpillOptions) (consumer : κ)
    (calls : List (TableBuilder.Call × Sizes)) (sizes : Sizes) {s' : SpillSink κ}
    (hok : (({ engine := TableBuilder.start plan layout, consumer } : SpillSink κ).callAll options
      calls).finishRun options sizes = .ok s') :
    reported s'.engine.events =
        ({ engine := TableBuilder.start plan layout, consumer } : SpillSink κ).outcomes options
          calls ↔
      let b := (({ engine := TableBuilder.start plan layout, consumer } : SpillSink κ).callAll options
        calls).engine
      0 < b.rowCount ∨ b.rowsRejected = 0 := by
  obtain ⟨hbalanced, hzero⟩ := balanced_start hobserver layout consumer
  generalize ({ engine := TableBuilder.start plan layout, consumer } : SpillSink κ) = s₀ at *
  obtain ⟨rfl, herror, -⟩ := surface_ok hok
  have hbefore := error_of_spill herror
  obtain ⟨hbalanced', hledger⟩ := hbalanced.callAll calls hbefore
  obtain ⟨-, hsame, hpending⟩ := hbalanced'.spill herror
  rw [hledger, hzero, zero_add] at hsame
  rw [← hsame]
  refine Iff.trans ?_ hpending
  exact left_eq_add

end SpillSink

end Accounting

section Examples

attribute [local instance] integerPlatform

namespace SpillSink

/-- Spill after every row. -/
def everyRow : SpillOptions :=
  { rowsPerBatch := 1, batchTargetBytes := 1, softCapBytes := 1, oversize := true,
    budget := ⟨64, false⟩, memoryLimit := none }

/-- A row with one field. -/
def oneField (name value : String) : List (TableBuilder.Call × Sizes) :=
  [(.beginRow, {}), (.put (.field name (.str value)), {}), (.endRow, {})]

/-- A plan that accepts the rows with `k = 1`. -/
def keptPlan : ExecutionPlan := { filter := some (.equal "k" "1"), observer := true }

/-- Spill after every other row. -/
def everyOther : SpillOptions := { everyRow with rowsPerBatch := 2 }

/-- A sink with the filter, before its first row. -/
def keptSink : SpillSink CollectingConsumer :=
  { engine := TableBuilder.start keptPlan none, consumer := {} }

/-- Rows with the given values of `k`. -/
def rowsOf (values : List String) : List (TableBuilder.Call × Sizes) := values.flatMap (oneField "k")

/-- Two rows are rejected, one before the batch is cut off and one after it. Each is followed by a row that
is accepted, so that all five are reported. -/
theorem reported_rejected_rows :
    ∃ s', (keptSink.callAll everyOther (rowsOf ["1", "2", "1", "2", "1"])).finishRun everyOther {} =
        .ok s' ∧
      reported s'.engine.events = keptSink.outcomes everyOther (rowsOf ["1", "2", "1", "2", "1"]) ∧
      keptSink.outcomes everyOther (rowsOf ["1", "2", "1", "2", "1"]) = (3, 2) := by
  have hok : ∃ s', (keptSink.callAll everyOther (rowsOf ["1", "2", "1", "2", "1"])).finishRun everyOther
      {} = .ok s' := ⟨_, rfl⟩
  have hheld : (keptSink.callAll everyOther (rowsOf ["1", "2", "1", "2", "1"])).engine.rowCount = 1 := rfl
  obtain ⟨s', hs'⟩ := hok
  have hiff := @reported_iff _ CollectingConsumer _ keptPlan rfl none everyOther {}
    (rowsOf ["1", "2", "1", "2", "1"]) {} s' hs'
  exact ⟨s', hs', hiff.mpr (.inl (Nat.lt_of_lt_of_eq Nat.zero_lt_one hheld.symm)), rfl⟩

/-- A run whose only row is rejected reports nothing. No row is held at its end, so that nothing is
cut off and the rejected row is in no report. -/
theorem reported_falls :
    ¬ ∀ (plan : ExecutionPlan) (layout : Option FrozenSchema) (options : SpillOptions)
      (consumer : CollectingConsumer) (calls : List (TableBuilder.Call × Sizes)) (sizes : Sizes)
      (s' : SpillSink CollectingConsumer), plan.observer = true →
      (({ engine := TableBuilder.start plan layout, consumer } :
        SpillSink CollectingConsumer).callAll options calls).finishRun options sizes = .ok s' →
      reported s'.engine.events =
        ({ engine := TableBuilder.start plan layout, consumer } :
          SpillSink CollectingConsumer).outcomes options calls := by
  intro h
  have hsum : ((0, 0) : Nat × Nat) = (0, 1) :=
    h keptPlan none everyRow {} (oneField "k" "2") {} _ rfl rfl
  cases hsum

end SpillSink

end Examples

end Rypipe
