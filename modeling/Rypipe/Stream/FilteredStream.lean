import Rypipe.Engine.FilteredRun
import Rypipe.Stream.AnyConsumer
import Rypipe.Stream.DiscoveredSlots

/-! # The rows of a parallel stream

The chunks of a stream are parsed by workers, each with a builder of its own that starts from the layout
of the stream, and the consumer is given the batches in the order of the calls. Where the filter, if
there is one, reads the records alike, the batches have the passing rows of these chunks, as one builder
would export them that reads the chunks one after the other. -/

namespace Rypipe

namespace Stream

open TableBuilder

universe u v

/-! ## The calls of the consumer -/

section Calls

variable {β : Type u} {ε : Type v} {job : Job β ε} {log : List (Action β ε)} {s : Executor job}

/-- The batch with which a step has called the consumer. -/
def Action.calledBatch : Action β ε → Option β
  | .consumed _ b _ => some b
  | .internal | .parsed _ _ => none

/-- The batches the consumer was called with. -/
def calledBatches (log : List (Action β ε)) : List β := log.filterMap Action.calledBatch

theorem calledSeqs_cons (a : Action β ε) (log : List (Action β ε)) :
    calledSeqs (a :: log) = a.calledSeq.toList ++ calledSeqs log := by
  rw [calledSeqs, List.filterMap_cons]
  cases a <;> rfl

theorem calledBatches_cons (a : Action β ε) (log : List (Action β ε)) :
    calledBatches (a :: log) = a.calledBatch.toList ++ calledBatches log := by
  rw [calledBatches, List.filterMap_cons]
  cases a <;> rfl

/-- The calls are of the batches of the chunks. -/
theorem calledBatches_eq_map
    (h : ∀ seq b failure, Action.consumed seq b failure ∈ log → b = job.batch seq) :
    calledBatches log = (calledSeqs log).map job.batch := by
  induction log with
  | nil => rfl
  | cons a log ih =>
      rw [calledBatches_cons, calledSeqs_cons, List.map_append,
        ih fun seq b failure hmem => h seq b failure (List.mem_cons_of_mem _ hmem)]
      cases a with
      | consumed seq b failure =>
          rw [h seq b failure List.mem_cons_self]
          rfl
      | _ => rfl

/-- The consumer was called for a chunk. -/
theorem exists_of_mem_calledSeqs {seq : Nat} (h : seq ∈ calledSeqs log) :
    ∃ b failure, Action.consumed seq b failure ∈ log := by
  obtain ⟨a, ha, hseq⟩ := List.mem_filterMap.mp h
  cases a with
  | consumed seq' b failure =>
      obtain rfl : seq' = seq := Option.some.inj hseq
      exact ⟨b, failure, ha⟩
  | _ => cases hseq

end Calls

/-! ## The layout of a stream -/

section Layout

variable [Platform]

/-- The layout that a stream makes when it is given none: of the projection, or else of the field names
`order` that were discovered. -/
def streamLayout (plan : ExecutionPlan) (order : List String) : FrozenSchema :=
  if plan.schemaOrder.isEmpty then (Discovery.freeze order plan).layout
  else (Discovery.fromPartialPlan plan.schemaOrder plan).layout

/-- A layout that is built column by column has the types of the plan. -/
theorem columns_foldl {plan : ExecutionPlan} (step : Discovery.Schema → String → Discovery.Schema)
    (hstep : ∀ schema name, (step schema name).exact = schema.exact ∧
      ∀ p ∈ (step schema name).columns, p ∈ schema.columns ∨ p.2 = plan.columnType p.1)
    (names : List String) (schema : Discovery.Schema)
    (h : ∀ p ∈ schema.columns, p.2 = plan.columnType p.1) :
    (names.foldl step schema).exact = schema.exact ∧
      ∀ p ∈ (names.foldl step schema).columns, p.2 = plan.columnType p.1 := by
  induction names generalizing schema with
  | nil => exact ⟨rfl, h⟩
  | cons name names ih =>
      obtain ⟨hexact, hcolumns⟩ := hstep schema name
      obtain ⟨hexact', hcolumns'⟩ := ih (step schema name) fun p hp =>
        (hcolumns p hp).elim (h p) id
      exact ⟨hexact'.trans hexact, hcolumns'⟩

/-- Unless there is neither a projection nor a field, the layout leaves room for other columns. -/
theorem loose_streamLayout {plan : ExecutionPlan} {order : List String}
    (h : plan.schemaOrder ≠ [] ∨ order ≠ []) : Loose plan (some (streamLayout plan order)) := by
  intro schema hschema
  obtain rfl : streamLayout plan order = schema := Option.some.inj hschema
  rw [streamLayout]
  split
  · next hempty =>
    have horder : order.isEmpty = false := by
      rw [List.isEmpty_eq_false_iff]
      exact h.resolve_left fun hne => hne (List.isEmpty_iff.mp hempty)
    rw [Discovery.freeze, horder]
    refine columns_foldl (Discovery.discovered plan) (fun schema name => ?_) order ⟨[], fun _ => none, false⟩
      fun p hp => absurd hp List.not_mem_nil
    rw [Discovery.discovered]
    split
    · split
      · exact ⟨rfl, fun p hp => .inl hp⟩
      · refine ⟨rfl, fun p hp => (List.mem_append.mp hp).imp_right fun hp => ?_⟩
        obtain rfl := List.mem_singleton.mp hp
        rfl
    · exact ⟨rfl, fun p hp => .inl hp⟩
  · refine columns_foldl (Discovery.declare plan) (fun schema name => ⟨rfl, fun p hp => ?_⟩)
      plan.schemaOrder ⟨[], fun _ => none, false⟩ fun p hp => absurd hp List.not_mem_nil
    refine (List.mem_append.mp hp).imp_right fun hp => ?_
    obtain rfl := List.mem_singleton.mp hp
    rfl

end Layout

/-! ## Chunks -/

section Chunks

variable [Platform] {plan : ExecutionPlan} {layout : Option FrozenSchema}

/-- The batch of a chunk has its rows that pass. -/
theorem showsKept_chunk (hlayout : Loose plan layout)
    {rows : List Sent} (hrows : ∀ r ∈ rows, ReadsAlike plan r)
    (hcolumn : HasColumn plan layout rows) {batch : RecordBatch}
    (hok : ((start plan layout).sendAll rows).finish = .ok batch) :
    ShowsKept plan rows [batch] := by
  obtain ⟨hempty, hshows⟩ := export_sendAll hlayout hrows hok
  by_cases hnone : NoColumn plan layout rows
  · rw [hempty hnone]
    refine ⟨?_, fun name _ => ?_⟩
    · rw [hcolumn hnone]
      rfl
    · rw [hcolumn hnone]
      rfl
  · exact hshows hnone

/-- The batches of chunks have their rows that pass. -/
theorem showsKept_chunks {chunks : Nat → List Sent} {batch : Nat → RecordBatch} {seqs : List Nat}
    (h : ∀ seq ∈ seqs, ShowsKept plan (chunks seq) [batch seq]) :
    ShowsKept plan (seqs.flatMap chunks) (seqs.map batch) := by
  induction seqs with
  | nil => exact .nil plan
  | cons seq seqs ih =>
      rw [List.flatMap_cons, List.map_cons, ← List.singleton_append]
      exact (h seq List.mem_cons_self).append (ih fun s hs => h s (List.mem_cons_of_mem _ hs))

/-- **A parallel stream**, filtered or not: the consumer has been given the passing rows of the chunks it
was called for, and once the stream returns `Ok` these are all chunks; in order, and as one builder
exports them, if the stream is ordered. -/
theorem filtered_stream {ε : Type v} {job : Job RecordBatch ε} {log : List (Action RecordBatch ε)}
    {s : Executor job} (chunks : Nat → List Sent) (hlayout : Loose plan layout)
    (hrows : ∀ seq < job.numChunks, ∀ r ∈ chunks seq, ReadsAlike plan r)
    (hcolumn : ∀ seq < job.numChunks, HasColumn plan layout (chunks seq))
    (hsteps : Steps Executor.Step (Executor.initial job) log s)
    (hparsed : ∀ seq b, Action.parsed seq (.ok b) ∈ log →
      ((start plan layout).sendAll (chunks seq)).finish = .ok b) :
    ShowsKept plan ((calledSeqs log).flatMap chunks) (calledBatches log) ∧
      (s.stage = .returned (.ok ()) → (calledSeqs log).Perm (List.range job.numChunks)) ∧
      (job.ordered = true → calledSeqs log = List.range (calledSeqs log).length) ∧
      (job.ordered = true → s.stage = .returned (.ok ()) → ∀ layout' table, Loose plan layout' →
        ((start plan layout').sendAll ((List.range job.numChunks).flatMap chunks)).finish = .ok table →
        table.schema ≠ [] →
        ((calledBatches log).map RecordBatch.rowCount).sum = table.rowCount ∧
          ∀ name, Exported plan name →
            (calledBatches log).flatMap (·.cells name) = table.cells name) := by
  have hinv := Executor.inv_of_steps hsteps
  obtain ⟨-, hordered, -⟩ := hinv.calls
  have hlt : ∀ seq ∈ calledSeqs log, seq < job.numChunks := by
    intro seq hseq
    obtain ⟨b, failure, hmem⟩ := exists_of_mem_calledSeqs hseq
    exact hinv.parsed.2 seq (mem_parsedSeqs (hinv.consumed hmem).2)
  -- each batch handed over is that of its own chunk, and shows the rows kept of it
  have hshows : ShowsKept plan ((calledSeqs log).flatMap chunks) (calledBatches log) := by
    rw [calledBatches_eq_map fun seq b failure hmem => (hinv.consumed hmem).1]
    refine showsKept_chunks fun seq hseq => ?_
    obtain ⟨b, failure, hmem⟩ := exists_of_mem_calledSeqs hseq
    obtain ⟨rfl, hok⟩ := hinv.consumed hmem
    exact showsKept_chunk hlayout (hrows seq (hlt seq hseq)) (hcolumn seq (hlt seq hseq))
      (hparsed seq _ hok)
  refine ⟨hshows, fun hs => (hinv.returned_ok hs).1, hordered, ?_⟩
  intro hord hs layout' table hlayout' htable hschema
  -- a run that returns Ok has handed over all chunks, in order
  have hall : calledSeqs log = List.range job.numChunks := by
    rw [hordered hord, (hinv.returned_ok hs).1.length_eq, List.length_range]
  rw [hall] at hshows
  have hreads : ∀ r ∈ (List.range job.numChunks).flatMap chunks, ReadsAlike plan r := by
    intro r hr
    obtain ⟨seq, hseq, hr⟩ := List.mem_flatMap.mp hr
    exact hrows seq (List.mem_range.mp hseq) r hr
  exact hshows.eq_table hlayout' hreads htable hschema

end Chunks

section Examples

attribute [local instance] integerPlatform

/-- The layout of the fields `a` and `k`. -/
def pairLayout : Option FrozenSchema := some (streamLayout onePlan ["a", "k"])

/-- The rows of two chunks. -/
def pairChunks (seq : Nat) : List Sent := if seq = 0 then twoRecords else twoRecords ++ twoRecords

/-- What the chunks parse to. -/
def pairBatches (seq : Nat) : RecordBatch :=
  if seq = 0 then
    ⟨[("a", .utf8), ("k", .utf8)], [⟨.utf8, [some (.str "x")]⟩, ⟨.utf8, [some (.str "1")]⟩], 1⟩
  else
    ⟨[("a", .utf8), ("k", .utf8)],
      [⟨.utf8, [some (.str "x"), some (.str "x")]⟩, ⟨.utf8, [some (.str "1"), some (.str "1")]⟩], 2⟩

theorem readsAlike_pairChunks (seq : Nat) : ∀ r ∈ pairChunks seq, ReadsAlike onePlan r := by
  intro r hr
  rw [pairChunks] at hr
  split at hr
  · exact readsAlike_twoRecords r hr
  · exact (List.mem_append.mp hr).elim (readsAlike_twoRecords r) (readsAlike_twoRecords r)

/-- The second chunk is parsed first; the consumer is given the records that pass in the order of the
chunks. -/
theorem filtered_stream_two :
    ShowsKept onePlan ((calledSeqs (heldLog pairBatches)).flatMap pairChunks)
        (calledBatches (heldLog pairBatches)) ∧
      calledSeqs (heldLog pairBatches) = List.range 2 := by
  obtain ⟨s, hsteps, -⟩ := twoBatches_runs pairBatches
  have hlayout : Loose onePlan pairLayout := loose_streamLayout (.inr (List.cons_ne_nil _ _))
  have hresult := filtered_stream pairChunks hlayout (fun seq _ => readsAlike_pairChunks seq)
    (fun seq _ hnone => ?_) hsteps fun seq b hmem => ?_
  · exact ⟨hresult.1, hresult.2.2.1 rfl⟩
  · have hcolumns := hnone.1.2 _ rfl
    cases hcolumns
  · simp only [heldLog, List.mem_cons, List.not_mem_nil, or_false, reduceCtorEq, false_or,
      Action.parsed.injEq, Except.ok.injEq] at hmem
    rcases hmem with ⟨rfl, rfl⟩ | ⟨rfl, rfl⟩
    · rfl
    · rfl

end Examples

end Stream

end Rypipe
