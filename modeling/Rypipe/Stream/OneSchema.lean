import Rypipe.Engine.Declared
import Rypipe.Stream.Delivery

/-! # Whether the batches of a stream share a schema

The workers of a parallel stream build their batches from one frozen layout
(`parallel_stream.rs`, `schema.rs`). A batch has the columns of the layout, then, when the layout is
not exact, those its own chunk declares; and its string columns become dictionaries by what its own
chunk contains. So the batches of a run agree exactly when their chunks do in these two respects. -/

namespace Rypipe

namespace Stream

open TableBuilder

section Batches

variable [Platform]

/-! ## The batch of a chunk -/

/-- The builder of a worker after the calls a parser makes for its chunk. -/
def chunkBuilder (schema : FrozenSchema) (plan : ExecutionPlan) (calls : List Call) :
    TableBuilder :=
  ((withPlan plan).ensureSchema schema).callAll calls

/-- The batch of one chunk. -/
def parseChunk (schema : FrozenSchema) (plan : ExecutionPlan) (calls : List Call) :
    Except Error RecordBatch :=
  (chunkBuilder schema plan calls).finish

/-- The batches of all chunks: the run fails when one of them does. -/
def parseChunks (schema : FrozenSchema) (plan : ExecutionPlan) (chunks : List (List Call)) :
    Except Error (List RecordBatch) :=
  chunks.mapM (parseChunk schema plan)

/-! ## The columns of a chunk -/

/-- The columns every worker starts with. -/
def layoutTable (schema : FrozenSchema) (plan : ExecutionPlan) : Table :=
  (RowTable.empty.declareAll (predeclared plan)).declareAll schema.columns

/-- The columns of a chunk: those of the layout, then those of its fields as they come up. -/
def chunkTable (schema : FrozenSchema) (plan : ExecutionPlan) (calls : List Call) : Table :=
  (layoutTable schema plan).declareAll (planTyped plan (callTargets plan calls))

/-- The names a chunk is exported with: the projection, or else the names of its columns. -/
def outputNames (schema : FrozenSchema) (plan : ExecutionPlan) (calls : List Call) : List String :=
  if plan.schemaOrder.isEmpty then (chunkTable schema plan calls).names
  else plan.schemaOrder.filter fun n => !(n ∈ plan.dropFields : Bool)

/-- The type a name is declared with, in every chunk that declares it. -/
def declaredType (schema : FrozenSchema) (plan : ExecutionPlan) (name : String) : FieldType :=
  ((layoutTable schema plan).typeOf name).getD (plan.columnType name)

section Chunk

variable {schema : FrozenSchema} {plan : ExecutionPlan} {calls : List Call}

/-- The type of a column does not depend on the chunk. -/
theorem typeOf_chunkTable {name : String} (h : name ∈ (chunkTable schema plan calls).names) :
    (chunkTable schema plan calls).typeOf name = some (declaredType schema plan name) := by
  cases htype : (chunkTable schema plan calls).typeOf name with
  | none => exact absurd h (RowTable.typeOf_eq_none.mp htype)
  | some ty =>
      rw [declaredType]
      rcases RowTable.typeOf_declareAll htype with hold | ⟨hnew, hmem⟩
      · rw [hold]
        rfl
      · rw [hnew]
        obtain ⟨n, -, heq⟩ := List.mem_map.mp hmem
        obtain ⟨rfl, rfl⟩ := Prod.mk.inj heq
        rfl

/-- A worker's builder has the columns of its chunk, unless it met an unknown field. -/
theorem declared_chunkBuilder
    (hok : (chunkBuilder schema plan calls).unknownError = none) :
    (chunkBuilder schema plan calls).Declared (chunkTable schema plan calls) ∧
      (chunkBuilder schema plan calls).plan = plan := by
  have hstart := (declared_withPlan plan).ensureSchema schema
  have hplan : ((withPlan plan).ensureSchema schema).plan = plan :=
    (plan_ensureSchema _ schema).trans (withPlan_frame plan).1
  have hall := hstart.callAll hok
  rw [hplan] at hall
  exact hall

/-- Every name a chunk is exported with is one of its columns. -/
theorem mem_chunkTable_of_mem_outputNames {name : String}
    (h : name ∈ outputNames schema plan calls) : name ∈ (chunkTable schema plan calls).names := by
  rw [outputNames] at h
  split at h
  · exact h
  · next hschema =>
    rw [chunkTable, layoutTable, RowTable.mem_names_declareAll, RowTable.mem_names_declareAll,
      RowTable.mem_names_declareAll, predeclared, if_neg hschema, List.map_map]
    refine Or.inl (Or.inl (Or.inr (List.mem_map.mpr ⟨name, ?_, rfl⟩)))
    exact List.mem_append_left _ h

/-- A batch has the names of its chunk, each with its declared type, or as a dictionary where the
chunk's column is encoded. -/
theorem schema_parseChunk {batch : RecordBatch} (hok : parseChunk schema plan calls = .ok batch) :
    batch.schema = (outputNames schema plan calls).map fun n =>
      (n, (if (chunkBuilder schema plan calls).encodes n then .dictionary
        else declaredType schema plan n : FieldType).arrowType) := by
  obtain ⟨hdeclared, hplan⟩ := declared_chunkBuilder (errors_of_finish hok).1
  have hnames : (chunkBuilder schema plan calls).exportNames = outputNames schema plan calls := by
    rw [exportNames, outputNames, hplan]
    split
    · next hschema => exact hdeclared.inOrder (by rw [hplan]; exact List.isEmpty_iff.mp hschema)
    · rfl
  have hschema := hdeclared.finish_schema
    (fun n hn => mem_chunkTable_of_mem_outputNames (hnames ▸ hn)) hok
  rw [hschema, hnames]
  refine List.map_congr_left fun n hn => ?_
  rw [exportType, typeOf_chunkTable (mem_chunkTable_of_mem_outputNames hn), Option.getD_some]

/-- A column that is encoded is declared as a string column. -/
theorem declaredType_of_encodes {batch : RecordBatch}
    (hok : parseChunk schema plan calls = .ok batch) {name : String}
    (h : (chunkBuilder schema plan calls).encodes name = true)
    (hname : name ∈ outputNames schema plan calls) : declaredType schema plan name = .string := by
  have htype := (declared_chunkBuilder (errors_of_finish hok).1).1.typeOf_of_encodes h
  rw [typeOf_chunkTable (mem_chunkTable_of_mem_outputNames hname)] at htype
  exact Option.some.inj htype

end Chunk

/-! ## The batches of a run -/

omit [Platform] in
/-- A traversal that succeeds collects the results of its elements. -/
theorem mem_of_mapM {α β ε : Type} {f : α → Except ε β} {xs : List α} {ys : List β}
    (h : xs.mapM f = .ok ys) :
    (∀ x ∈ xs, ∃ y ∈ ys, f x = .ok y) ∧ ∀ y ∈ ys, ∃ x ∈ xs, f x = .ok y := by
  induction xs generalizing ys with
  | nil =>
      cases h
      simp
  | cons x xs ih =>
      rw [List.mapM_cons] at h
      cases hx : f x with
      | error err => simp [hx, bind, Except.bind] at h
      | ok y =>
          cases hxs : xs.mapM f with
          | error err => simp [hx, hxs, bind, Except.bind] at h
          | ok ys' =>
              simp only [hx, hxs, bind, Except.bind, pure, Except.pure, Except.ok.injEq] at h
              subst h
              obtain ⟨hleft, hright⟩ := ih hxs
              constructor
              · rintro x' (_ | ⟨_, hx'⟩)
                · exact ⟨y, List.mem_cons_self, hx⟩
                · obtain ⟨y', hy', hok⟩ := hleft x' hx'
                  exact ⟨y', List.mem_cons_of_mem _ hy', hok⟩
              · rintro y' (_ | ⟨_, hy'⟩)
                · exact ⟨x, List.mem_cons_self, hx⟩
                · obtain ⟨x', hx', hok⟩ := hright y' hy'
                  exact ⟨x', List.mem_cons_of_mem _ hx', hok⟩

/-- Two chunks look alike to the schema: they are exported with the same names, and the same of
their columns are encoded. -/
def SameLayout (schema : FrozenSchema) (plan : ExecutionPlan) (calls calls' : List Call) : Prop :=
  outputNames schema plan calls = outputNames schema plan calls' ∧
    ∀ n ∈ outputNames schema plan calls,
      (chunkBuilder schema plan calls).encodes n = (chunkBuilder schema plan calls').encodes n

instance (schema : FrozenSchema) (plan : ExecutionPlan) (calls calls' : List Call) :
    Decidable (SameLayout schema plan calls calls') :=
  inferInstanceAs (Decidable (_ ∧ _))

section Run

variable {schema : FrozenSchema} {plan : ExecutionPlan}

/-- The batches of two chunks have one schema exactly when the chunks look alike. -/
theorem schema_eq_iff {calls calls' : List Call} {batch batch' : RecordBatch}
    (hok : parseChunk schema plan calls = .ok batch)
    (hok' : parseChunk schema plan calls' = .ok batch') :
    batch.schema = batch'.schema ↔ SameLayout schema plan calls calls' := by
  rw [schema_parseChunk hok, schema_parseChunk hok', SameLayout]
  constructor
  · intro h
    have hnames : outputNames schema plan calls = outputNames schema plan calls' := by
      have hfst := congrArg (List.map Prod.fst) h
      simpa [Function.comp_def] using hfst
    refine ⟨hnames, fun n hn => ?_⟩
    rw [← hnames] at h
    have htype := congrArg Prod.snd (List.map_inj_left.mp h n hn)
    simp only at htype
    -- a string column and a dictionary differ in their types
    cases henc : (chunkBuilder schema plan calls).encodes n with
    | true =>
        have hstring := declaredType_of_encodes hok henc hn
        cases henc' : (chunkBuilder schema plan calls').encodes n with
        | true => rfl
        | false =>
            rw [henc, henc', hstring] at htype
            cases htype
    | false =>
        cases henc' : (chunkBuilder schema plan calls').encodes n with
        | true =>
            have hstring := declaredType_of_encodes hok' henc' (hnames ▸ hn)
            rw [henc, henc', hstring] at htype
            cases htype
        | false => rfl
  · rintro ⟨hnames, henc⟩
    rw [← hnames]
    exact List.map_congr_left fun n hn => by rw [henc n hn]

/-- **When the batches of a run share one schema.** The consumer is handed the batches of the chunks,
each once, in whatever order; they all have the same ordered names and types exactly when any two
chunks are exported with the same names and have the same of their columns encoded. -/
theorem one_schema_iff {chunks : List (List Call)} {batches delivered : List RecordBatch}
    (hrun : parseChunks schema plan chunks = .ok batches) (hdelivered : delivered.Perm batches) :
    (∀ x ∈ delivered, ∀ y ∈ delivered, x.schema = y.schema) ↔
      ∀ calls ∈ chunks, ∀ calls' ∈ chunks, SameLayout schema plan calls calls' := by
  obtain ⟨hbatch, hchunk⟩ := mem_of_mapM hrun
  simp only [← hdelivered.mem_iff] at hbatch hchunk
  constructor
  · intro h calls hcalls calls' hcalls'
    obtain ⟨x, hx, hok⟩ := hbatch calls hcalls
    obtain ⟨y, hy, hok'⟩ := hbatch calls' hcalls'
    exact (schema_eq_iff hok hok').mp (h x hx y hy)
  · intro h x hx y hy
    obtain ⟨calls, hcalls, hok⟩ := hchunk x hx
    obtain ⟨calls', hcalls', hok'⟩ := hchunk y hy
    exact (schema_eq_iff hok hok').mpr (h calls hcalls calls' hcalls')

/-- **An exact layout without automatic dictionaries fixes the schema of every batch.** -/
theorem one_schema_of_exact (hexact : schema.exact = true) (hauto : plan.autoDict = false)
    {chunks : List (List Call)} {batches delivered : List RecordBatch}
    (hrun : parseChunks schema plan chunks = .ok batches) (hdelivered : delivered.Perm batches) :
    ∀ x ∈ delivered, ∀ y ∈ delivered, x.schema = y.schema := by
  rw [one_schema_iff hrun hdelivered]
  have hchunk : ∀ calls ∈ chunks, (chunkBuilder schema plan calls).unknownError = none ∧
      chunkTable schema plan calls = layoutTable schema plan := by
    intro calls hcalls
    obtain ⟨batch, -, hok⟩ := (mem_of_mapM hrun).1 calls hcalls
    have hunknown := (errors_of_finish hok).1
    have hstart := (declared_withPlan plan).ensureSchema schema
    have htargets := @callTargets_of_exact _ _ schema rfl hexact _ hunknown
    refine ⟨hunknown, RowTable.declareAll_of_mem fun p hp => ?_⟩
    obtain ⟨n, hn, rfl⟩ := List.mem_map.mp hp
    rw [plan_ensureSchema, (withPlan_frame plan).1] at htargets
    exact (hstart.mem_index n).mp (htargets n hn)
  intro calls hcalls calls' hcalls'
  refine ⟨?_, fun n _ => ?_⟩
  · rw [outputNames, outputNames, (hchunk calls hcalls).2, (hchunk calls' hcalls').2]
  · have hplan := (declared_chunkBuilder (hchunk calls hcalls).1).2
    have hplan' := (declared_chunkBuilder (hchunk calls' hcalls').1).2
    rw [encodes, encodes, hplan, hplan', hauto, Bool.false_and, Bool.false_and]

/-- So it is for what the coordinator of an ordered run has handed to the consumer. -/
theorem consumed_one_schema_iff {run : Run RecordBatch Error} {chunks : List (List Call)}
    (hrun : parseChunks schema plan chunks = .ok ((List.range run.numChunks).map run.batch))
    {s : State run} (hreach : Reachable run s) (hreturned : s.phase = .returned (.ok ())) :
    (∀ x ∈ s.coordinator.consumed, ∀ y ∈ s.coordinator.consumed, x.schema = y.schema) ↔
      ∀ calls ∈ chunks, ∀ calls' ∈ chunks, SameLayout schema plan calls calls' :=
  one_schema_iff hrun (by rw [(ordered_delivery hreach).2.2.2 hreturned])

end Run

end Batches

section Examples

attribute [local instance] integerPlatform

/-- A layout that other columns may follow. -/
def openLayout : FrozenSchema := ⟨[("A", .string)], false⟩

/-- The calls for one row of text fields. -/
def rowCalls (fields : List (String × String)) : List Call :=
  .beginRow :: fields.map (fun p => .put (.field p.1 (.str p.2))) ++ [.endRow]

/-- The batch of a row over its own columns. -/
def textBatch (fields : List (String × String)) : RecordBatch :=
  ⟨fields.map fun p => (p.1, .utf8), fields.map fun p => ⟨.utf8, [some (.str p.2)]⟩, 1⟩

/-- Chunks with the same columns give batches of one schema. -/
theorem one_schema_of_same_fields :
    (textBatch [("A", "1"), ("B", "2")]).schema = (textBatch [("A", "3"), ("B", "4")]).schema := by
  have hrun : parseChunks openLayout {}
      [rowCalls [("A", "1"), ("B", "2")], rowCalls [("A", "3"), ("B", "4")]] =
      .ok [textBatch [("A", "1"), ("B", "2")], textBatch [("A", "3"), ("B", "4")]] := rfl
  refine (one_schema_iff hrun (.refl _)).mpr (by decide) _ List.mem_cons_self _ ?_
  exact List.mem_cons_of_mem _ List.mem_cons_self

/-- A column that only one chunk has makes the batches differ. -/
theorem one_schema_falls :
    ¬ ∀ (schema : FrozenSchema) (plan : ExecutionPlan) (chunks : List (List Call))
        (batches : List RecordBatch), parseChunks schema plan chunks = .ok batches →
        ∀ x ∈ batches, ∀ y ∈ batches, x.schema = y.schema := by
  intro h
  have hrun : parseChunks openLayout {} [rowCalls [("A", "1")], rowCalls [("A", "1"), ("B", "2")]] =
      .ok [textBatch [("A", "1")], textBatch [("A", "1"), ("B", "2")]] := rfl
  have heq := h _ _ _ _ hrun _ List.mem_cons_self _ (List.mem_cons_of_mem _ List.mem_cons_self)
  exact absurd heq (by decide)

end Examples

end Stream

end Rypipe
