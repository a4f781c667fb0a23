import Rypipe.Dict
import Rypipe.Merge

/-! # The parallel executor

The steps of `ParallelExecutor::parse` after the chunks have been parsed (`parallel.rs`): the
per-chunk dictionary upgrade and the unification of one dictionary column across the chunks under
`auto_dict`, and the choice between exporting the chunks separately and merging them. -/

namespace Rypipe

variable [Platform]

/-- `schemas_consistent`: every chunk agrees with the first on the variants of their common
columns. -/
def schemasConsistent : List TableBuilder → Bool
  | [] => true
  | first :: rest => rest.all fun e => e.fieldIndex.entries.all fun entry =>
      match first.getColumn entry.1, e.columns[entry.2]? with
      | some c, some c' => c.variantKey == c'.variantKey
      | _, _ => true

/-- The dictionary values of a column of a chunk. -/
def chunkDict (e : TableBuilder) (name : String) : Option (Interner String) :=
  (e.getColumn name).bind ColumnBuilder.dictValues

/-- The first dictionary column of the first chunk whose values differ in some other chunk. -/
def unifyColumn : List TableBuilder → Option String
  | [] => none
  | first :: rest => first.columnOrder.find? fun name =>
      (chunkDict first name).any fun dict =>
        rest.any fun e => (chunkDict e name).any fun dict' => decide (dict'.values ≠ dict.values)

/-- The index `replace_dict` gets: the position of each unified value, the last one winning. -/
def indexOfValues (values : List String) : StrMap Nat :=
  (values.zipIdx).foldl (fun index p => index.insert p.1 p.2) ∅

/-- Apply one remap table to the column `name` of a chunk, and give it the unified dictionary. -/
def applyRemap (name : String) (unified : Interner String) (e : TableBuilder) (remap : RemapTable) :
    TableBuilder :=
  match e.getColumn name with
  | some c => e.setColumn name ((c.remapCodes remap.map).replaceDict unified)
  | none => e

/-- Pair the chunks with the remap tables in order; chunks left over keep their codes. -/
def applyRemaps (name : String) (unified : Interner String) :
    List TableBuilder → List RemapTable → List TableBuilder
  | e :: engines, remap :: remaps =>
      applyRemap name unified e remap :: applyRemaps name unified engines remaps
  | engines, _ => engines

/-- Unify the dictionaries of the column `name`, seeded with the first chunk's values. -/
def unifyChunks (name : String) (seed : Interner String) (engines : List TableBuilder) :
    List TableBuilder :=
  let columns := engines.filterMap (·.getColumn name)
  let (values, remaps) := unifyDictionaries ⟨seed.values, ∅⟩ columns
  applyRemaps name ⟨values, indexOfValues values⟩ engines remaps

/-- The auto-dict block of `parse`: upgrade every chunk, then unify the first dictionary column
that differs; `none` where the chunks go to the merge path instead. -/
def autoDictBlock (engines : List TableBuilder) : Option (List TableBuilder) :=
  let engines := engines.map (·.autoDictUpgrade)
  if schemasConsistent engines then
    match unifyColumn engines, engines with
    | some name, first :: _ =>
        match chunkDict first name with
        | some seed => some (unifyChunks name seed engines)
        | none => some engines
    | _, _ => some engines
  else none

/-- The chunks after the auto-dict block, whichever path they take next. -/
def afterAutoDict (engines : List TableBuilder) : List TableBuilder :=
  (autoDictBlock engines).getD (engines.map (·.autoDictUpgrade))

/-- The merge path of `parse`. -/
def mergeChunks (plan : ExecutionPlan) (engines : List TableBuilder) :
    Except Error (List RecordBatch) := do
  let merged ← engines.foldlM (fun merged e =>
    match TableBuilder.extend merged e with
    | (b, .ok ()) => Except.ok b
    | (_, .error err) => Except.error err) (TableBuilder.withPlan plan)
  let batch ← merged.finish
  match plan.filter with
  | some filter => return [← applyCompareFilter batch filter]
  | none => return [batch]

/-- `ParallelExecutor::parse`, on the builders of the parsed chunks. -/
def parseChunks (plan : ExecutionPlan) (engines : List TableBuilder) :
    Except Error (List RecordBatch) :=
  if engines.isEmpty then .ok []
  else if !plan.autoDict && schemasConsistent engines then enginesToRecordBatches engines plan
  else if plan.autoDict then
    match autoDictBlock engines with
    | some engines => enginesToRecordBatches engines plan
    | none => mergeChunks plan (engines.map (·.autoDictUpgrade))
  else mergeChunks plan engines

end Rypipe
