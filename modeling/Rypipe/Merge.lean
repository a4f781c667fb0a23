import Rypipe.ArrowExport
import Rypipe.Engine.Finish

/-! # Merging and exporting several builders

`merge.rs`: appending one builder to another (`extend`), and exporting a list of per-chunk builders
as batches over one common schema (`engines_to_record_batches`). -/

namespace Rypipe

variable [Platform]

/-- The error for a column whose variants cannot be reconciled. -/
def conflictingTypes (name a b : String) : Error :=
  .merge ("column '" ++ name ++ "' has conflicting types across chunks (" ++ a ++ " vs " ++ b ++
    "); provide explicit field_types")

namespace TableBuilder

variable (b : TableBuilder)

/-- `Vec::swap_remove`, what is left: the last element takes the place of the one at `i`. -/
def swapRemove (columns : List ColumnBuilder) (i : Nat) : List ColumnBuilder :=
  match columns.getLast? with
  | some moved => (columns.set i moved).dropLast
  | none => []

/-- The index after the column at `idx` was taken: the name of the last slot gets the free one. -/
def takeIndex (index : StrMap Nat) (name : String) (idx last : Nat) : StrMap Nat :=
  let index := index.erase name
  if idx = last then index
  else
    match index.entries.find? fun e => e.2 == last with
    | some e => index.insert e.1 idx
    | none => index

/-- `take_column`: remove a column, the last one taking its slot. -/
def takeColumn (name : String) : Option (ColumnBuilder × TableBuilder) := do
  let idx ← b.fieldIndex.lookup name
  let c ← b.columns[idx]?
  some (c, { b with
    columns := swapRemove b.columns idx
    fieldIndex := takeIndex b.fieldIndex name idx (b.columns.length - 1)
    rowDirty := (b.rowDirty.resizeFor b.columns.length).clear })

/-- Reconcile the variants of two columns and append the second to the first; the first as it is
left when that fails. -/
def mergeColumn (name : String) (c other : ColumnBuilder) :
    ColumnBuilder × Except Error Unit :=
  let promoted : Except Error (Except (ColumnBuilder × Error) (ColumnBuilder × ColumnBuilder)) :=
    if c.variantKey = other.variantKey then .ok (.ok (c, other))
    else
      match unifyVariants c.variantKey other.variantKey with
      | none => .error (conflictingTypes name c.variantKey other.variantKey)
      | some target => do
          let c ← c.promoteToVariant target
          match other.promoteToVariant target with
          | .ok other => .ok (.ok (c, other))
          | .error err => .ok (.error (c, err))
  match promoted with
  | .error err => (c, .error err)
  | .ok (.error (c, err)) => (c, .error err)
  | .ok (.ok (c, other)) =>
      match c.extendOwned other with
      | .ok c => (c, .ok ())
      | .error err => (c, .error err)

/-- Step 1 of `extend`: a column of the other builder that this one does not have, null-filled. -/
def adoptColumn (otherPlan : ExecutionPlan) (rows : Nat) (name : String) : TableBuilder :=
  if name ∈ b.fieldIndex then b
  else
    let c := (ColumnBuilder.ofType (otherPlan.columnType name)).pushNulls rows
    let b' := b.appendColumn name c (b.schemaInsertIndex name)
    { b' with rowDirty := b'.rowDirty.growByWord b'.columns.length }

/-- Step 2 of `extend`: append the other builder's column of each name, or nulls. -/
def extendColumns (b other : TableBuilder) : List String → TableBuilder × Except Error Unit
  | [] => (b, .ok ())
  | name :: rest =>
      match b.fieldIndex.lookup name with
      | none => extendColumns b other rest
      | some idx =>
          match other.takeColumn name with
          | none =>
              extendColumns { b with columns := b.columns.modify idx (·.pushNulls other.rowCount) }
                other rest
          | some (c, other) =>
              match b.columns[idx]? with
              | none => extendColumns b other rest
              | some own =>
                  let (merged, result) := mergeColumn name own c
                  let b := { b with columns := b.columns.set idx merged }
                  match result with
                  | .ok () => extendColumns b other rest
                  | .error err => (b, .error err)

/-- `extend`: append the rows of another builder; the builder as it is left, and the outcome. -/
def extend (b other : TableBuilder) : TableBuilder × Except Error Unit :=
  let b := b.normalize
  let other := other.normalize
  let b := { b with
    strictError := b.strictError.or other.strictError
    unknownError := b.unknownError.or other.unknownError
    rowsAccepted := b.rowsAccepted + other.rowsAccepted
    rowsRejected := b.rowsRejected + other.rowsRejected }
  let rows := b.rowCount
  let b := other.columnOrder.foldl (fun b name => b.adoptColumn other.plan rows name) b
  match extendColumns b other b.columnOrder with
  | (b, .ok ()) => ({ b with rowCount := rows + other.rowCount }, .ok ())
  | (b, .error err) => (b, .error err)

/-- `get_column`. -/
def getColumn (name : String) : Option ColumnBuilder :=
  (b.fieldIndex.lookup name).bind fun i => b.columns[i]?

/-- Replace a column. -/
def setColumn (name : String) (c : ColumnBuilder) : TableBuilder :=
  match b.fieldIndex.lookup name with
  | some i => { b with columns := b.columns.set i c }
  | none => b

end TableBuilder

/-- The common variant of each column, in order of first appearance. -/
abbrev Targets : Type := List (String × String)

/-- One column sighting: a new name, or one more variant to reconcile. -/
def noteVariant (targets : Targets) (name key : String) : Except Error Targets :=
  match targets.lookup name with
  | none => .ok (targets ++ [(name, key)])
  | some t =>
      match unifyVariants t key with
      | some u => .ok (targets.map fun p => if p.1 = name then (name, u) else p)
      | none => .error (conflictingTypes name t key)

/-- The sightings of one builder, in its column order. -/
def sightings (e : TableBuilder) : List (String × String) :=
  e.columnOrder.filterMap fun name => (e.getColumn name).map fun c => (name, c.variantKey)

/-- The common variants over all builders. -/
def unifyTargets (engines : List TableBuilder) : Except Error Targets :=
  (engines.flatMap sightings).foldlM (fun targets p => noteVariant targets p.1 p.2) []

/-- Promote the columns of a builder to the common variants. -/
def promoteColumns (targets : Targets) (e : TableBuilder) : Except Error TableBuilder :=
  e.columnOrder.foldlM (fun e name =>
    match targets.lookup name, e.getColumn name with
    | some target, some c => do return e.setColumn name (← c.promoteToVariant target)
    | _, _ => .ok e) e

/-- The Arrow type of a name: that of its first column. -/
def firstDatatype (engines : List TableBuilder) (name : String) : Option DataType :=
  engines.findSome? fun e =>
    if name ∈ e.columnOrder then (e.getColumn name).map (·.arrowDatatype) else none

/-- The columns of one builder over the common schema, null-filled where it has none. -/
def exportEngine (e : TableBuilder) : Schema → Except Error (List ArrayRef)
  | [] => .ok []
  | (name, datatype) :: rest => do
      match e.getColumn name with
      | some c =>
          let (array, left) ← c.toArrowArray
          return array :: (← exportEngine (e.setColumn name left) rest)
      | none => return nullArray datatype e.rowCount :: (← exportEngine e rest)

/-- `engines_to_record_batches`: each non-empty builder as a batch over one common schema. -/
def enginesToRecordBatches (engines : List TableBuilder) (plan : ExecutionPlan) :
    Except Error (List RecordBatch) := do
  let engines ← engines.mapM (·.prepareFinish)
  let engines := engines.filter fun e => decide (0 < e.rowCount)
  let targets ← unifyTargets engines
  if targets.isEmpty then return []
  let engines ← engines.mapM (promoteColumns targets)
  let schema : Schema := targets.filterMap fun p =>
    (firstDatatype engines p.1).map fun datatype => (p.1, datatype)
  let batches ← engines.mapM fun e => do RecordBatch.tryNew schema (← exportEngine e schema)
  match plan.filter with
  | some filter => batches.mapM fun batch => applyCompareFilter batch filter
  | none => return batches

end Rypipe
