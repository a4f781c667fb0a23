import Rypipe.Foundation.WordSet
import Rypipe.Engine.Predicates

/-! # The table builder

The state of the columnar table builder (`engine/table_builder.rs`) and the steps it takes while
rows are being read: declaring columns, writing a value to a column, buffering the values of a row
under a filter, and closing the row. Slots are positions in `columns`; `fieldIndex` finds the slot
of an output name and `columnOrder` lists the output names in export order.

The steps are those of a builder without a memory limit; the checks of `table_builder/memory.rs` in
front of them are in `Engine.Memory`. -/

namespace Rypipe

variable [Platform]

/-- Errors the engine reports. -/
inductive Error where
  /-- Invalid or inconsistent execution plan, also a strict-types violation. -/
  | plan (message : String)
  /-- A strict memory allowance was exceeded. -/
  | memory (used limit : Nat)
  /-- Merge conflict between chunks, also an unknown field. -/
  | merge (message : String)
  /-- Arrow array or batch construction failure, by the kind Arrow reports. -/
  | arrow (kind : String)
  deriving DecidableEq, Repr

/-- A column layout fixed before parsing. -/
structure FrozenSchema where
  /-- Output names and types, in final order. -/
  columns : List (String × FieldType)
  /-- Whether the layout comes from a full scan. -/
  exact : Bool

/-- `column_names`. -/
def FrozenSchema.names (s : FrozenSchema) : List String := s.columns.map Prod.fst

/-- The text of an unknown-field error; `advice` is what the reporting path suggests. -/
def FrozenSchema.unknownField (s : FrozenSchema) (name advice : String) : String :=
  "unknown field " ++ debugStr name ++ " not in frozen schema (" ++ toString s.columns.length ++
    " columns, exact=" ++ formatBool s.exact ++ "); pass schema=[...]" ++ advice

/-- The advice of the paths that write columns directly. -/
def fullListAdvice : String := " with full column list or use full-scan discovery"

/-- A call of the row observer. -/
inductive Event where
  | beginRow (row : Nat)
  | putField (row : Nat) (name : String) (slot : Nat) (value : Value)
  | rowAccepted (row : Nat)
  | rowRejected (row : Nat)
  | chunkFinished (total accepted rejected : Nat)

/-- The values of the current row, kept back until the filter decides. -/
structure RowBuffer where
  /-- Slots with their values. -/
  fields : List (Nat × Value) := []
  state : PredicateState := .undecided
  /-- The slots the filter reads. -/
  predicateMask : WordSet 64 := .empty
  /-- The filter has passed: the remaining values go directly to the columns. -/
  direct : Bool := false
  /-- The slot of the first filter field seen. -/
  predicateOrdinal : Option Nat := none
  /-- Whether buffering still pays; false once the filter field turned out to come late. -/
  bufferWorthwhile : Bool := true
  /-- The resolved names of the filter fields, once collected. -/
  predNames : List String := []

/-- The columnar table builder. -/
structure TableBuilder where
  columns : List ColumnBuilder := []
  fieldIndex : StrMap Nat := ∅
  columnOrder : List String := []
  rowCount : Nat := 0
  plan : ExecutionPlan := {}
  /-- The slots that received a value in the current row. -/
  rowDirty : WordSet 64 := .empty
  frozen : Option FrozenSchema := none
  unknownError : Option String := none
  /-- Present exactly when the plan has a filter. -/
  rowBuf : Option RowBuffer := none
  cachedWantedMask : BitVec 64 := 0
  /-- Slot and resolved name expected at each ordinal of a row. -/
  ordinalExpect : List (Option (Nat × String)) := []
  currentOrdinal : Nat := 0
  strictError : Option Error := none
  rowsAccepted : Nat := 0
  rowsRejected : Nat := 0
  /-- The calls of the plan's observer so far, oldest first. -/
  events : List Event := []

/-- `{ft:?}`. -/
def debugFieldType : FieldType → String
  | .string => "String"
  | .int64 => "Int64"
  | .float64 => "Float64"
  | .boolean => "Boolean"
  | .dictionary => "Dictionary"
  | .date32 => "Date32"
  | .timestamp unit format =>
      let u := match unit with
        | .second => "Second"
        | .millisecond => "Millisecond"
        | .microsecond => "Microsecond"
        | .nanosecond => "Nanosecond"
      let f := match format with
        | some f => "Some(" ++ debugStr f ++ ")"
        | none => "None"
      "Timestamp(" ++ u ++ ", " ++ f ++ ")"
  | .decimal128 scale => "Decimal128(" ++ toString scale ++ ")"

/-- `collect_predicate_field_names`: the resolved names of the fields of a filter. -/
def collectPredicateFieldNames (plan : ExecutionPlan) (pred : FilterPredicate) : List String :=
  pred.fields.map (filterName plan)

namespace TableBuilder

variable (b : TableBuilder)

/-- Call the observer, if the plan has one. -/
def notify (e : Event) : TableBuilder :=
  { b with events := if b.plan.observer then b.events ++ [e] else b.events }

/-- Add a column under a new name, at position `orderIdx` of the export order. -/
def appendColumn (name : String) (c : ColumnBuilder) (orderIdx : Nat) : TableBuilder :=
  { b with
    columns := b.columns ++ [c]
    fieldIndex := b.fieldIndex.insert name b.columns.length
    columnOrder := b.columnOrder.insertIdx orderIdx name }

/-- Add an empty column of the given type at the end, unless the name is taken. -/
def declareColumn (name : String) (ty : FieldType) : TableBuilder :=
  if name ∈ b.fieldIndex then b
  else b.appendColumn name (.ofType ty) b.columnOrder.length

/-- The names `predeclare_schema_columns` declares: the projection without dropped names, then the
fields of the filter. -/
def predeclaredNames (plan : ExecutionPlan) : List String :=
  plan.schemaOrder.filter (fun n => !(n ∈ plan.dropFields : Bool)) ++
    ((plan.filter.map (collectPredicateFieldNames plan)).getD []).filter
      fun n => !(n ∈ plan.dropFields : Bool)

/-- `predeclare_schema_columns`. -/
def predeclareSchemaColumns : TableBuilder :=
  if b.plan.schemaOrder.isEmpty then b
  else
    let b := (predeclaredNames b.plan).foldl
      (fun b name => b.declareColumn name (b.plan.columnType name)) b
    { b with rowDirty := b.rowDirty.resizeFor b.columns.length }

/-- `compute_wanted_mask`. -/
def computeWantedMask : BitVec 64 :=
  if b.plan.schemaOrder.isEmpty then 0
  else if b.fieldIndex.entries.any fun e => decide (64 ≤ e.2) then 0
  else b.fieldIndex.entries.foldl (fun mask e => mask ||| BitVec.twoPow 64 e.2) 0

/-- `with_plan`. -/
def withPlan (plan : ExecutionPlan) : TableBuilder :=
  let b : TableBuilder := { plan, rowBuf := plan.filter.map fun _ => {} }
  let b := b.predeclareSchemaColumns
  { b with cachedWantedMask := b.computeWantedMask }

/-- `ensure_schema`: declare every column of a fixed layout, and freeze it. -/
def ensureSchema (schema : FrozenSchema) : TableBuilder :=
  let b := schema.columns.foldl (fun b p => b.declareColumn p.1 p.2) b
  { b with rowDirty := b.rowDirty.resizeFor b.columns.length, frozen := some schema }

/-- `schema_insert_index`: where a new name goes in the export order. -/
def schemaInsertIndex (name : String) : Nat :=
  let position (n : String) := b.plan.schemaOrder.findIdx? (· == n)
  if b.plan.schemaOrder.isEmpty then b.columnOrder.length
  else
    match position name with
    | some p =>
        (b.columnOrder.findIdx? fun existing => (position existing).any (p < ·)).getD
          b.columnOrder.length
    | none => b.columnOrder.length

/-- Record the first unknown field. -/
def reportUnknown (message : String) : TableBuilder :=
  { b with unknownError := b.unknownError.or (some message) }

/-- The frozen layout, where it is exact and does not have the column `name` yet. -/
def exactWithout (name : String) : Option FrozenSchema :=
  if name ∈ b.fieldIndex then none else b.frozen.filter (·.exact)

/-- The rows a new column is back-filled with: after a mid-row drain the current row is already
counted. -/
def backfill : Nat := if b.rowBuf.any (·.direct) then b.rowCount - 1 else b.rowCount

/-- The new column of `ensure_column_idx`: back-filled, and inserted in the export order. -/
def createColumn (name : String) : TableBuilder :=
  let c := (ColumnBuilder.ofType (b.plan.columnType name)).pushNulls b.backfill
  let b' := b.appendColumn name c (b.schemaInsertIndex name)
  { b' with rowDirty := b'.rowDirty.growFor b'.columns.length }

/-- `ensure_column_idx`: the slot of a column, created if it does not exist. -/
def ensureColumnIdx (name : String) : TableBuilder × Nat :=
  match b.fieldIndex.lookup name with
  | some idx => (b, idx)
  | none =>
      match b.exactWithout name with
      | some frozen => (b.reportUnknown (frozen.unknownField name fullListAdvice), 0)
      | none => (b.createColumn name, b.columns.length)

/-- The strict-types violation of a value about to land in slot `idx`, if it is one. -/
def strictViolation (idx : Nat) (value : Value) : Option Error := do
  let s ← value.asStr
  let name ← b.columnOrder[idx]?
  let ft ← b.plan.fieldTypes.lookup name
  if parsesAs s ft then none
  else some (.plan ("strict_types: value " ++ debugStr (String.ofList (s.toList.take 64)) ++
    " in column " ++ debugStr name ++ " at row " ++ toString b.rowCount ++
    " does not parse as declared type " ++ debugFieldType ft))

/-- `record_strict_violation_at`: keep the first violation. -/
def recordStrictViolationAt (idx : Nat) (value : Value) : TableBuilder :=
  { b with
    strictError :=
      if b.plan.strictTypes then b.strictError.or (b.strictViolation idx value)
      else b.strictError }

/-- `notify_put_field`. -/
def notifyPutField (idx : Nat) (value : Value) : TableBuilder :=
  { b with
    events :=
      match b.columnOrder[idx]? with
      | some name => (b.notify (.putField b.rowCount name idx value)).events
      | none => b.events }

/-- Learn, in the first row, which slot comes at the current ordinal, and count the value. -/
def recordOrdinal (idx : Nat) (name : String) : TableBuilder :=
  { b with
    ordinalExpect :=
      if b.rowCount = 0 then
        (b.ordinalExpect.takeD (max b.ordinalExpect.length (b.currentOrdinal + 1)) none).set
          b.currentOrdinal (some (idx, name))
      else b.ordinalExpect
    currentOrdinal := b.currentOrdinal + 1 }

/-- Put a value in a column as its cell of the row after the first `rowCount`, replacing the cell
that is there. -/
def overwrite (rowCount : Nat) (value : Value) (c : ColumnBuilder) : ColumnBuilder :=
  (if rowCount < c.len then c.pop else c).pushValue value

/-- Mark slot `idx` dirty and put the value in its column. -/
def writeSlot (idx : Nat) (value : Value) : TableBuilder :=
  { b with
    rowDirty := b.rowDirty.insert idx
    columns := b.columns.modify idx (overwrite b.rowCount value) }

/-- `push_field_resolved`: push a value under an output name. -/
def pushFieldResolved (name : String) (value : Value) : TableBuilder :=
  match b.exactWithout name with
  | some frozen => b.reportUnknown (frozen.unknownField name fullListAdvice)
  | none =>
      let (b, idx) := b.ensureColumnIdx name
      let b := (b.recordStrictViolationAt idx value).notifyPutField idx value
      (b.recordOrdinal idx name).writeSlot idx value

/-- `resolve_and_slot`: the slot of a raw field, if its column exists. -/
def resolveAndSlot (name : String) : Option Nat := do
  b.fieldIndex.lookup (← b.plan.resolveField name)

/-- `push_field`: resolve a raw field name and push the value. -/
def pushField (name : String) (value : Value) : TableBuilder :=
  if b.plan.isPlain then b.pushFieldResolved name value
  else
    match b.resolveAndSlot name with
    | some idx =>
        let b := (b.recordStrictViolationAt idx value).notifyPutField idx value
        (b.recordOrdinal idx ((b.plan.resolveField name).getD name)).writeSlot idx value
    | none =>
        match b.plan.resolveField name with
        | some resolved => b.pushFieldResolved resolved value
        | none => b

/-- Null-fill the columns without a value in the current row, and clear the dirty mask. -/
def nullFill : TableBuilder :=
  if b.rowDirty.isFull b.columns.length then { b with rowDirty := b.rowDirty.clear }
  else
    { b with
      columns := b.columns.mapIdx fun i c => if b.rowDirty.test i then c else c.push none
      rowDirty := b.rowDirty.clear }

/-- Count the row as accepted. -/
def acceptRow : TableBuilder :=
  { b with rowCount := b.rowCount + 1, rowsAccepted := b.rowsAccepted + 1 }.notify
    (.rowAccepted b.rowCount)

/-- Count the row as rejected. -/
def rejectRow : TableBuilder :=
  { b with rowsRejected := b.rowsRejected + 1 }.notify (.rowRejected b.rowCount)

/-- Drop the last cell of every column. -/
def popRow : TableBuilder := { b with columns := b.columns.map .pop }

/-- `finish_row`: null-fill, evaluate the filter on the columns, and keep the row or pop it. -/
def finishRow : TableBuilder :=
  let b := b.nullFill
  match b.plan.filter with
  | some filter =>
      if filter.check b.columns b.fieldIndex b.rowCount b.plan then b.acceptRow
      else b.popRow.rejectRow
  | none => b.acceptRow

/-- `null_fill_missing`, after a mid-row drain has already counted the row. -/
def nullFillMissing : TableBuilder := b.nullFill

end TableBuilder

end Rypipe
