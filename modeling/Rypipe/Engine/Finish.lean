import Rypipe.Arrow
import Rypipe.Columnar.Variants
import Rypipe.Engine.Sink
import Mathlib.Data.List.Sort

/-! # Cutting and exporting a builder

The operations of the table builder between rows: cutting off the first rows (`split_off`),
truncating a row in progress (`normalize`), the automatic dictionary upgrade, `reset`, and the
export to a record batch (`finish`). -/

namespace Rypipe

variable [Platform]

namespace TableBuilder

variable (b : TableBuilder)

/-- `normalize`: pop every column back to `rowCount` cells. -/
def normalize : TableBuilder :=
  { b with
    columns := b.columns.map fun c => ColumnBuilder.pop^[c.len - b.rowCount] c
    rowDirty := b.rowDirty.clear }

/-- `reset`: drop all data and keep the plan. -/
def reset : TableBuilder :=
  { b with
    columns := []
    fieldIndex := ∅
    columnOrder := []
    rowDirty := b.rowDirty.clear
    rowCount := 0
    rowBuf := b.rowBuf.map fun buf => { buf with fields := [], state := .undecided }
    unknownError := none
    strictError := none
    rowsAccepted := 0
    rowsRejected := 0 }

/-- `split_off`: the first `n` rows as a builder of their own, and the rest. -/
def splitOff (n : Nat) : TableBuilder × TableBuilder :=
  let words : WordSet 64 := WordSet.empty.resize ((b.columns.length + 63) / 64)
  let part : TableBuilder :=
    { columns := b.columns.map (·.takeRows n)
      fieldIndex := b.fieldIndex
      columnOrder := b.columnOrder
      rowCount := n
      plan := b.plan
      rowDirty := words
      frozen := b.frozen
      cachedWantedMask := b.cachedWantedMask
      rowBuf := b.plan.filter.map fun _ =>
        { predicateMask := (b.rowBuf.map (·.predicateMask)).getD .empty
          predNames := (b.rowBuf.map (·.predNames)).getD [] }
      rowsAccepted := b.rowsAccepted
      rowsRejected := b.rowsRejected }
  (part,
    { b with
      columns := b.columns.map (·.dropRows n)
      rowCount := b.rowCount - n
      rowDirty := words
      rowsAccepted := 0
      rowsRejected := 0 })

/-- `auto_dict_upgrade`; the default ratio is `0.05`, the default size 256. -/
def autoDictUpgrade : TableBuilder :=
  if b.plan.autoDict then
    let maxRatio := b.plan.dictThreshold.getD (Platform.scientific 5 2)
    let maxSize := b.plan.dictMaxSize.getD 256
    { b with columns := b.columns.map (ColumnBuilder.tryUpgradeToDict 512 maxRatio maxSize) }
  else b

/-- `prepare_finish`: surface the recorded errors, report to the observer, truncate. -/
def prepareFinish : Except Error TableBuilder :=
  match b.unknownError, b.strictError with
  | some message, _ => .error (.merge message)
  | none, some err => .error err
  | none, none =>
      .ok (b.notify
        (.chunkFinished (b.rowsAccepted + b.rowsRejected) b.rowsAccepted b.rowsRejected)).normalize

/-- `sort_columns`: order the names by their position in the projection, the others last. -/
def sortColumns : TableBuilder :=
  if b.plan.schemaOrder.isEmpty then b
  else
    let rank (name : String) := (b.plan.schemaOrder.findIdx? (· == name)).getD usizeMax
    { b with columnOrder := b.columnOrder.insertionSort fun m n => rank m ≤ rank n }

/-- Export the columns of the given slots in order, each under its name. -/
def exportSlots (columns : List ColumnBuilder) :
    List (String × Nat) → Except Error (Schema × List ArrayRef)
  | [] => .ok ([], [])
  | (name, idx) :: rest =>
      match columns[idx]? with
      | none => exportSlots columns rest
      | some c => do
          let (array, left) ← c.toArrowArray
          let (fields, arrays) ← exportSlots (columns.set idx left) rest
          .ok ((name, c.arrowDatatype) :: fields, array :: arrays)

/-- The column of a projected name, created all-null if the builder does not have it. -/
def projectColumn (name : String) : TableBuilder × Nat :=
  match b.fieldIndex.lookup name with
  | some idx => (b, idx)
  | none =>
      ({ b with
        columns := b.columns ++
          [(ColumnBuilder.ofType (b.plan.columnType name)).pushNulls b.rowCount]
        fieldIndex := b.fieldIndex.insert name b.columns.length }, b.columns.length)

/-- The columns of the projected names, in order. -/
def projectColumns (b : TableBuilder) : List String → TableBuilder × List (String × Nat)
  | [] => (b, [])
  | name :: rest =>
      let (b, idx) := b.projectColumn name
      let (b, slots) := b.projectColumns rest
      (b, (name, idx) :: slots)

/-- `finish`: export the builder as a record batch, projected to `schemaOrder` if there is one. -/
def finish : Except Error RecordBatch := do
  let b ← b.prepareFinish
  if b.columnOrder.isEmpty then .ok (.newEmpty [])
  else
    let b := b.autoDictUpgrade
    if !b.plan.schemaOrder.isEmpty then
      -- dropping wins over the projection
      let names := b.plan.schemaOrder.filter fun n => !(n ∈ b.plan.dropFields : Bool)
      let (b, slots) := b.projectColumns names
      let (fields, arrays) ← exportSlots b.columns slots
      RecordBatch.tryNew fields arrays
    else
      let b := b.sortColumns
      let slots := b.columnOrder.filterMap fun n => (b.fieldIndex.lookup n).map fun i => (n, i)
      let (fields, arrays) ← exportSlots b.columns slots
      RecordBatch.tryNew fields arrays

end TableBuilder

end Rypipe
