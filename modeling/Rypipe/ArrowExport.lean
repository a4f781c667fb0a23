import Rypipe.Arrow

/-! # The vectorised filter over a record batch

`apply_compare_filter` of `arrow_export.rs`: the recheck of a filter made of `Compare` and `And`
only on an assembled batch, by casting whole columns and comparing them with Arrow's kernels. -/

namespace Rypipe

variable [Platform]

/-- `is_pure_compare_tree`. -/
def isPureCompareTree : FilterPredicate → Bool
  | .compare _ _ _ => true
  | .and a b => isPureCompareTree a && isPureCompareTree b
  | _ => false

/-- `is_numeric`, among the exported types. -/
def DataType.isNumeric : DataType → Bool
  | .int64 | .float64 | .boolean => true
  | _ => false

/-- Arrow's cast of a numeric or boolean value to `Float64`. -/
def castFloat64 : TypedValue → Option F64
  | .int64 i => some (intAsF64 i)
  | .float64 f => some f
  | .bool b => some (intAsF64 (if b then 1 else 0))
  | _ => none

/-- Arrow's cast of a value to `Utf8`. -/
def castUtf8 : TypedValue → String
  | .str s => s
  | .int64 i => toString i
  | .float64 f => Platform.castFloatText f
  | .bool b => formatBool b
  | .date32 d => Platform.castDateText d
  | .timestamp t unit => Platform.castTimestampText t unit.perSecond
  | .decimal128 v scale => formatDecimal128 v (min scale 38)

/-- A comparison kernel on doubles: Arrow orders them totally, nulls give null. -/
def compareFloats (op : CompareOp) (a b : Option F64) : Option Bool :=
  match a, b with
  | some x, some y => some (applyOp op (some (Platform.totalCmp x y)))
  | _, _ => none

/-- A comparison kernel on strings, in byte order. -/
def compareTexts (op : CompareOp) (a b : Option String) : Option Bool :=
  match a, b with
  | some x, some y => some (applyOp op (some (compare x y)))
  | _, _ => none

/-- `compare_columns`: two columns compared as doubles when both are numeric, as text otherwise. -/
def compareColumns (a b : ArrayRef) (op : CompareOp) : List (Option Bool) :=
  if a.datatype.isNumeric && b.datatype.isNumeric then
    List.zipWith (fun x y => compareFloats op (x.bind castFloat64) (y.bind castFloat64))
      a.values b.values
  else
    List.zipWith (fun x y => compareTexts op (x.map castUtf8) (y.map castUtf8)) a.values b.values

/-- The `and` kernel: null where either side is. -/
def andKernel (a b : List (Option Bool)) : List (Option Bool) :=
  List.zipWith (fun x y => do some ((← x) && (← y))) a b

/-- The error for a field that is not a column of the batch. -/
def unknownColumn (field : String) : Error :=
  .plan ("compare filter references unknown column " ++ debugStr field)

/-- `compare_mask`: the mask of a pure `Compare`/`And` tree. -/
def compareMask (batch : RecordBatch) : FilterPredicate → Except Error (Option (List (Option Bool)))
  | .compare a op b =>
      match batch.columnByName a with
      | none => .error (unknownColumn a)
      | some colA =>
          match batch.columnByName b with
          | none => .error (unknownColumn b)
          | some colB => .ok (some (compareColumns colA colB op))
  | .and a b => do
      let ma ← compareMask batch a
      let mb ← compareMask batch b
      match ma, mb with
      | some x, some y => .ok (some (andKernel x y))
      | some x, none | none, some x => .ok (some x)
      | none, none => .ok none
  | _ => .ok none

/-- The rows of a list where the mask is true. -/
def filterRows {α : Type} (mask : List (Option Bool)) (rows : List α) : List α :=
  ((rows.zip mask).filter fun p => p.2 == some true).map Prod.fst

/-- `filter_record_batch`. -/
def filterRecordBatch (batch : RecordBatch) (mask : List (Option Bool)) : RecordBatch :=
  { batch with
    columns := batch.columns.map fun a => { a with values := filterRows mask a.values }
    rowCount := (mask.filter (· == some true)).length }

/-- `apply_compare_filter`. -/
def applyCompareFilter (batch : RecordBatch) (predicate : FilterPredicate) :
    Except Error RecordBatch := do
  if !isPureCompareTree predicate then .ok batch
  else
    match ← compareMask batch predicate with
    | none => .ok batch
    | some mask => .ok (filterRecordBatch batch mask)

end Rypipe
