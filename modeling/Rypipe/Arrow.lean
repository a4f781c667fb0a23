import Rypipe.Engine.TableBuilder

/-! # Arrow arrays and record batches

What the engine uses of Arrow: typed arrays as lists of optional values, record batches as columns
over a schema, with the checks Arrow makes when one is built, and the export of a column builder
(`arrow_datatype` and `to_arrow_array` in `columnar.rs`). -/

namespace Rypipe

/-- `arrow::datatypes::DataType`, for the types the engine exports. -/
inductive DataType where
  | utf8
  | int64
  | float64
  | boolean
  | date32
  | timestamp (unit : TimeUnit)
  | decimal128 (precision : Nat) (scale : Int)
  /-- `Dictionary(Int32, Utf8)`. -/
  | dictionary
  deriving DecidableEq, Repr

variable [Platform]

/-- `ArrayRef`: a typed array, a dictionary array read through its dictionary. -/
structure ArrayRef where
  datatype : DataType
  values : List (Option TypedValue)

/-- `null_array`. -/
def nullArray (datatype : DataType) (len : Nat) : ArrayRef := ⟨datatype, List.replicate len none⟩

/-- A schema: column names and types in order, every column nullable. -/
abbrev Schema : Type := List (String × DataType)

/-- `RecordBatch`. -/
structure RecordBatch where
  schema : Schema
  columns : List ArrayRef
  rowCount : Nat

namespace RecordBatch

/-- `RecordBatch::new_empty`. -/
def newEmpty (schema : Schema) : RecordBatch := ⟨schema, schema.map fun p => nullArray p.2 0, 0⟩

/-- `RecordBatch::try_new_with_options` with the given row count. -/
def tryNewWithRows (schema : Schema) (columns : List ArrayRef) (rows : Nat) :
    Except Error RecordBatch :=
  if schema.length ≠ columns.length then .error (.arrow "InvalidArgumentError")
  else if columns.any fun a => a.values.length != rows then .error (.arrow "InvalidArgumentError")
  else if schema.map Prod.snd ≠ columns.map ArrayRef.datatype then
    .error (.arrow "InvalidArgumentError")
  else .ok ⟨schema, columns, rows⟩

/-- `RecordBatch::try_new`: the row count is the length of the first column, so there must be
one. -/
def tryNew (schema : Schema) (columns : List ArrayRef) : Except Error RecordBatch :=
  match columns.head? with
  | some a => tryNewWithRows schema columns a.values.length
  | none => .error (.arrow "InvalidArgumentError")

/-- `column_by_name`. -/
def columnByName (batch : RecordBatch) (name : String) : Option ArrayRef := do
  batch.columns[← batch.schema.findIdx? fun p => p.1 == name]?

/-- A column looked up in a batch that lists its columns from something else. -/
theorem columnByName_map {γ : Type} (key : γ → String × DataType) (f : γ → ArrayRef)
    (cols : List γ) (k : Nat) (n : String) :
    columnByName ⟨cols.map key, cols.map f, k⟩ n = (cols.find? fun c => (key c).1 == n).map f := by
  induction cols with
  | nil => rfl
  | cons c cols ih =>
      rw [columnByName] at ih ⊢
      dsimp only [bind] at ih ⊢
      rw [List.map_cons, List.findIdx?_cons, List.find?_cons]
      by_cases hc : ((key c).1 == n) = true
      · rw [hc]
        rfl
      · rw [Bool.not_eq_true] at hc
        rw [hc, ← ih]
        cases (cols.map key).findIdx? fun p => p.1 == n with
        | none => rfl
        | some i => rfl

/-- The cells of a batch under a name, nulls where it has no such column. -/
def cells (batch : RecordBatch) (n : String) : List (Option TypedValue) :=
  match batch.columnByName n with
  | some a => a.values
  | none => List.replicate batch.rowCount none

/-- The names of the columns, in order. -/
def names (batch : RecordBatch) : List String := batch.schema.map Prod.fst

/-- A batch of the given arrays, as Arrow has checked it. -/
structure MadeOf (batch : RecordBatch) (fields : Schema) (arrays : List ArrayRef) : Prop where
  schema : batch.schema = fields
  columns : batch.columns = arrays
  length : fields.length = arrays.length
  types : fields.map Prod.snd = arrays.map ArrayRef.datatype
  rows : ∀ a ∈ arrays, a.values.length = batch.rowCount

/-- Arrow takes the arrays over as they are, after its checks of number, type and length. So the
columns of the batch are the arrays that were given, in order. -/
theorem madeOf_of_tryNew {schema : Schema} {columns : List ArrayRef} {batch : RecordBatch}
    (hok : tryNew schema columns = .ok batch) : batch.MadeOf schema columns := by
  rw [tryNew] at hok
  split at hok
  · rw [tryNewWithRows] at hok
    split at hok
    · cases hok
    next hlength =>
    split at hok
    · cases hok
    next hrows =>
    split at hok
    · cases hok
    next htypes =>
    cases hok
    refine ⟨rfl, rfl, not_not.mp hlength, not_not.mp htypes, fun a ha => ?_⟩
    rw [List.any_eq_true, not_exists] at hrows
    exact not_not.mp fun hne => hrows a ⟨ha, bne_iff_ne.mpr hne⟩
  · cases hok

/-- Arrow has checked that the cells under a name are as many as the rows. -/
theorem MadeOf.length_cells {batch : RecordBatch} {fields : Schema} {arrays : List ArrayRef}
    (h : batch.MadeOf fields arrays) (n : String) : (batch.cells n).length = batch.rowCount := by
  rw [cells]
  cases hcol : batch.columnByName n with
  | none => exact List.length_replicate
  | some a =>
      obtain ⟨i, -, hi⟩ := Option.bind_eq_some_iff.mp hcol
      exact h.rows a (h.columns ▸ List.mem_of_getElem? hi)

end RecordBatch

namespace ColumnBuilder

/-- `arrow_datatype`. -/
def arrowDatatype : ColumnBuilder → DataType
  | .string _ => .utf8
  | .int64 _ => .int64
  | .float64 _ => .float64
  | .boolean _ => .boolean
  | .date32 _ => .date32
  | .timestamp unit _ _ => .timestamp unit
  | .decimal128 scale _ => .decimal128 38 (min scale 38 : Nat)
  | .dictionary _ _ => .dictionary

/-- `scale as i8`. -/
def asI8 (scale : Nat) : Int := if scale < 128 then scale else scale - 256

/-- The column after its buffers have been moved out; decimals are copied. -/
def emptied : ColumnBuilder → ColumnBuilder
  | .decimal128 scale v => .decimal128 scale v
  | .timestamp unit format _ => .timestamp unit format []
  | .dictionary _ dict => .dictionary [] ⟨[], dict.index⟩
  | c => .ofType c.kind

/-- `to_arrow_array`: the array of the column, and what is left of the column. -/
def toArrowArray (c : ColumnBuilder) : Except Error (ArrayRef × ColumnBuilder) :=
  match c with
  | .decimal128 scale [] =>
      -- the empty array takes the scale unclamped, which Arrow refuses above the precision
      if 38 < asI8 scale then .error (.arrow "InvalidArgumentError")
      else .ok (⟨.decimal128 38 (asI8 scale), []⟩, c)
  | .dictionary codes dict =>
      -- Arrow refuses a code that is not in the dictionary
      if codes.any fun code => code.any fun k => decide (dict.values.length ≤ k) then
        .error (.arrow "InvalidArgumentError")
      else .ok (⟨c.arrowDatatype, c.cells⟩, c.emptied)
  | c => .ok (⟨c.arrowDatatype, c.cells⟩, c.emptied)

/-- A dictionary that has a value for every code exports its cells. -/
theorem toArrowArray_dictionary {codes : List (Option Nat)} {dict : Interner String}
    (hcovers : dict.Covers codes) :
    (dictionary codes dict).toArrowArray =
      .ok (⟨.dictionary, (dictionary codes dict).cells⟩, (dictionary codes dict).emptied) := by
  have hany : ¬ (codes.any fun code => code.any fun k => decide (dict.values.length ≤ k)) := by
    rw [List.any_eq_true]
    rintro ⟨code, hmem, hcode⟩
    rw [Option.any_eq_true] at hcode
    obtain ⟨k, rfl, hk⟩ := hcode
    exact absurd (hcovers k hmem) (Nat.not_lt_of_le (of_decide_eq_true hk))
  rw [toArrowArray, if_neg hany]
  rfl

/-- A valid column of a type that Arrow has exports its cells, and is left empty. A decimal column
whose scale exceeds the precision is refused only if it has rows. -/
theorem toArrowArray_of_valid {c : ColumnBuilder} (hc : c.Valid)
    (hne : c.cells ≠ [] ∨ ∀ scale, c.kind = .decimal128 scale → scale ≤ 38) :
    c.toArrowArray = .ok (⟨c.arrowDatatype, c.cells⟩, c.emptied) := by
  cases c with
  | decimal128 scale v =>
      cases v with
      | nil =>
          have hscale : scale ≤ 38 := by
            rcases hne with h | h
            · exact absurd rfl h
            · exact h scale rfl
          have hlt : ¬ 38 < asI8 scale := by
            simp only [asI8]
            split <;> omega
          have heq : asI8 scale = ((min scale 38 : Nat) : Int) := by
            simp only [asI8]
            split <;> omega
          rw [toArrowArray, if_neg hlt, heq]
          rfl
      | cons a v => rfl
  | dictionary codes dict => exact toArrowArray_dictionary hc.2
  | _ => rfl

end ColumnBuilder

end Rypipe
