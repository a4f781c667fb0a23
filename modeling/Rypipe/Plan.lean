import Rypipe.Platform
import Mathlib.Data.List.AList

/-! # Execution plans

The plan a builder runs under: storage types, the row-filter predicate tree, and the plan record
with its name resolution (`plan.rs`, and the data types of `plan/predicate.rs`). -/

namespace Rypipe

/-- A hash map keyed by strings. -/
abbrev StrMap (β : Type) : Type := AList fun _ : String => β

/-- `arrow::datatypes::TimeUnit`. -/
inductive TimeUnit where
  | second | millisecond | microsecond | nanosecond
  deriving DecidableEq, Repr

/-- The number of ticks of a unit in a second. -/
def TimeUnit.perSecond : TimeUnit → Nat
  | .second => 1
  | .millisecond => 1000
  | .microsecond => 1000000
  | .nanosecond => 1000000000

/-- The storage type for a column. -/
inductive FieldType where
  | string
  | int64
  | float64
  | boolean
  | dictionary
  /-- Calendar date: days since the Unix epoch. -/
  | date32
  /-- Point in time with a unit and an optional chrono format string for parsing. -/
  | timestamp (unit : TimeUnit) (format : Option String)
  /-- Fixed-precision decimal with the given scale. -/
  | decimal128 (scale : Nat)
  deriving DecidableEq, Repr

/-- Comparison operator for column filters. -/
inductive CompareOp where
  | gt | lt | ge | le | eq | ne
  deriving DecidableEq, Repr

/-- Arithmetic operator for field expressions. -/
inductive ArithOp where
  | add | sub | mul | div
  deriving DecidableEq, Repr

/-- Which ends `Strip` trims. -/
inductive TrimMode where
  | both | start | fin
  deriving DecidableEq, Repr

/-- Apply an operator to an ordering; an absent ordering (NaN) matches nothing. -/
def applyOp (op : CompareOp) : Option Ordering → Bool
  | none => false
  | some ord =>
      match op with
      | .gt => ord == .gt
      | .lt => ord == .lt
      | .ge => ord != .lt
      | .le => ord != .gt
      | .eq => ord == .eq
      | .ne => ord != .eq

variable [Platform]

/-- A row-filter predicate, evaluated per row while parsing. -/
inductive FilterPredicate where
  | notEqual (field value : String)
  | equal (field value : String)
  /-- Column-to-column comparison. -/
  | compare (fieldA : String) (op : CompareOp) (fieldB : String)
  /-- Column-to-literal comparison. -/
  | compareLiteral (field : String) (op : CompareOp) (value : String)
  | startsWith (field value : String)
  | endsWith (field value : String)
  | in (field : String) (values : List String)
  | notIn (field : String) (values : List String)
  | always (keep : Bool)
  /-- Keep the row if the field is missing, null or empty. -/
  | notField (field : String)
  | arithmeticCompare (field : String) (arithOp : ArithOp) (arithValue : F64) (cmpOp : CompareOp)
      (cmpValue : String)
  | strip (field : String) (op : CompareOp) (value : String) (mode : TrimMode)
  | lower (field : String) (op : CompareOp) (value : String)
  | upper (field : String) (op : CompareOp) (value : String)
  | replace (field old new : String) (op : CompareOp) (value : String)
  | length (field : String) (op : CompareOp) (value : String)
  | contains (field value : String)
  | isNull (field : String)
  | isType (field : String) (fieldType : FieldType)
  /-- A regular expression, by its pattern. -/
  | regex (field pattern : String)
  | and (a b : FilterPredicate)
  | or (a b : FilterPredicate)
  | not (inner : FilterPredicate)

namespace FilterPredicate

/-- The fields a predicate reads, as written in it and in order. -/
def fields : FilterPredicate → List String
  | .notEqual f _ | .equal f _ | .compareLiteral f _ _ | .startsWith f _ | .endsWith f _
  | .in f _ | .notIn f _ | .notField f | .arithmeticCompare f _ _ _ _ | .strip f _ _ _
  | .lower f _ _ | .upper f _ _ | .replace f _ _ _ _ | .length f _ _ | .contains f _
  | .isNull f | .isType f _ | .regex f _ => [f]
  | .always _ => []
  | .compare a _ b => [a, b]
  | .and a b | .or a b => a.fields ++ b.fields
  | .not inner => inner.fields

end FilterPredicate

/-- A compiled execution plan: renaming, dropping, type assignment, dictionary encoding, row
filtering and projection. The default plan is a no-op. -/
structure ExecutionPlan where
  /-- Raw field name to output column name. -/
  fieldMap : StrMap String := ∅
  /-- Fields to drop. -/
  dropFields : List String := []
  /-- Explicit type per output column name. -/
  fieldTypes : StrMap FieldType := ∅
  /-- Output columns to dictionary-encode. -/
  dictionaryColumns : List String := []
  /-- Optional row filter. -/
  filter : Option FilterPredicate := none
  /-- Output columns in order; empty for first-appearance order. -/
  schemaOrder : List String := []
  autoDict : Bool := false
  dictThreshold : Option F64 := none
  dictMaxSize : Option Nat := none
  strictTypes : Bool := false
  /-- Whether a row observer is attached. -/
  observer : Bool := false

namespace ExecutionPlan

variable (plan : ExecutionPlan)

/-- The storage type for an output column name. -/
def columnType (name : String) : FieldType :=
  match plan.fieldTypes.lookup name with
  | some ft => ft
  | none => if name ∈ plan.dictionaryColumns then .dictionary else .string

/-- The output name of a raw field: the rename step alone. -/
def rename (raw : String) : String := (plan.fieldMap.lookup raw).getD raw

/-- Whether the row filter references the output name `resolved`. -/
def filterReferences (resolved : String) : Bool :=
  match plan.filter with
  | none => false
  | some f => f.fields.any fun field => plan.rename field == resolved

/-- Resolve a raw field name to its output column name: rename, then drop, then the projection of
`schemaOrder`, which lets the fields of the filter through. -/
def resolveField (raw : String) : Option String :=
  let resolved := plan.rename raw
  if resolved ∈ plan.dropFields then none
  else if !plan.schemaOrder.isEmpty && !(resolved ∈ plan.schemaOrder : Bool) &&
      !plan.filterReferences resolved then none
  else some resolved

/-- No rename, drop or projection is configured, so that every raw name is its own output name. -/
def isPlain : Bool :=
  plan.fieldMap.keys.isEmpty && plan.dropFields.isEmpty && plan.schemaOrder.isEmpty

variable {plan}

theorem resolveField_eq_some {raw name : String} (h : plan.resolveField raw = some name) :
    name = plan.rename raw ∧ name ∉ plan.dropFields := by
  simp only [resolveField] at h
  split at h
  · cases h
  · next hdrop =>
    split at h
    · cases h
    · cases h
      exact ⟨rfl, hdrop⟩

/-- A plain plan resolves every name to itself. -/
theorem resolveField_of_isPlain (h : plan.isPlain = true) (raw : String) :
    plan.resolveField raw = some raw := by
  simp only [isPlain, Bool.and_eq_true, List.isEmpty_iff] at h
  obtain ⟨⟨hmap, hdrop⟩, horder⟩ := h
  have hlookup : plan.fieldMap.lookup raw = none := by
    rw [AList.lookup_eq_none, AList.mem_keys, hmap]
    simp
  simp [resolveField, rename, hlookup, hdrop, horder]

/-- A field of the filter is only withheld when its output name is dropped. -/
theorem resolveField_of_mem_fields {f : FilterPredicate} {field : String}
    (hf : plan.filter = some f) (hfield : field ∈ f.fields) :
    plan.resolveField field =
      if plan.rename field ∈ plan.dropFields then none else some (plan.rename field) := by
  have href : plan.filterReferences (plan.rename field) = true := by
    simp only [filterReferences, hf, List.any_eq_true, beq_iff_eq]
    exact ⟨field, hfield, rfl⟩
  simp [resolveField, href]

end ExecutionPlan

end Rypipe
