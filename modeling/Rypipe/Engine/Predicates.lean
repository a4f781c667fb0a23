import Rypipe.Foundation.Verdict
import Rypipe.Predicate

/-! # Row filters over an incomplete row

The three-valued evaluators of `engine/table_builder/predicates.rs`: `evalPredicate`, run on the
values buffered so far while the row is still being read, and `evalPredicateWithNull`, run at the
end of the row, when what is still missing is null. Both read the row through
`get_buffered_value`, which is the parameter `get` of this module. -/

namespace Rypipe

variable [Platform]

/-- Outcome of a predicate evaluation for one row. -/
abbrev PredicateState : Type := Verdict

/-- `{v:?}`, where the buffered evaluator falls back to it. -/
def debugValue : Value → String
  | .str s => "Str(" ++ debugStr s ++ ")"
  | .int64 i => "Int64(" ++ toString i ++ ")"
  | .float64 f => "Float64(" ++ formatF64 f ++ ")"
  | .bool b => "Bool(" ++ formatBool b ++ ")"
  | .date32 d => "Date32(" ++ toString d ++ ")"
  | .timestamp t => "Timestamp(" ++ toString t ++ ")"
  | .null => "Null"

/-- A buffered value as the text a filter compares, by the type of its column
(`get_buffered_str`). -/
def bufferedText (ty : FieldType) (value : Value) : Option String :=
  match ty with
  | .int64 =>
      match value with
      | .str v => (parseI64 v).map toString
      | .int64 v => some (toString v)
      | _ => none
  | .float64 =>
      match value with
      | .str v => (parseF64 v).map formatF64
      | .int64 v => some (toString v)
      | .float64 v => some (formatF64 v)
      | _ => none
  | .boolean =>
      match value with
      | .str v => (parseBool v).map formatBool
      | .bool v => some (formatBool v)
      | _ => none
  | .decimal128 scale =>
      match value with
      | .str v => (parseDecimal128 v scale).map fun n => formatDecimal128 n scale
      | _ => none
  | .date32 =>
      match value with
      | .str v => (parseDate32 v).map formatDate32
      | .date32 v => some (formatDate32 v)
      | _ => none
  | .timestamp unit format =>
      match value with
      | .str v => (parseTimestamp v unit format).map fun t => formatTimestamp t unit
      | .timestamp v => some (formatTimestamp v unit)
      | _ => none
  | .string | .dictionary =>
      match value with
      | .str s => some s
      | .int64 i => some (toString i)
      | .float64 f => some (formatF64 f)
      | .bool b => some (formatBool b)
      | v => some (debugValue v)

/-- The value a `Compare` uses for a buffered value, by the type of its column. -/
def normalizeBuffered (ty : FieldType) (value : Value) : Option Value :=
  match ty with
  | .int64 =>
      match value.asStr with
      | some s => (parseI64 s).map .int64
      | none => some value
  | .float64 =>
      match value.asStr with
      | some s => (parseF64 s).map .float64
      | none => some value
  | .boolean =>
      match value.asStr with
      | some s => (parseBool s).map .bool
      | none => some value
  | .date32 =>
      match value.asStr with
      | some s => (parseDate32 s).map .date32
      | none => some value
  | .timestamp unit format =>
      match value.asStr with
      | some s => (parseTimestamp s unit format).map .timestamp
      | none => some value
  | .string | .dictionary => some value
  | .decimal128 _ => none

/-- The order of two strings in a `Compare`, by the declared types of their columns. -/
def compareStrings (ta tb : Option FieldType) (a b : String) : Option Ordering :=
  match ta, tb with
  | some .int64, some .int64 => do some (compare (← parseI64 a) (← parseI64 b))
  | some .float64, some .float64 => do Platform.partialCmp (← parseF64 a) (← parseF64 b)
  | some .int64, some .float64 => do Platform.partialCmp (intAsF64 (← parseI64 a)) (← parseF64 b)
  | some .float64, some .int64 => do Platform.partialCmp (← parseF64 a) (intAsF64 (← parseI64 b))
  | some _, none | none, some _ => none
  | none, none => some (compare a b)
  | some (.timestamp ua fa), some (.timestamp ub fb) => do
      some (compare (← parseTimestamp a ua fa) (← parseTimestamp b ub fb))
  | some .date32, some .date32 => do some (compare (← parseDate32 a) (← parseDate32 b))
  | some _, some _ => none

/-- The order of two numbers or booleans, common to `Compare` and `CompareLiteral`. -/
def compareNative (a b : Value) : Option Ordering :=
  match a, b with
  | .int64 x, .int64 y => some (compare x y)
  | .float64 x, .float64 y => Platform.partialCmp x y
  | .int64 x, .float64 y => Platform.partialCmp (intAsF64 x) y
  | .float64 x, .int64 y => Platform.partialCmp x (intAsF64 y)
  | .bool x, .bool y => some (compare x y)
  | _, _ => none

/-- The order of two normalized values in a `Compare`. -/
def compareBuffered (ta tb : Option FieldType) (a b : Value) : Option Ordering :=
  match a, b with
  | .str x, .str y => compareStrings ta tb x y
  | .date32 x, .date32 y => some (compare x y)
  | .timestamp x, .timestamp y => some (compare x y)
  | a, b => compareNative a b

/-- The order of a buffered value and a literal in a `CompareLiteral`. -/
def compareBufferedLiteral (a b : Value) : Option Ordering :=
  match a, b with
  | .str x, .str y => some (compare x y)
  | a, b => compareNative a b

/-- Whether `Compare` compares columns of the two types at all. -/
def compatibleTypes (a b : FieldType) : Bool :=
  match a, b with
  | .int64, .int64 | .int64, .float64 | .float64, .int64 | .float64, .float64 => true
  | .decimal128 _, .decimal128 _ => true
  | .timestamp ua _, .timestamp ub _ => ua == ub
  | a, b => a == b

/-- The value a `CompareLiteral` uses for a buffered value, by the type of its column. -/
def literalOperand (ty : FieldType) (value : Value) : Option Value :=
  match ty with
  | .int64 | .float64 | .boolean => normalizeBuffered ty value
  | _ => some value

/-- The literal of a `CompareLiteral`, by the type of its column. -/
def literalValue (ty : FieldType) (literal : String) : Option Value :=
  match ty with
  | .int64 => (parseI64 literal).map .int64
  | .float64 => (parseF64 literal).map .float64
  | .boolean => (parseBool literal).map .bool
  | _ => some (.str literal)

/-- Whether a buffered value can be read as the type an `IsType` asks for. -/
def bufferedIsType (ft : FieldType) (value : Value) : Bool :=
  match ft with
  | .int64 => value.asStr.any fun s => (parseI64 s).isSome
  | .float64 => value.asStr.any fun s => (parseF64 s).isSome
  | .boolean => value.asStr.any isBooleanText
  | .string | .dictionary => true
  | _ => false

section Evaluate

variable (plan : ExecutionPlan) (get : String → Option Value)

/-- The output name of a filter field; its own name where the plan drops it. -/
def filterName (field : String) : String := (plan.resolveField field).getD field

/-- The type of the column of a filter field. -/
def filterType (field : String) : FieldType := plan.columnType (filterName plan field)

/-- `get_buffered_str`. -/
def getBufferedStr (field : String) : Option String := do
  bufferedText (plan.columnType (← plan.resolveField field)) (← get field)

/-- The verdict of a `Compare`. -/
def evalCompare (a : String) (op : CompareOp) (b : String) : PredicateState :=
  if !compatibleTypes (filterType plan a) (filterType plan b) then .fail
  else
    match filterType plan a, filterType plan b with
    | .decimal128 aScale, .decimal128 bScale =>
        match getBufferedStr plan get a, getBufferedStr plan get b with
        | some x, some y =>
            .ofBool <| applyOp op do
              some (compareDecimal128 (← parseDecimal128 x aScale) aScale
                (← parseDecimal128 y bScale) bScale)
        | _, _ => .undecided
    | ta, tb =>
        match (get a).bind (normalizeBuffered ta), (get b).bind (normalizeBuffered tb) with
        | some x, some y =>
            .ofBool <| applyOp op <|
              compareBuffered (plan.fieldTypes.lookup (filterName plan a))
                (plan.fieldTypes.lookup (filterName plan b)) x y
        | _, _ => .undecided

/-- The verdict of a `CompareLiteral`. -/
def evalCompareLiteral (field : String) (op : CompareOp) (value : String) : PredicateState :=
  match (get field).bind (literalOperand (filterType plan field)),
    literalValue (filterType plan field) value with
  | some a, some b => .ofBool (applyOp op (compareBufferedLiteral a b))
  | _, _ => .undecided

/-- The verdict of an `IsType`. -/
def evalIsType (field : String) (ft : FieldType) : PredicateState :=
  if filterType plan field == ft && (get field).isSome then .pass
  else .ofBool ((get field).any (bufferedIsType ft))

open Verdict (onValue)

/-- `eval_predicate`: the verdict on the values read so far. -/
def evalPredicate : FilterPredicate → PredicateState
  | .equal field value => onValue .undecided (· == value) (getBufferedStr plan get field)
  | .notEqual field value => onValue .undecided (· != value) (getBufferedStr plan get field)
  | .compare a op b => evalCompare plan get a op b
  | .compareLiteral field op value => evalCompareLiteral plan get field op value
  | .startsWith field value =>
      onValue .undecided (fun s => startsWith s value) (getBufferedStr plan get field)
  | .endsWith field value =>
      onValue .undecided (fun s => endsWith s value) (getBufferedStr plan get field)
  | .in field values => onValue .fail (fun s => values.contains s) (getBufferedStr plan get field)
  | .notIn field values =>
      onValue .pass (fun s => !values.contains s) (getBufferedStr plan get field)
  | .always keep => .ofBool keep
  | .notField field => onValue .pass (· == "") (getBufferedStr plan get field)
  | .arithmeticCompare field arithOp arithValue cmpOp cmpValue =>
      onValue .undecided
        (fun s => (parseF64 s).any (arithMatches arithOp arithValue cmpOp cmpValue))
        (getBufferedStr plan get field)
  | .strip field op value mode =>
      onValue .undecided (fun s => applyOp op (some (compare (mode.apply s) value)))
        (getBufferedStr plan get field)
  | .lower field op value =>
      onValue .undecided (fun s => applyOp op (some (compare (Platform.toLowercase s) value)))
        (getBufferedStr plan get field)
  | .upper field op value =>
      onValue .undecided (fun s => applyOp op (some (compare (Platform.toUppercase s) value)))
        (getBufferedStr plan get field)
  | .replace field old new op value =>
      onValue .undecided (fun s => applyOp op (some (compare (replaceStr s old new) value)))
        (getBufferedStr plan get field)
  | .length field op value =>
      onValue .undecided (lengthMatches op value) (getBufferedStr plan get field)
  | .contains field value =>
      onValue .undecided (fun s => containsStr s value) (getBufferedStr plan get field)
  | .regex field pattern =>
      onValue .undecided (fun s => Platform.isMatch pattern s) (getBufferedStr plan get field)
  | .isNull field => onValue .pass (fun _ => false) (getBufferedStr plan get field)
  | .isType field ft => evalIsType plan get field ft
  | .and a b => (evalPredicate a).and (evalPredicate b)
  | .or a b => (evalPredicate a).or (evalPredicate b)
  | .not inner => (evalPredicate inner).not

/-- A verdict with what is missing taken as null. -/
def nullFails : PredicateState → PredicateState
  | .undecided => .fail
  | other => other

omit [Platform] in
@[simp] theorem nullFails_ofBool (b : Bool) : nullFails (.ofBool b) = .ofBool b := by
  cases b <;> rfl

omit [Platform] in
/-- Taking what is missing as null keeps a decision. -/
theorem refines_nullFails (s : PredicateState) : s.Refines (nullFails s) := by
  intro h
  cases s with
  | undecided => exact absurd rfl h
  | pass => rfl
  | fail => rfl

omit [Platform] in
theorem nullFails_decided (s : PredicateState) : (nullFails s).Decided := by
  cases s <;> simp [nullFails, Verdict.Decided]

/-- `eval_predicate_with_null`: the verdict at the end of the row. -/
def evalPredicateWithNull : FilterPredicate → PredicateState
  | .equal field value => onValue .fail (· == value) (getBufferedStr plan get field)
  | .notEqual field value => onValue .pass (· != value) (getBufferedStr plan get field)
  | .always keep => .ofBool keep
  | .and a b => (evalPredicateWithNull a).and (evalPredicateWithNull b)
  | .or a b => nullFails ((evalPredicateWithNull a).or (evalPredicateWithNull b))
  | .not inner => nullFails (evalPredicateWithNull inner).not
  | leaf => nullFails (evalPredicate plan get leaf)

end Evaluate

end Rypipe
