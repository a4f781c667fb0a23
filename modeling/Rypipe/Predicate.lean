import Rypipe.Columnar

/-! # Row filters over columns

Evaluation of a filter predicate on one row of the stored columns (`FilterPredicate::check` in
`plan/predicate.rs`), and the typed views of a column it reads (`columnar.rs`). The other evaluator,
over the values of an incomplete row, is in `Rypipe.Engine.Predicates`. -/

namespace Rypipe

variable [Platform]

/-- The entry of an optional list at `i`. -/
def at? {α : Type} (v : List (Option α)) (i : Nat) : Option α := v[i]?.join

/-- The numerals `is_type_at` and the buffered evaluator take for booleans. -/
def isBooleanText (s : String) : Bool :=
  ["true", "false", "1", "0", "yes", "no"].contains (Platform.toLowercase s)

/-- `f == g` on doubles. -/
def f64Eq (f g : F64) : Bool := applyOp .eq (Platform.partialCmp f g)

/-- A value formatted as a string for filter comparison (`get_filter_value`). -/
def filterText : TypedValue → String
  | .str s => s
  | .int64 n => toString n
  | .float64 f => formatF64 f
  | .bool b => formatBool b
  | .date32 d => formatDate32 d
  | .timestamp t unit => formatTimestamp t unit
  | .decimal128 n scale => formatDecimal128 n scale

namespace ColumnBuilder

/-- `get_typed_value`: the stored value at `i`. -/
def getTypedValue (c : ColumnBuilder) (i : Nat) : Option TypedValue := at? c.cells i

/-- `get_filter_value`: the stored value at `i` as text. -/
def getFilterValue (c : ColumnBuilder) (i : Nat) : Option String :=
  (c.getTypedValue i).map filterText

/-- `is_type_at`: whether the value at `i` is of the given type, directly, by a safe conversion, or
for a string column by parsing. -/
def isTypeAt (c : ColumnBuilder) (i : Nat) (ft : FieldType) : Bool :=
  match c with
  | .string v => (at? v i).any fun s =>
      match ft with
      | .string | .dictionary => true
      | .int64 => (parseI64 s).isSome
      | .float64 => (parseF64 s).isSome
      | .boolean => isBooleanText s
      | .date32 => (parseDate32 s).isSome
      | .timestamp _ _ => (parseI64 s).isSome || (parseDate32 s).isSome
      | .decimal128 _ => (parseI128 (trim s)).isSome || (parseF64 s).isSome
  | .int64 v => (at? v i).any fun (n : Int) =>
      match ft with
      | .int64 | .float64 | .string => true
      | .boolean => n == 0 || n == 1
      | _ => false
  | .float64 v => (at? v i).any fun f =>
      match ft with
      | .float64 | .string => true
      | .int64 =>
          f64Eq (Platform.fract f) (intAsF64 0) &&
            applyOp .ge (Platform.partialCmp f (intAsF64 (-(2 ^ 63)))) &&
            applyOp .le (Platform.partialCmp f (intAsF64 (2 ^ 63 - 1)))
      | .boolean => f64Eq f (intAsF64 0) || f64Eq f (intAsF64 1)
      | _ => false
  | .boolean v => (at? v i).any fun _ =>
      match ft with
      | .boolean | .string | .int64 | .float64 => true
      | _ => false
  | .date32 v => (at? v i).any fun _ =>
      match ft with
      | .date32 | .string | .int64 => true
      | _ => false
  | .timestamp unit _ v => (at? v i).any fun _ =>
      match ft with
      | .timestamp unit' _ => unit == unit'
      | .string | .int64 => true
      | _ => false
  | .decimal128 _ v => (at? v i).any fun _ =>
      match ft with
      | .decimal128 _ | .string | .int64 | .float64 => true
      | _ => false
  | .dictionary codes _ => (at? codes i).any fun _ =>
      match ft with
      | .dictionary | .string => true
      | _ => false

end ColumnBuilder

/-- The decimal digits of a magnitude, most significant first. -/
def digitsOf (n : Nat) : List Char := (toString n).toList

/-- `compare_decimal128`: compare two scaled integers without rescaling, by sign, by the number of
digits before the common scale, then digit by digit. -/
def compareDecimal128 (a : Int) (aScale : Nat) (b : Int) (bScale : Nat) : Ordering :=
  if a = 0 ∨ b = 0 ∨ aScale = bScale then compare a b
  else if a < 0 ∧ 0 ≤ b then .lt
  else if 0 ≤ a ∧ b < 0 then .gt
  else
    let scale := max aScale bScale
    let da := digitsOf a.natAbs
    let db := digitsOf b.natAbs
    let aLen := da.length + scale - aScale
    let bLen := db.length + scale - bScale
    let width := List.range (max aLen bLen)
    let order := (compare aLen bLen).then <|
      List.compareLex compare (width.map (da.getD · '0')) (width.map (db.getD · '0'))
    if a < 0 then order.swap else order

/-- `compare_typed`: native comparison with numeric promotion; incomparable types match nothing. -/
def compareTyped (a : TypedValue) (op : CompareOp) (b : TypedValue) : Bool :=
  match a, b with
  | .int64 x, .int64 y => applyOp op (some (compare x y))
  | .float64 x, .float64 y => applyOp op (Platform.partialCmp x y)
  | .int64 x, .float64 y => applyOp op (Platform.partialCmp (intAsF64 x) y)
  | .float64 x, .int64 y => applyOp op (Platform.partialCmp x (intAsF64 y))
  | .decimal128 x xs, .decimal128 y ys => applyOp op (some (compareDecimal128 x xs y ys))
  | .str x, .str y => applyOp op (some (compare x y))
  | .bool x, .bool y => applyOp op (some (compare x y))
  | .date32 x, .date32 y => applyOp op (some (compare x y))
  | .timestamp x xu, .timestamp y yu => xu == yu && applyOp op (some (compare x y))
  | _, _ => false

/-- `typed_from_literal`: a literal parsed into the type of `sample`. -/
def typedFromLiteral (sample : TypedValue) (literal : String) : Option TypedValue :=
  match sample with
  | .str _ => some (.str literal)
  | .int64 _ => (parseI64 literal).map .int64
  | .float64 _ => (parseF64 literal).map .float64
  | .bool _ =>
      if literal ∈ ["true", "True", "TRUE"] then some (.bool true)
      else if literal ∈ ["false", "False", "FALSE"] then some (.bool false)
      else none
  | .date32 _ => (parseI32 literal).map .date32
  | .timestamp _ unit => (parseI64 literal).map fun v => .timestamp v unit
  | .decimal128 _ scale => (parseDecimal128 literal scale).map fun v => .decimal128 v scale

/-- The arithmetic of an `ArithmeticCompare`: `none` for a division by zero. -/
def applyArith (op : ArithOp) (a v : F64) : Option F64 :=
  match op with
  | .add => some (Platform.add a v)
  | .sub => some (Platform.sub a v)
  | .mul => some (Platform.mul a v)
  | .div => if f64Eq v (intAsF64 0) then none else some (Platform.div a v)

/-- The comparison of an `ArithmeticCompare`, on the field's number. -/
def arithMatches (arithOp : ArithOp) (arithValue : F64) (cmpOp : CompareOp) (cmpValue : String)
    (field : F64) : Bool :=
  match applyArith arithOp field arithValue, parseF64 cmpValue with
  | some result, some cmp => applyOp cmpOp (Platform.partialCmp result cmp)
  | _, _ => false

/-- The number an `ArithmeticCompare` reads from a stored value. -/
def typedAsF64 : TypedValue → Option F64
  | .int64 v => some (intAsF64 v)
  | .float64 v => some v
  | .decimal128 v scale => some (Platform.div (intAsF64 v) (Platform.powi (intAsF64 10) scale))
  | .str s => parseF64 s
  | _ => none

/-- The transformation of a `Strip`. -/
def TrimMode.apply : TrimMode → String → String
  | .both => trim
  | .start => trimStart
  | .fin => trimEnd

/-- The comparison of a `Length`. -/
def lengthMatches (op : CompareOp) (value s : String) : Bool :=
  match parseF64 value with
  | some v => applyOp op (Platform.partialCmp (intAsF64 (charCount s)) v)
  | none => false

/-- `usize::MAX`. -/
def usizeMax : Nat := 2 ^ 64 - 1

namespace FilterPredicate

variable (columns : List ColumnBuilder) (fieldIndex : StrMap Nat) (row : Nat) (plan : ExecutionPlan)

/-- `get_column`. -/
def getColumn (name : String) : Option ColumnBuilder :=
  (fieldIndex.lookup name).bind fun i => columns[i]?

/-- The stored value of a filter field on the row. -/
def getTyped (field : String) : Option TypedValue :=
  (getColumn columns fieldIndex (plan.rename field)).bind (·.getTypedValue row)

/-- `get_value`: the stored value of a filter field as text. -/
def getValue (field : String) : Option String :=
  (getColumn columns fieldIndex (plan.rename field)).bind (·.getFilterValue row)

/-- `pred_ordinal`: the smallest slot of a field the predicate reads. -/
def predOrdinal : FilterPredicate → Nat
  | .always _ => usizeMax
  | .compare a _ b =>
      min ((fieldIndex.lookup (plan.rename a)).getD usizeMax)
        ((fieldIndex.lookup (plan.rename b)).getD usizeMax)
  | .and a b | .or a b => min a.predOrdinal b.predOrdinal
  | .not inner => inner.predOrdinal
  | .notEqual f _ | .equal f _ | .compareLiteral f _ _ | .startsWith f _ | .endsWith f _
  | .in f _ | .notIn f _ | .notField f | .arithmeticCompare f _ _ _ _ | .strip f _ _ _
  | .lower f _ _ | .upper f _ _ | .replace f _ _ _ _ | .length f _ _ | .contains f _
  | .isNull f | .isType f _ | .regex f _ => (fieldIndex.lookup (plan.rename f)).getD usizeMax

/-- `FilterPredicate::check`: whether row `row` of the columns passes. -/
def check : FilterPredicate → Bool
  | .notEqual field value => getValue columns fieldIndex row plan field != some value
  | .equal field value => getValue columns fieldIndex row plan field == some value
  | .compare a op b =>
      match getTyped columns fieldIndex row plan a, getTyped columns fieldIndex row plan b with
      | some x, some y => compareTyped x op y
      | _, _ => false
  | .compareLiteral field op value =>
      match getTyped columns fieldIndex row plan field with
      | some a =>
          match typedFromLiteral a value with
          | some b => compareTyped a op b
          | none => false
      | none => false
  | .startsWith field value =>
      (getValue columns fieldIndex row plan field).any fun s => Rypipe.startsWith s value
  | .endsWith field value =>
      (getValue columns fieldIndex row plan field).any fun s => Rypipe.endsWith s value
  | .in field values => (getValue columns fieldIndex row plan field).any fun s => values.contains s
  | .notIn field values =>
      match getValue columns fieldIndex row plan field with
      | some s => !values.contains s
      | none => true
  | .always keep => keep
  | .notField field =>
      match getValue columns fieldIndex row plan field with
      | some s => s == ""
      | none => true
  | .arithmeticCompare field arithOp arithValue cmpOp cmpValue =>
      ((getTyped columns fieldIndex row plan field).bind typedAsF64).any
        (arithMatches arithOp arithValue cmpOp cmpValue)
  | .strip field op value mode =>
      (getValue columns fieldIndex row plan field).any fun s =>
        applyOp op (some (Ord.compare (mode.apply s) value))
  | .lower field op value =>
      (getValue columns fieldIndex row plan field).any fun s =>
        applyOp op (some (Ord.compare (Platform.toLowercase s) value))
  | .upper field op value =>
      (getValue columns fieldIndex row plan field).any fun s =>
        applyOp op (some (Ord.compare (Platform.toUppercase s) value))
  | .replace field old new op value =>
      (getValue columns fieldIndex row plan field).any fun s =>
        applyOp op (some (Ord.compare (replaceStr s old new) value))
  | .length field op value =>
      (getValue columns fieldIndex row plan field).any (lengthMatches op value)
  | .contains field value =>
      (getValue columns fieldIndex row plan field).any fun s => containsStr s value
  | .isNull field => (getValue columns fieldIndex row plan field).isNone
  | .regex field pattern =>
      (getValue columns fieldIndex row plan field).any fun s => Platform.isMatch pattern s
  | .isType field fieldType =>
      (getColumn columns fieldIndex (plan.rename field)).any fun c => c.isTypeAt row fieldType
  | .and a b =>
      -- the operand whose fields come first is evaluated first
      if a.predOrdinal fieldIndex plan ≤ b.predOrdinal fieldIndex plan then a.check && b.check
      else b.check && a.check
  | .or a b =>
      if a.predOrdinal fieldIndex plan ≤ b.predOrdinal fieldIndex plan then a.check || b.check
      else b.check || a.check
  | .not inner => !inner.check

/-- The order of evaluation does not change a conjunction. -/
theorem check_and (a b : FilterPredicate) :
    (FilterPredicate.and a b).check columns fieldIndex row plan =
      (a.check columns fieldIndex row plan && b.check columns fieldIndex row plan) := by
  rw [check]
  split
  · rfl
  · exact Bool.and_comm _ _

/-- The order of evaluation does not change a disjunction. -/
theorem check_or (a b : FilterPredicate) :
    (FilterPredicate.or a b).check columns fieldIndex row plan =
      (a.check columns fieldIndex row plan || b.check columns fieldIndex row plan) := by
  rw [check]
  split
  · rfl
  · exact Bool.or_comm _ _

end FilterPredicate

end Rypipe
