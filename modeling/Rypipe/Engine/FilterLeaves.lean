import Rypipe.Engine.DecimalFilter
import Rypipe.Engine.Leaves
import Rypipe.Engine.SameContent

/-! # Where the two evaluators of a filter leaf agree

The filter of a plan runs on the values a row has put (`eval_predicate_with_null`) while rows are
buffered, and on the cells of the columns (`FilterPredicate::check`) once they are not. The one reads
the values as they came, the other what the columns keep of them. For every kind of leaf, a condition on
the value and the type of its column says exactly when this makes no difference. -/

namespace Rypipe

section Leaves

variable [Platform]

omit [Platform] in
/-- Reading a row of mapped cells is mapping what is read. -/
theorem at?_map {α β : Type} (f : α → β) (v : List (Option α)) (i : Nat) :
    at? (v.map (·.map f)) i = (at? v i).map f := by
  rw [at?, at?, List.getElem?_map]
  cases v[i]? with
  | none => rfl
  | some o => rfl

/-- Whether what a column of type `ty` keeps of a value is of the type `ft`, by `is_type_at`. -/
def storedIsType (ty : FieldType) (value : Value) (ft : FieldType) : Bool :=
  ((ColumnBuilder.ofType ty).pushValue value).isTypeAt 0 ft

/-! ## Texts -/

/-- A test of a text gives the text of the buffer the verdict of that of the column. -/
def TextAgrees (l : TextLeaf) : FieldType → Value → Prop
  -- the buffer writes a null, a date or a timestamp in a text column as `{v:?}` does
  | .string, .null | .dictionary, .null => Verdict.ofBool (l.test (debugValue .null)) = l.late
  | .string, .date32 d | .dictionary, .date32 d =>
      l.test (debugValue (.date32 d)) = l.test (formatDate32 d)
  | .string, .timestamp t | .dictionary, .timestamp t =>
      l.test (debugValue (.timestamp t)) = l.test (toString t)
  -- it has no text of a value that the column converts
  | .int64, .float64 f => Verdict.ofBool (l.test (toString (f64AsI64 f))) = l.late
  | .int64, .date32 n | .int64, .timestamp n => Verdict.ofBool (l.test (toString n)) = l.late
  | .float64, .date32 n | .float64, .timestamp n =>
      Verdict.ofBool (l.test (formatF64 (intAsF64 n))) = l.late
  | .float64, .int64 n => l.test (toString n) = l.test (formatF64 (intAsF64 n))
  | _, _ => True

/-- The condition is exact: a text leaf comes out the same on the buffered text and on the stored
one exactly under `TextAgrees`. -/
theorem textAgrees_iff (l : TextLeaf) (ty : FieldType) (value : Value) :
    Verdict.onValue l.late l.test (bufferedText ty value) =
      Verdict.onValue l.late l.test ((store ty value).map filterText) ↔ TextAgrees l ty value := by
  have hbool : ∀ a b : Bool, Verdict.ofBool a = Verdict.ofBool b ↔ a = b := by decide
  cases ty with
  | string =>
      cases value <;>
        simp [bufferedText, store, valueText, filterText, TextAgrees, hbool]
  | dictionary =>
      cases value <;>
        simp [bufferedText, store, valueText, filterText, TextAgrees, hbool]
  | float64 =>
      cases value <;>
        simp [bufferedText, store, filterText, TextAgrees, hbool, Function.comp_def, eq_comm]
  | _ =>
      cases value <;>
        simp only [bufferedText, store, filterText, TextAgrees, Option.map_map, Option.map_some,
          Option.map_none, Function.comp_def, Verdict.onValue_some, Verdict.onValue_none]
      all_goals exact eq_comm

/-! ## Numbers -/

/-- The test of an `ArithmeticCompare` on the number read from the text of the buffer comes out as that
on the number of the stored value. -/
def NumberAgrees (test : F64 → Bool) : FieldType → Value → Prop
  | .string, .null | .dictionary, .null => (parseF64 (debugValue .null)).any test = false
  | .string, .date32 d | .dictionary, .date32 d =>
      (parseF64 (debugValue (.date32 d))).any test = (parseF64 (formatDate32 d)).any test
  | .string, .timestamp t | .dictionary, .timestamp t =>
      (parseF64 (debugValue (.timestamp t))).any test = (parseF64 (toString t)).any test
  -- the buffer has no text of a value that the column converts
  | .int64, .float64 f => test (intAsF64 (f64AsI64 f)) = false
  | .int64, .date32 n | .int64, .timestamp n | .float64, .date32 n | .float64, .timestamp n =>
      test (intAsF64 n) = false
  | .float64, .int64 n => (parseF64 (toString n)).any test = test (intAsF64 n)
  -- it writes the others as the column does, and reads them again
  | ty, value => ∀ x, store ty value = some x →
      (parseF64 (filterText x)).any test = (typedAsF64 x).any test

/-- The condition is exact: a test of numbers comes out the same on the buffered value and on the
stored one exactly under `NumberAgrees`. The cases are the type of the column and the kind of the
value. -/
theorem numberAgrees_iff (test : F64 → Bool) (ty : FieldType) (value : Value) :
    ((bufferedText ty value).bind parseF64).any test = ((store ty value).bind typedAsF64).any test ↔
      NumberAgrees test ty value := by
  -- where the buffer has the text of the stored value, only the reading of that text can differ
  have hsame : bufferedText ty value = (store ty value).map filterText →
      (((bufferedText ty value).bind parseF64).any test =
          ((store ty value).bind typedAsF64).any test ↔
        ∀ x, store ty value = some x →
          (parseF64 (filterText x)).any test = (typedAsF64 x).any test) := by
    intro htext
    rw [htext]
    cases store ty value <;> simp
  -- a string put in a typed column is parsed on both sides
  have hparsed : ∀ {α : Type} (o : Option α) (f : α → TypedValue),
      o.map (fun a => filterText (f a)) = (o.map f).map filterText := by
    intro α o f
    rw [Option.map_map]
    rfl
  cases ty with
  | string =>
      cases value <;>
        simp [bufferedText, store, valueText, NumberAgrees, typedAsF64, filterText]
  | dictionary =>
      cases value <;>
        simp [bufferedText, store, valueText, NumberAgrees, typedAsF64, filterText]
  | int64 =>
      cases value with
      | str s => exact hsame (hparsed (parseI64 s) .int64)
      | int64 n => exact hsame rfl
      | _ => simp [bufferedText, store, NumberAgrees, typedAsF64]
  | float64 =>
      cases value with
      | str s => exact hsame (hparsed (parseF64 s) .float64)
      | float64 f => exact hsame rfl
      | _ => simp [bufferedText, store, NumberAgrees, typedAsF64]
  | boolean =>
      cases value with
      | str s => exact hsame (hparsed (parseBool s) .bool)
      | _ => exact hsame rfl
  | date32 =>
      cases value with
      | str s => exact hsame (hparsed (parseDate32 s) .date32)
      | _ => exact hsame rfl
  | timestamp unit format =>
      cases value with
      | str s => exact hsame (hparsed (parseTimestamp s unit format) fun t => .timestamp t unit)
      | _ => exact hsame rfl
  | decimal128 scale =>
      cases value with
      | str s => exact hsame (hparsed (parseDecimal128 s scale) fun n => .decimal128 n scale)
      | _ => exact hsame rfl

/-! ## Literals -/

/-- The texts of a boolean literal that only the columns read. -/
def otherBoolean (literal : String) : Option Bool :=
  if literal ∈ ["True", "TRUE"] then some true
  else if literal ∈ ["False", "FALSE"] then some false
  else none

/-- The comparison of the buffered value with the literal comes out as that of the stored one. -/
def LiteralAgrees (op : CompareOp) (literal : String) : FieldType → Value → Prop
  | .string, .str _ | .dictionary, .str _ => True
  -- the buffer compares a native value with the text of the literal, which never holds
  | .string, value | .dictionary, value =>
      ∀ s, valueText value = some s → applyOp op (some (compare s literal)) = false
  | .int64, .float64 f => ∀ n, parseI64 literal = some n →
      applyOp op (Platform.partialCmp f (intAsF64 n)) = applyOp op (some (compare (f64AsI64 f) n))
  | .int64, .date32 d | .int64, .timestamp d => ∀ n, parseI64 literal = some n →
      applyOp op (some (compare d n)) = false
  | .float64, .date32 d | .float64, .timestamp d => ∀ g, parseF64 literal = some g →
      applyOp op (Platform.partialCmp (intAsF64 d) g) = false
  | .boolean, .str s => ∀ x, parseBool s = some x → ∀ y, otherBoolean literal = some y →
      applyOp op (some (compare x y)) = false
  | .boolean, .bool x => ∀ y, otherBoolean literal = some y → applyOp op (some (compare x y)) = false
  -- dates, timestamps and decimals are texts in the buffer, and numbers in the columns
  | .date32, .str s => applyOp op (some (compare s literal)) =
      (parseDate32 s).any fun d => (parseI32 literal).any fun n => applyOp op (some (compare d n))
  | .date32, .date32 d => ∀ n, parseI32 literal = some n → applyOp op (some (compare d n)) = false
  | .timestamp unit format, .str s => applyOp op (some (compare s literal)) =
      (parseTimestamp s unit format).any fun t =>
        (parseI64 literal).any fun n => applyOp op (some (compare t n))
  | .timestamp _ _, .timestamp t => ∀ n, parseI64 literal = some n →
      applyOp op (some (compare t n)) = false
  | .decimal128 scale, .str s => applyOp op (some (compare s literal)) =
      (parseDecimal128 s scale).any fun d => (parseDecimal128 literal scale).any fun n =>
        applyOp op (some (compareDecimal128 d scale n scale))
  | _, _ => True

/-- The columns read a literal as a boolean where `parse` does, and in the other spellings as
well. -/
theorem typedFromLiteral_bool (x : Bool) (literal : String) :
    typedFromLiteral (.bool x) literal = ((parseBool literal).or (otherBoolean literal)).map .bool := by
  rw [typedFromLiteral, parseBool, otherBoolean]
  by_cases htrue : literal = "true"
  · subst htrue
    rfl
  by_cases hfalse : literal = "false"
  · subst hfalse
    rfl
  simp only [List.mem_cons, List.not_mem_nil, or_false, htrue, hfalse, false_or, if_false,
    Option.none_or]
  split
  · rfl
  · split
    · rfl
    · rfl

omit [Platform] in
@[simp] theorem applyOp_none (op : CompareOp) : applyOp op none = false := rfl

omit [Platform] in
/-- At most one of the two reads a text. -/
theorem otherBoolean_of_parseBool {literal : String} {x : Bool} (h : parseBool literal = some x) :
    otherBoolean literal = none := by
  rw [parseBool] at h
  split at h
  · next htrue => rw [htrue]; rfl
  · split at h
    · next hfalse => rw [hfalse]; rfl
    · cases h

omit [Platform] in
/-- Nothing in an option passes a test exactly if its value, where it has one, does not. -/
theorem any_eq_false_iff {α : Type} {p : α → Bool} {o : Option α} :
    o.any p = false ↔ ∀ a, o = some a → p a = false := by
  cases o <;> simp

omit [Platform] in
/-- Two tests agree on an option exactly if they agree on its value, where it has one. -/
theorem any_congr_iff {α : Type} {p q : α → Bool} {o : Option α} :
    o.any p = o.any q ↔ ∀ a, o = some a → p a = q a := by
  cases o <;> simp

omit [Platform] in
/-- The literals that only the column evaluator reads make the difference. -/
theorem any_parseBool_iff (p : Bool → Bool) (literal : String) :
    (parseBool literal).any p = ((parseBool literal).or (otherBoolean literal)).any p ↔
      ∀ y, otherBoolean literal = some y → p y = false := by
  cases hparse : parseBool literal with
  | some y => simp [otherBoolean_of_parseBool hparse]
  | none =>
      rw [Option.none_or, ← any_eq_false_iff, eq_comm]
      rfl

/-- The comparison of a value with a literal comes out the same in the buffer and in the column. -/
def ComparesAlike (op : CompareOp) (literal : String) (ty : FieldType) (value : Value) : Prop :=
  ((literalOperand ty value).any fun a => (literalValue ty literal).any fun b =>
      applyOp op (compareBufferedLiteral a b)) =
    ((store ty value).any fun a => (typedFromLiteral a literal).any fun b => compareTyped a op b)

/-- Against a literal for an integer column, only a float is compared as it is in one place and as the
integer it is stored as in the other. -/
theorem comparesAlike_int64 (op : CompareOp) (literal : String) (value : Value) :
    ComparesAlike op literal .int64 value ↔ LiteralAgrees op literal .int64 value := by
  -- the literal is parsed once, whatever it is compared with
  have hliteral : ∀ p : Value → Bool, (literalValue .int64 literal).any p =
      (parseI64 literal).any fun n => p (.int64 n) := fun _ => Option.any_map
  have hstored : ∀ x : Int, ((typedFromLiteral (.int64 x) literal).any fun b =>
      compareTyped (.int64 x) op b) = (parseI64 literal).any fun n => applyOp op (some (compare x n)) :=
    fun _ => Option.any_map
  rw [ComparesAlike]
  cases value with
  | str s =>
      cases hs : parseI64 s with
      | none => simp [literalOperand, normalizeBuffered, Value.asStr, hs, LiteralAgrees, store]
      | some x =>
          simp only [literalOperand, normalizeBuffered, Value.asStr, hs, LiteralAgrees, store,
            Option.map_some, Option.any_some, hliteral, hstored]
          exact iff_of_true rfl trivial
  | int64 n => exact iff_of_true ((hliteral _).trans (hstored n).symm) trivial
  | float64 f =>
      have hcompare := any_congr_iff (p := fun n => applyOp op (Platform.partialCmp f (intAsF64 n)))
        (q := fun n => applyOp op (some (compare (f64AsI64 f) n))) (o := parseI64 literal)
      exact (iff_of_eq (congrArg₂ _ (hliteral _) (hstored (f64AsI64 f)))).trans hcompare
  | date32 d | timestamp d =>
      exact (iff_of_eq (congrArg₂ _ ((hliteral _).trans Option.any_false) (hstored d))).trans
        (eq_comm.trans any_eq_false_iff)
  | bool _ | null => exact iff_of_true ((hliteral _).trans Option.any_false) trivial

/-- In a float column, dates and timestamps are never compared in the buffer. -/
theorem comparesAlike_float64 (op : CompareOp) (literal : String) (value : Value) :
    ComparesAlike op literal .float64 value ↔ LiteralAgrees op literal .float64 value := by
  -- the literal is parsed once, whatever it is compared with
  have hliteral : ∀ p : Value → Bool, (literalValue .float64 literal).any p =
      (parseF64 literal).any fun n => p (.float64 n) := fun _ => Option.any_map
  have hstored : ∀ x : F64, ((typedFromLiteral (.float64 x) literal).any fun b =>
      compareTyped (.float64 x) op b) = (parseF64 literal).any fun n => applyOp op (Platform.partialCmp x n) :=
    fun _ => Option.any_map
  rw [ComparesAlike]
  cases value with
  | str s =>
      cases hs : parseF64 s with
      | none => simp [literalOperand, normalizeBuffered, Value.asStr, hs, LiteralAgrees, store]
      | some x =>
          simp only [literalOperand, normalizeBuffered, Value.asStr, hs, LiteralAgrees, store,
            Option.map_some, Option.any_some, hliteral, hstored]
          exact iff_of_true rfl trivial
  | float64 f => exact iff_of_true ((hliteral _).trans (hstored f).symm) trivial
  | int64 n => exact iff_of_true ((hliteral _).trans (hstored (intAsF64 n)).symm) trivial
  | date32 d | timestamp d =>
      exact (iff_of_eq (congrArg₂ _ ((hliteral _).trans Option.any_false) (hstored (intAsF64 d)))).trans
        (eq_comm.trans any_eq_false_iff)
  | bool _ | null => exact iff_of_true ((hliteral _).trans Option.any_false) trivial

/-- In a boolean column, the literals in other letter case are read in the column only. -/
theorem comparesAlike_boolean (op : CompareOp) (literal : String) (value : Value) :
    ComparesAlike op literal .boolean value ↔ LiteralAgrees op literal .boolean value := by
  have hliteral : ∀ x : Bool, ((literalValue .boolean literal).any fun b =>
        applyOp op (compareBufferedLiteral (.bool x) b)) =
      ((typedFromLiteral (.bool x) literal).any fun b => compareTyped (.bool x) op b) ↔
      ∀ y, otherBoolean literal = some y → applyOp op (some (compare x y)) = false := by
    intro x
    rw [typedFromLiteral_bool, literalValue, Option.any_map, Option.any_map]
    exact any_parseBool_iff _ literal
  rw [ComparesAlike]
  cases value with
  | str s =>
      cases hs : parseBool s with
      | none => simp [literalOperand, normalizeBuffered, Value.asStr, hs, LiteralAgrees, store]
      | some x =>
          simp only [literalOperand, normalizeBuffered, Value.asStr, store, hs, LiteralAgrees,
            Option.map_some, Option.any_some, hliteral, Option.some.injEq, forall_eq']
  | bool x => exact hliteral x
  | _ =>
      cases hn : parseBool literal <;>
        simp [literalOperand, normalizeBuffered, Value.asStr, hn, literalValue, store,
          LiteralAgrees, compareBufferedLiteral, compareNative]

/-- The comparison with the literal, as the buffer makes it, is that of the columns exactly under
`LiteralAgrees`. The cases are the type of the column and the kind of the value. -/
theorem literalAgrees_iff (op : CompareOp) (literal : String) (ty : FieldType) (value : Value) :
    ((literalOperand ty value).any fun a => (literalValue ty literal).any fun b =>
        applyOp op (compareBufferedLiteral a b)) =
      ((store ty value).any fun a => (typedFromLiteral a literal).any fun b => compareTyped a op b) ↔
    LiteralAgrees op literal ty value := by
  cases ty with
  | string | dictionary =>
      cases value <;> simp [literalOperand, literalValue, store, valueText, LiteralAgrees,
        compareBufferedLiteral, typedFromLiteral, compareTyped, compareNative]
  | int64 => exact comparesAlike_int64 op literal value
  | float64 => exact comparesAlike_float64 op literal value
  | boolean => exact comparesAlike_boolean op literal value
  | date32 =>
      cases value <;>
        simp only [literalOperand, literalValue, store, LiteralAgrees, compareBufferedLiteral,
          typedFromLiteral, compareTyped, compareNative, Option.any_map,
          Option.any_some, Option.any_none, applyOp_none, ← any_eq_false_iff]
      exact eq_comm
  | timestamp unit format =>
      cases value <;>
        simp only [literalOperand, literalValue, store, LiteralAgrees, compareBufferedLiteral,
          typedFromLiteral, compareTyped, compareNative, Option.any_map,
          Option.any_some, Option.any_none, applyOp_none, ← any_eq_false_iff, BEq.rfl, Bool.true_and]
      exact eq_comm
  | decimal128 scale =>
      cases value <;>
        simp only [literalOperand, literalValue, store, LiteralAgrees, compareBufferedLiteral,
          typedFromLiteral, compareTyped, compareNative, Option.any_map,
          Option.any_some, Option.any_none, applyOp_none]

/-! ## Comparisons of two columns -/

/-- A value is a text, a null, or of the native variant of the type of its column. -/
def Native : FieldType → Value → Prop
  | .decimal128 _, _ | _, .str _ | _, .null | .int64, .int64 _ | .float64, .float64 _
  | .boolean, .bool _ | .date32, .date32 _ | .timestamp _ _, .timestamp _ => True
  | _, _ => False

/-- A stored value of a column of the type. -/
def TypedValue.Fits (x : TypedValue) : FieldType → Prop
  | .string | .dictionary => ∃ s, x = .str s
  | .int64 => ∃ n, x = .int64 n
  | .float64 => ∃ f, x = .float64 f
  | .boolean => ∃ b, x = .bool b
  | .date32 => ∃ d, x = .date32 d
  | .timestamp unit _ => ∃ t, x = .timestamp t unit
  | .decimal128 scale => ∃ n, x = .decimal128 n scale

/-- What a column stores has the type of the column, by the cases of `store`. -/
theorem fits_store {ty : FieldType} {v : Value} {x : TypedValue} (h : store ty v = some x) :
    x.Fits ty := by
  have hmap : ∀ {α : Type} {o : Option α} {f : α → TypedValue}, o.map f = some x →
      ∃ a, x = f a := by
    intro α o f hx
    obtain ⟨a, -, rfl⟩ := Option.map_eq_some_iff.mp hx
    exact ⟨a, rfl⟩
  cases ty with
  | string => exact hmap h
  | dictionary => exact hmap h
  | _ =>
      cases v with
      | str s =>
          rw [store] at h
          exact hmap h
      | _ =>
          simp only [store, Option.some.injEq, reduceCtorEq] at h
          try exact ⟨_, h.symm⟩

/-- A stored value as a value, without its unit or scale. -/
def TypedValue.untyped : TypedValue → Value
  | .str s => .str s
  | .int64 n => .int64 n
  | .float64 f => .float64 f
  | .bool b => .bool b
  | .date32 d => .date32 d
  | .timestamp t _ => .timestamp t
  | .decimal128 _ _ => .null

/-- The operand of a `Compare` is the stored value, where there is one. -/
theorem normalizeBuffered_native {ty : FieldType} {v : Value} (h : Native ty v)
    (hdecimal : ∀ scale, ty ≠ .decimal128 scale) :
    (∃ x, store ty v = some x ∧ normalizeBuffered ty v = some x.untyped) ∨
      (store ty v = none ∧ (normalizeBuffered ty v = none ∨ normalizeBuffered ty v = some .null)) := by
  have hparsed : ∀ {α : Type} {o : Option α} {f : α → TypedValue} {g : α → Value},
      (∀ a, (f a).untyped = g a) → (∃ x, o.map f = some x ∧ o.map g = some x.untyped) ∨
        (o.map f = none ∧ (o.map g = none ∨ o.map g = some .null)) := by
    intro α o f g hfg
    cases o with
    | none => exact .inr ⟨rfl, .inl rfl⟩
    | some a => exact .inl ⟨f a, rfl, congrArg some (hfg a).symm⟩
  cases v with
  | null => cases ty <;> first | exact .inr ⟨rfl, .inr rfl⟩ | exact absurd rfl (hdecimal _)
  | str s =>
      cases ty with
      | string | dictionary => exact .inl ⟨.str s, rfl, rfl⟩
      | decimal128 scale => exact absurd rfl (hdecimal scale)
      | _ => exact hparsed fun _ => rfl
  | _ =>
      cases ty with
      | decimal128 scale => exact absurd rfl (hdecimal scale)
      | _ => first | exact h.elim | exact .inl ⟨_, rfl, rfl⟩

/-- The comparison of two stored values, as the buffer makes it. -/
theorem compareTyped_of_fits {ta tb : FieldType} {x y : TypedValue} (hx : x.Fits ta)
    (hy : y.Fits tb) (hdecimal : ∀ s s', ta = .decimal128 s → tb ≠ .decimal128 s')
    (htext : ∀ s t, x = .str s → y ≠ .str t) (da db : Option FieldType) (op : CompareOp) :
    (compatibleTypes ta tb && applyOp op (compareBuffered da db x.untyped y.untyped)) =
      compareTyped x op y := by
  cases ta with
  | decimal128 scale =>
      obtain ⟨u, rfl⟩ := hx
      cases tb with
      | decimal128 scale' => exact absurd rfl (hdecimal scale scale' rfl)
      | _ =>
          obtain ⟨v, rfl⟩ := hy
          rfl
  | _ =>
      obtain ⟨u, rfl⟩ := hx
      cases tb with
      | _ =>
          obtain ⟨v, rfl⟩ := hy
          first | rfl | exact absurd rfl (htext u v rfl)

/-- A text column is of type `String` or `Dictionary`. -/
theorem text_of_fits {ty : FieldType} {s : String} (h : (TypedValue.str s).Fits ty) :
    ty = .string ∨ ty = .dictionary := by
  cases ty with
  | string => exact .inl rfl
  | dictionary => exact .inr rfl
  | _ =>
      obtain ⟨_, heq⟩ := h
      cases heq

section Compare

variable (plan : ExecutionPlan) (a b : String) (op : CompareOp) (x y : Value)

/-- The comparison of two buffered values of the columns `a` and `b`. -/
def bufferedCompares : Bool :=
  compatibleTypes (plan.columnType a) (plan.columnType b) &&
    (normalizeBuffered (plan.columnType a) x).any fun u =>
      (normalizeBuffered (plan.columnType b) y).any fun v =>
        applyOp op (compareBuffered (plan.fieldTypes.lookup a) (plan.fieldTypes.lookup b) u v)

/-- The comparison of what the columns `a` and `b` keep of them. -/
def storedCompares : Bool :=
  (store (plan.columnType a) x).any fun u => (store (plan.columnType b) y).any fun v =>
    compareTyped u op v

/-- The buffer compares texts of one type, which neither column declares. -/
def TextsAgree : Prop :=
  ∀ s t, store (plan.columnType a) x = some (.str s) → store (plan.columnType b) y = some (.str t) →
    (plan.columnType a = plan.columnType b ∧ plan.fieldTypes.lookup a = none ∧
      plan.fieldTypes.lookup b = none) ∨ applyOp op (some (compare s t)) = false

/-- A `Compare` of two columns comes out the same on the buffered values and on the stored ones: two
texts are compared as such, and a value the column converts compares as what it becomes. -/
def CompareAgrees : Prop :=
  (Native (plan.columnType a) x ∧ Native (plan.columnType b) y → TextsAgree plan a b op x y) ∧
    (¬ (Native (plan.columnType a) x ∧ Native (plan.columnType b) y) →
      bufferedCompares plan a b op x y = storedCompares plan a b op x y)

variable {plan a b op x y}

/-- Two texts are compared alike in the buffer and in the columns exactly under `TextsAgree`. In the
buffer they are parsed by the types of their columns first; the columns compare what they have
stored. -/
theorem texts_iff {s t : String} (ha : (TypedValue.str s).Fits (plan.columnType a))
    (hb : (TypedValue.str t).Fits (plan.columnType b)) :
    (compatibleTypes (plan.columnType a) (plan.columnType b) && applyOp op (compareBuffered
        (plan.fieldTypes.lookup a) (plan.fieldTypes.lookup b) (.str s) (.str t))) =
      applyOp op (some (compare s t)) ↔
    (plan.columnType a = plan.columnType b ∧ plan.fieldTypes.lookup a = none ∧
      plan.fieldTypes.lookup b = none) ∨ applyOp op (some (compare s t)) = false := by
  have hdeclared : ∀ {name ty}, plan.fieldTypes.lookup name = some ty → plan.columnType name = ty := by
    intro name ty h
    rw [ExecutionPlan.columnType, h]
  have hrefused : ∀ {p : Prop} {l r : Bool}, ¬ p → l = false → (l = r ↔ p ∨ r = false) := by
    intro p l r hp hl
    rw [hl, or_iff_right hp]
    exact eq_comm
  have hta := text_of_fits ha
  have htb := text_of_fits hb
  by_cases htypes : plan.columnType a = plan.columnType b
  · have hcompatible : compatibleTypes (plan.columnType a) (plan.columnType b) = true := by
      rw [htypes]
      rcases htb with h | h <;> rw [h] <;> rfl
    rw [hcompatible, Bool.true_and, compareBuffered]
    cases hda : plan.fieldTypes.lookup a with
    | none =>
        cases hdb : plan.fieldTypes.lookup b with
        | none => simp [compareStrings, htypes]
        | some tb => exact hrefused (by simp) rfl
    | some ta =>
        -- texts whose column is declared as such are not compared
        rw [hdeclared hda] at hta
        refine hrefused (by simp) ?_
        cases hdb : plan.fieldTypes.lookup b with
        | none => rcases hta with rfl | rfl <;> rfl
        | some tb =>
            rw [hdeclared hdb] at htb
            rcases hta with rfl | rfl <;> rcases htb with rfl | rfl <;> rfl
  · refine hrefused (fun h => htypes h.1) ?_
    rcases hta with hta | hta <;> rcases htb with htb | htb <;> rw [hta, htb] at htypes ⊢ <;>
      first | rfl | exact absurd rfl htypes

/-- Native values are compared as what the columns store, and a missing one matches nothing. So for
native values of the column's own types the two comparisons agree without a condition. -/
theorem bufferedCompares_native (hx : Native (plan.columnType a) x)
    (hy : Native (plan.columnType b) y)
    (hdecimal : ∀ s s', plan.columnType a = .decimal128 s → plan.columnType b ≠ .decimal128 s') :
    bufferedCompares plan a b op x y =
      match store (plan.columnType a) x, store (plan.columnType b) y with
      | some u, some v => compatibleTypes (plan.columnType a) (plan.columnType b) &&
          applyOp op (compareBuffered (plan.fieldTypes.lookup a) (plan.fieldTypes.lookup b)
            u.untyped v.untyped)
      | _, _ => false := by
  have hnull : ∀ da db w, compareBuffered da db .null w = none ∧ compareBuffered da db w .null = none := by
    intro da db w
    cases w <;> exact ⟨rfl, rfl⟩
  rw [bufferedCompares]
  generalize plan.columnType a = ta at hx hdecimal ⊢
  generalize plan.columnType b = tb at hy hdecimal ⊢
  cases hcompatible : compatibleTypes ta tb with
  | false =>
      cases store ta x with
      | none => rfl
      | some u => cases store tb y <;> rfl
  | true =>
      -- a decimal is only compared with a decimal
      have hda : ∀ scale, ta ≠ .decimal128 scale := by
        rintro scale rfl
        cases tb with
        | decimal128 scale' => exact hdecimal scale scale' rfl rfl
        | _ => cases hcompatible
      have hdb : ∀ scale, tb ≠ .decimal128 scale := by
        rintro scale rfl
        cases ta with
        | decimal128 scale' => exact hdecimal scale' scale rfl rfl
        | _ => cases hcompatible
      rw [Bool.true_and]
      rcases normalizeBuffered_native hx hda with ⟨u, hu, hnu⟩ | ⟨hu, hnu⟩
      · rw [hu, hnu, Option.any_some]
        rcases normalizeBuffered_native hy hdb with ⟨v, hv, hnv⟩ | ⟨hv, hnv⟩
        · rw [hv, hnv, Option.any_some]
          rfl
        · rw [hv]
          rcases hnv with hnv | hnv
          · rw [hnv, Option.any_none]
          · rw [hnv, Option.any_some, (hnull _ _ _).2, applyOp_none]
      · rw [hu]
        rcases hnu with hnu | hnu
        · rw [hnu, Option.any_none]
        · rw [hnu, Option.any_some]
          cases normalizeBuffered tb y with
          | none => rfl
          | some v => rw [Option.any_some, (hnull _ _ _).1, applyOp_none]

/-- The condition is exact, but for two decimals: the comparison of two columns comes out the same
exactly under `CompareAgrees`. -/
theorem compareAgrees_iff
    (hdecimal : ∀ s s', plan.columnType a = .decimal128 s → plan.columnType b ≠ .decimal128 s') :
    bufferedCompares plan a b op x y = storedCompares plan a b op x y ↔
      CompareAgrees plan a b op x y := by
  by_cases hnative : Native (plan.columnType a) x ∧ Native (plan.columnType b) y
  · have hreduce : CompareAgrees plan a b op x y ↔ TextsAgree plan a b op x y :=
      ⟨fun h => h.1 hnative, fun h => ⟨fun _ => h, fun hnot => absurd hnative hnot⟩⟩
    rw [hreduce, bufferedCompares_native hnative.1 hnative.2 hdecimal, storedCompares, TextsAgree]
    cases hu : store (plan.columnType a) x with
    | none => simp
    | some u =>
        cases hv : store (plan.columnType b) y with
        | none => simp
        | some v =>
            have hfu := fits_store hu
            have hfv := fits_store hv
            simp only [Option.any_some]
            by_cases htexts : ∃ s t, u = .str s ∧ v = .str t
            · obtain ⟨s, t, rfl, rfl⟩ := htexts
              refine (texts_iff hfu hfv).trans ⟨fun h s' t' hs ht => ?_, fun h => h s t rfl rfl⟩
              cases hs
              cases ht
              exact h
            · refine iff_of_true (compareTyped_of_fits hfu hfv hdecimal ?_ _ _ op) ?_
              · exact fun s t hs ht => htexts ⟨s, t, hs, ht⟩
              · intro s t hs ht
                cases hs
                cases ht
                exact absurd ⟨s, t, rfl, rfl⟩ htexts
  · exact ⟨fun h => ⟨fun hn => absurd hn hnative, fun _ => h⟩, fun h => h.2 hnative⟩

/-- Two decimals agree. -/
theorem compareAgrees_decimals {s s' : Nat} (ha : plan.columnType a = .decimal128 s)
    (hb : plan.columnType b = .decimal128 s') : CompareAgrees plan a b op x y := by
  refine ⟨fun _ u v hu _ => ?_, fun hnot => absurd ?_ hnot⟩
  · obtain ⟨n, hn⟩ := ha ▸ fits_store hu
    cases hn
  · rw [ha, hb]
    exact ⟨trivial, trivial⟩

end Compare

/-! ## Type tests -/

/-- An `IsType` comes out the same on a buffered value and on the stored one. -/
def TypeAgrees (ft ty : FieldType) (value : Value) : Prop :=
  if ty = ft then (store ty value).isSome = true
  else storedIsType ty value ft = bufferedIsType ft value

/-- Every value of a column is of its type, so the test of the column's own type asks only whether
there is one. -/
theorem storedIsType_self (ty : FieldType) (value : Value) :
    storedIsType ty value ty = (store ty value).isSome := by
  have hst := (ColumnBuilder.ofType_stores ty).pushValue value
  have hcell : ((ColumnBuilder.ofType ty).pushValue value).getTypedValue 0 = store ty value := by
    rw [ColumnBuilder.getTypedValue, hst.cells]
    rfl
  have hkind := hst.kind
  rw [storedIsType, ← hcell, ColumnBuilder.getTypedValue]
  generalize (ColumnBuilder.ofType ty).pushValue value = c at hst hkind
  subst hkind
  have hany : ∀ {α : Type} (o : Option α), (o.any fun _ => true) = o.isSome := by
    intro α o
    cases o <;> rfl
  cases c with
  | dictionary codes dict =>
      rw [ColumnBuilder.cells, at?_map, Option.isSome_map, ← ColumnBuilder.isSome_at?_decodeAll hst.valid.2]
      exact hany _
  | timestamp unit format v =>
      rw [ColumnBuilder.cells, at?_map, Option.isSome_map, ← hany]
      simp [ColumnBuilder.isTypeAt, ColumnBuilder.kind]
  | _ =>
      rw [ColumnBuilder.cells, at?_map, Option.isSome_map]
      exact hany _

/-- The condition is exact. -/
theorem typeAgrees_iff (ft ty : FieldType) (value : Value) :
    (ty == ft || bufferedIsType ft value) = storedIsType ty value ft ↔ TypeAgrees ft ty value := by
  rw [TypeAgrees]
  by_cases heq : ty = ft
  · subst heq
    rw [if_pos rfl, storedIsType_self, beq_self_eq_true, Bool.true_or]
    exact eq_comm
  · rw [if_neg heq, beq_eq_false_iff_ne.mpr heq, Bool.false_or]
    exact eq_comm

end Leaves

end Rypipe
