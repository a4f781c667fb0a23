import Rypipe.Engine.Predicates

/-! # The leaves of a filter

Most leaves of a filter test the text of one field; they differ in the test and in the verdict they
give a field without text, while the row is still being read and at its end. `textLeaf` collects
these, so that what holds of a leaf is stated once, for both evaluators. -/

namespace Rypipe

variable [Platform]

/-- A leaf that tests the text of one field. -/
structure TextLeaf where
  field : String
  /-- The verdict on a missing text while the row is being read. -/
  early : Verdict
  /-- The verdict on a missing text at the end of the row. -/
  late : Verdict
  test : String → Bool

/-- The leaves that test the text of one field, in both evaluators. -/
def textLeaf : FilterPredicate → Option TextLeaf
  | .equal field value => some ⟨field, .undecided, .fail, (· == value)⟩
  | .notEqual field value => some ⟨field, .undecided, .pass, (· != value)⟩
  | .startsWith field value => some ⟨field, .undecided, .fail, fun s => startsWith s value⟩
  | .endsWith field value => some ⟨field, .undecided, .fail, fun s => endsWith s value⟩
  | .in field values => some ⟨field, .fail, .fail, fun s => values.contains s⟩
  | .notIn field values => some ⟨field, .pass, .pass, fun s => !values.contains s⟩
  | .notField field => some ⟨field, .pass, .pass, (· == "")⟩
  | .strip field op value mode =>
      some ⟨field, .undecided, .fail, fun s => applyOp op (some (compare (mode.apply s) value))⟩
  | .lower field op value =>
      some ⟨field, .undecided, .fail,
        fun s => applyOp op (some (compare (Platform.toLowercase s) value))⟩
  | .upper field op value =>
      some ⟨field, .undecided, .fail,
        fun s => applyOp op (some (compare (Platform.toUppercase s) value))⟩
  | .replace field old new op value =>
      some ⟨field, .undecided, .fail,
        fun s => applyOp op (some (compare (replaceStr s old new) value))⟩
  | .length field op value => some ⟨field, .undecided, .fail, lengthMatches op value⟩
  | .contains field value => some ⟨field, .undecided, .fail, fun s => containsStr s value⟩
  | .regex field pattern => some ⟨field, .undecided, .fail, fun s => Platform.isMatch pattern s⟩
  | .isNull field => some ⟨field, .pass, .pass, fun _ => false⟩
  | .always _ | .compare _ _ _ | .compareLiteral _ _ _ | .arithmeticCompare _ _ _ _ _
  | .isType _ _ | .and _ _ | .or _ _ | .not _ => none

/-- A predicate that is not a connective. -/
def FilterPredicate.IsLeaf : FilterPredicate → Prop
  | .and _ _ | .or _ _ | .not _ => False
  | _ => True

section Evaluate

variable {plan : ExecutionPlan} {get get' : String → Option Value} {f : FilterPredicate}
  {l : TextLeaf}

/-- The verdict of a text leaf while the row is being read. -/
theorem evalPredicate_textLeaf (h : textLeaf f = some l) :
    evalPredicate plan get f = Verdict.onValue l.early l.test (getBufferedStr plan get l.field) := by
  cases f <;> simp only [textLeaf, Option.some.injEq, reduceCtorEq] at h <;> subst h <;> rfl

/-- The verdict of a text leaf at the end of the row. -/
theorem evalPredicateWithNull_textLeaf (h : textLeaf f = some l) :
    evalPredicateWithNull plan get f =
      Verdict.onValue l.late l.test (getBufferedStr plan get l.field) := by
  cases f <;> simp only [textLeaf, Option.some.injEq, reduceCtorEq] at h <;> subst h <;>
    simp only [evalPredicateWithNull, evalPredicate] <;>
    cases getBufferedStr plan get _ <;>
    simp only [Verdict.onValue_some, Verdict.onValue_none, nullFails_ofBool] <;> rfl

/-- The text of a field is a function of its buffered value. -/
theorem getBufferedStr_congr {field : String} (h : get' field = get field) :
    getBufferedStr plan get' field = getBufferedStr plan get field := by
  rw [getBufferedStr, getBufferedStr, h]

/-- A field without a value has no text. -/
theorem getBufferedStr_of_none {field : String} (h : get field = none) :
    getBufferedStr plan get field = none := by
  rw [getBufferedStr, h]
  cases plan.resolveField field <;> rfl

end Evaluate

end Rypipe
