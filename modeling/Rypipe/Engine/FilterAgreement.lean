import Rypipe.Engine.EarlyDecision
import Rypipe.Engine.FilterLeaves

/-! # The two evaluators of a filter

`FilterAgrees` says of a row, leaf by leaf, where the evaluation of a filter on the buffered values
(`eval_predicate_with_null`) and on the columns that show the row (`FilterPredicate::check`) come out
the same. -/

namespace Rypipe

section Columns

variable [Platform]

/-! ## A row in the columns -/

/-- The type test reads the type of the column and the cell, and for texts what they parse as. -/
theorem ColumnBuilder.isTypeAt_congr {c c' : ColumnBuilder} (hc : c.Valid) (hc' : c'.Valid)
    (hkind : c'.kind = c.kind) {i j : Nat} (hcell : c'.getTypedValue j = c.getTypedValue i)
    (ft : FieldType) : c'.isTypeAt j ft = c.isTypeAt i ft := by
  rw [getTypedValue, getTypedValue] at hcell
  have hat : ∀ {α : Type} {f : α → TypedValue} {v v' : List (Option α)}, Function.Injective f →
      at? (v'.map (·.map f)) j = at? (v.map (·.map f)) i → at? v' j = at? v i := by
    intro α f v v' hf heq
    rw [at?_map, at?_map] at heq
    exact Option.map_injective hf heq
  -- two columns of one type are of the same variant
  cases c <;> cases c' <;> cases hkind
  · simp only [isTypeAt, hat (fun _ _ h => TypedValue.str.inj h) hcell]
  · simp only [isTypeAt, hat (fun _ _ h => TypedValue.int64.inj h) hcell]
  · simp only [isTypeAt, hat (fun _ _ h => TypedValue.float64.inj h) hcell]
  · simp only [isTypeAt, hat (fun _ _ h => TypedValue.bool.inj h) hcell]
  · simp only [isTypeAt, hat (fun _ _ h => TypedValue.date32.inj h) hcell]
  · simp only [isTypeAt, hat (fun _ _ h => (TypedValue.timestamp.inj h).1) hcell]
  · simp only [isTypeAt, hat (fun _ _ h => (TypedValue.decimal128.inj h).1) hcell]
  · exact isTypeAt_dictionary hc.2 hc'.2 (hat (fun _ _ h => TypedValue.str.inj h) hcell) ft

/-- Row `i` of the columns is the row `row`: the columns have the types the plan gives their names, and
keep what these types do of the values. -/
structure ShowsRow (columns : List ColumnBuilder) (index : StrMap Nat) (i : Nat)
    (plan : ExecutionPlan) (row : CurrentRow) : Prop where
  column : ∀ name c, FilterPredicate.getColumn columns index name = some c → c.Valid ∧
    c.kind = plan.columnType name ∧ c.getTypedValue i = cell store (plan.columnType name) name row
  missing : ∀ name, FilterPredicate.getColumn columns index name = none → row name = none

namespace ShowsRow

variable {columns columns' : List ColumnBuilder} {index index' : StrMap Nat} {i i' : Nat}
  {plan : ExecutionPlan} {row : CurrentRow}

/-- The stored value of a filter field. -/
theorem getTyped (h : ShowsRow columns index i plan row) (field : String) :
    FilterPredicate.getTyped columns index i plan field =
      cell store (plan.columnType (plan.rename field)) (plan.rename field) row := by
  rw [FilterPredicate.getTyped]
  cases hc : FilterPredicate.getColumn columns index (plan.rename field) with
  | none => rw [cell, h.missing _ hc]; rfl
  | some c => exact (h.column _ c hc).2.2

/-- Its text. -/
theorem getValue (h : ShowsRow columns index i plan row) (field : String) :
    FilterPredicate.getValue columns index i plan field =
      (cell store (plan.columnType (plan.rename field)) (plan.rename field) row).map filterText := by
  rw [← h.getTyped field, FilterPredicate.getTyped, FilterPredicate.getValue, Option.map_bind]
  rfl

/-- Its type test: that of the column's type and the stored cell, or false for a field without a
column. -/
theorem isType (h : ShowsRow columns index i plan row) (field : String) (ft : FieldType) :
    ((FilterPredicate.getColumn columns index (plan.rename field)).any fun c => c.isTypeAt i ft) =
      (row (plan.rename field)).any fun value =>
        storedIsType (plan.columnType (plan.rename field)) value ft := by
  generalize plan.rename field = name
  -- a column with one cell, the one of the row
  have hone : ∀ value c, FilterPredicate.getColumn columns index name = some c →
      cell store (plan.columnType name) name row = store (plan.columnType name) value →
      c.isTypeAt i ft = storedIsType (plan.columnType name) value ft := by
    intro value c hc hcell
    obtain ⟨hvalid, hkind, htyped⟩ := h.column name c hc
    have hst := (ColumnBuilder.ofType_stores (plan.columnType name)).pushValue value
    apply ColumnBuilder.isTypeAt_congr hst.valid hvalid (hkind.trans hst.kind.symm)
    rw [htyped, hcell, ColumnBuilder.getTypedValue, hst.cells]
    rfl
  cases hvalue : row name with
  | none =>
      cases hc : FilterPredicate.getColumn columns index name with
      | none => rfl
      | some c =>
          rw [Option.any_some, Option.any_none, hone .null c hc]
          · rw [storedIsType]
            cases plan.columnType name <;> rfl
          · rw [cell, hvalue, store_null]
            rfl
  | some value =>
      cases hc : FilterPredicate.getColumn columns index name with
      | none =>
          rw [h.missing name hc] at hvalue
          cases hvalue
      | some c =>
          rw [Option.any_some, Option.any_some, hone value c hc]
          rw [cell, hvalue]
          rfl

/-- **A filter decides by the row**: it does the same on other columns that show it. -/
theorem check_congr (h : ShowsRow columns index i plan row) (h' : ShowsRow columns' index' i' plan row)
    (f : FilterPredicate) : f.check columns' index' i' plan = f.check columns index i plan := by
  have htyped : FilterPredicate.getTyped columns' index' i' plan =
      FilterPredicate.getTyped columns index i plan := by
    funext field
    rw [h.getTyped, h'.getTyped]
  have hvalue : FilterPredicate.getValue columns' index' i' plan =
      FilterPredicate.getValue columns index i plan := by
    funext field
    rw [h.getValue, h'.getValue]
  induction f with
  | isType field ft =>
      rw [FilterPredicate.check, FilterPredicate.check, h.isType, h'.isType]
  | and a b iha ihb => rw [FilterPredicate.check_and, FilterPredicate.check_and, iha, ihb]
  | or a b iha ihb => rw [FilterPredicate.check_or, FilterPredicate.check_or, iha, ihb]
  | not inner ih => rw [FilterPredicate.check, FilterPredicate.check, ih]
  | _ => simp only [FilterPredicate.check, htyped, hvalue]

end ShowsRow

end Columns

section Trees

variable [Platform] {plan : ExecutionPlan} {row : CurrentRow} {columns : List ColumnBuilder}
  {index : StrMap Nat} {i : Nat}

/-! ## The fields of a filter -/

/-- The buffer finds the value of a filter field under its output name, unless the plan drops the field
and no value comes under that name. -/
def Finds (plan : ExecutionPlan) (row : CurrentRow) (field : String) : Prop :=
  plan.resolveField field = some (plan.rename field) ∨
    (plan.resolveField field = none ∧ row (plan.rename field) = none)

namespace Finds

variable {field : String}

/-- The buffered value of a filter field is the value of its column in the row. -/
theorem rowGet_eq (h : Finds plan row field) : rowGet plan row field = row (plan.rename field) := by
  rcases h with hres | ⟨hres, hnone⟩
  · rw [rowGet, hres, Option.bind_some]
  · rw [rowGet, hres, hnone, Option.bind_none]

/-- The buffered text of a filter field is that of the value, by the type that the plan has for the
column. -/
theorem getBufferedStr_eq (h : Finds plan row field) :
    getBufferedStr plan (rowGet plan row) field =
      (row (plan.rename field)).bind (bufferedText (plan.columnType (plan.rename field))) := by
  rw [getBufferedStr, h.rowGet_eq]
  rcases h with hres | ⟨hres, hnone⟩
  · rw [hres]
    rfl
  · rw [hres, hnone]
    rfl

/-- A field with a value is resolved. -/
theorem resolved (h : Finds plan row field) {value : Value}
    (hvalue : row (plan.rename field) = some value) :
    plan.resolveField field = some (plan.rename field) := by
  rcases h with hres | ⟨-, hnone⟩
  · exact hres
  · rw [hnone] at hvalue
    cases hvalue

/-- The name that the evaluators look up is the output name of the field. -/
theorem filterName_eq (h : Finds plan row field) {value : Value}
    (hvalue : row (plan.rename field) = some value) :
    filterName plan field = plan.rename field := by
  rw [filterName, h.resolved hvalue, Option.getD_some]

/-- The type they compare with is that of its column. -/
theorem filterType_eq (h : Finds plan row field) {value : Value}
    (hvalue : row (plan.rename field) = some value) :
    filterType plan field = plan.columnType (plan.rename field) := by
  rw [filterType, h.filterName_eq hvalue]

end Finds

/-- A row without dropped names: every field of the filter is found. -/
theorem finds_of_filter {f : FilterPredicate} (hfilter : plan.filter = some f)
    (hdrop : ∀ name ∈ plan.dropFields, row name = none) {field : String} (hfield : field ∈ f.fields) :
    Finds plan row field := by
  have hres := ExecutionPlan.resolveField_of_mem_fields hfilter hfield
  by_cases hmem : plan.rename field ∈ plan.dropFields
  · rw [if_pos hmem] at hres
    exact .inr ⟨hres, hdrop _ hmem⟩
  · rw [if_neg hmem] at hres
    exact .inl hres

/-! ## Leaves -/

/-- A text leaf reads the text of the stored value. -/
theorem check_textLeaf {f : FilterPredicate} {l : TextLeaf} (h : textLeaf f = some l) :
    Verdict.ofBool (f.check columns index i plan) =
      Verdict.onValue l.late l.test (FilterPredicate.getValue columns index i plan l.field) := by
  cases f <;> simp only [textLeaf, Option.some.injEq, reduceCtorEq] at h <;> subst h <;>
    simp only [FilterPredicate.check] <;>
    cases FilterPredicate.getValue columns index i plan _ <;>
    simp [Verdict.ofBool]

omit [Platform] in
/-- What is undecided at the end of the row fails. -/
theorem nullFails_onValue {α : Type} (test : α → Bool) (o : Option α) :
    nullFails (Verdict.onValue .undecided test o) = Verdict.ofBool (o.any test) := by
  cases o with
  | none => rfl
  | some a => exact nullFails_ofBool _

/-- The verdict of a `CompareLiteral` at the end of the row: a missing field fails it, and a value
is compared with the literal. -/
theorem nullFails_evalCompareLiteral (get : String → Option Value) (field : String) (op : CompareOp)
    (literal : String) :
    nullFails (evalCompareLiteral plan get field op literal) =
      Verdict.ofBool (((get field).bind (literalOperand (filterType plan field))).any fun a =>
        (literalValue (filterType plan field) literal).any fun b =>
          applyOp op (compareBufferedLiteral a b)) := by
  rw [evalCompareLiteral]
  cases (get field).bind (literalOperand (filterType plan field)) with
  | none => rfl
  | some a =>
      cases literalValue (filterType plan field) literal with
      | none => rfl
      | some b => exact nullFails_ofBool _

/-- The verdict of a `Compare` at the end of the row. A field without a value fails it; otherwise it
is the comparison of the two buffered values, which is decided by then. -/
theorem nullFails_evalCompare {a b : String} {op : CompareOp} {x y : Value}
    (ha : Finds plan row a) (hb : Finds plan row b) (hx : row (plan.rename a) = some x)
    (hy : row (plan.rename b) = some y)
    (hdecimal : ∀ s s', plan.columnType (plan.rename a) = .decimal128 s →
      plan.columnType (plan.rename b) ≠ .decimal128 s') :
    nullFails (evalCompare plan (rowGet plan row) a op b) =
      Verdict.ofBool (bufferedCompares plan (plan.rename a) (plan.rename b) op x y) := by
  rw [evalCompare, bufferedCompares, ha.filterType_eq hx, hb.filterType_eq hy, ha.filterName_eq hx,
    hb.filterName_eq hy, ha.rowGet_eq, hb.rowGet_eq, hx, hy]
  cases compatibleTypes (plan.columnType (plan.rename a)) (plan.columnType (plan.rename b)) with
  | false => rfl
  | true =>
      rw [Bool.true_and]
      generalize plan.fieldTypes.lookup (plan.rename a) = da
      generalize plan.fieldTypes.lookup (plan.rename b) = db
      generalize plan.columnType (plan.rename a) = ta at hdecimal ⊢
      generalize plan.columnType (plan.rename b) = tb at hdecimal ⊢
      -- off two decimals the operands are those of `normalize_buffered`
      cases ta with
      | decimal128 s =>
          cases tb with
          | decimal128 s' => exact absurd rfl (hdecimal s s' rfl)
          | _ =>
              simp only [Option.bind_some]
              cases normalizeBuffered (.decimal128 s) x with
              | none => rfl
              | some u =>
                  cases normalizeBuffered _ y with
                  | none => rfl
                  | some v => exact nullFails_ofBool _
      | _ =>
          simp only [Option.bind_some]
          cases normalizeBuffered _ x with
          | none => rfl
          | some u =>
              cases normalizeBuffered tb y with
              | none => rfl
              | some v => exact nullFails_ofBool _

/-! ## Where the evaluators agree -/

/-- The leaves of a filter come out the same on the buffered values of the row and on the stored
ones. -/
def FilterAgrees (plan : ExecutionPlan) (row : CurrentRow) : FilterPredicate → Prop
  | .and a b | .or a b => FilterAgrees plan row a ∧ FilterAgrees plan row b
  | .not inner => FilterAgrees plan row inner
  | .compare a op b => ∀ x, row (plan.rename a) = some x → ∀ y, row (plan.rename b) = some y →
      CompareAgrees plan (plan.rename a) (plan.rename b) op x y
  | .compareLiteral field op literal => ∀ value, row (plan.rename field) = some value →
      LiteralAgrees op literal (plan.columnType (plan.rename field)) value
  | .arithmeticCompare field arithOp arithValue cmpOp cmpValue =>
      ∀ value, row (plan.rename field) = some value →
        NumberAgrees (arithMatches arithOp arithValue cmpOp cmpValue)
          (plan.columnType (plan.rename field)) value
  | .isType field ft => ∀ value, row (plan.rename field) = some value →
      TypeAgrees ft (plan.columnType (plan.rename field)) value
  | leaf => ∀ l, textLeaf leaf = some l → ∀ value, row (plan.rename l.field) = some value →
      TextAgrees l (plan.columnType (plan.rename l.field)) value

omit [Platform] in
/-- Different answers are different verdicts. -/
theorem ofBool_inj {x y : Bool} : Verdict.ofBool x = Verdict.ofBool y ↔ x = y := by
  revert x y
  decide

/-- A leaf that reads one value agrees when it agrees on the value that comes, if any. -/
theorem forall_value_iff {name : String} {p : Option Value → Prop} {q : Value → Prop}
    (hnone : p none) (hsome : ∀ value, p (some value) ↔ q value) :
    p (row name) ↔ ∀ value, row name = some value → q value := by
  cases hvalue : row name with
  | none => exact iff_of_true hnone fun value h => by cases h
  | some value =>
      rw [hsome]
      exact ⟨fun h v hv => Option.some.inj hv ▸ h, fun h => h value rfl⟩

namespace ShowsRow

/-- Text leaves: the evaluators agree exactly under `TextAgrees`, since both look for the text of
the field and test it in the same way. -/
theorem textLeaf_iff (h : ShowsRow columns index i plan row) {f : FilterPredicate} {l : TextLeaf}
    (hl : textLeaf f = some l) (hfinds : Finds plan row l.field) :
    evalPredicateWithNull plan (rowGet plan row) f = Verdict.ofBool (f.check columns index i plan) ↔
      ∀ l', textLeaf f = some l' → ∀ value, row (plan.rename l'.field) = some value →
        TextAgrees l' (plan.columnType (plan.rename l'.field)) value := by
  rw [evalPredicateWithNull_textLeaf hl, check_textLeaf hl, hfinds.getBufferedStr_eq, h.getValue, cell]
  refine (forall_value_iff (p := fun value =>
    Verdict.onValue l.late l.test (value.bind (bufferedText (plan.columnType (plan.rename l.field)))) =
      Verdict.onValue l.late l.test
        ((value.bind (store (plan.columnType (plan.rename l.field)))).map filterText)) rfl
    (textAgrees_iff l _)).trans ⟨fun hagrees l' hl' => ?_, fun hagrees => hagrees l hl⟩
  obtain rfl : l = l' := Option.some.inj (hl.symm.trans hl')
  exact hagrees

/-- A `Compare` of two columns: the two evaluators agree on the row exactly under `CompareAgrees`.
The cases are which of the two fields have a value; where both have, one side compares the buffered
values and the other what the columns store of them. -/
theorem compare_iff (h : ShowsRow columns index i plan row) {a b : String} (op : CompareOp)
    (ha : Finds plan row a) (hb : Finds plan row b) :
    nullFails (evalCompare plan (rowGet plan row) a op b) =
        Verdict.ofBool ((FilterPredicate.compare a op b).check columns index i plan) ↔
      FilterAgrees plan row (.compare a op b) := by
  have hcheck : (FilterPredicate.compare a op b).check columns index i plan =
      ((cell store (plan.columnType (plan.rename a)) (plan.rename a) row).any fun u =>
        (cell store (plan.columnType (plan.rename b)) (plan.rename b) row).any fun v =>
          compareTyped u op v) := by
    rw [FilterPredicate.check, h.getTyped, h.getTyped]
    cases cell store (plan.columnType (plan.rename a)) (plan.rename a) row with
    | none => rfl
    | some u =>
        cases cell store (plan.columnType (plan.rename b)) (plan.rename b) row <;> rfl
  -- without one of the values neither evaluator passes the row
  have hmissing : row (plan.rename a) = none ∨ row (plan.rename b) = none →
      (nullFails (evalCompare plan (rowGet plan row) a op b) =
        Verdict.ofBool ((FilterPredicate.compare a op b).check columns index i plan) ↔
      FilterAgrees plan row (.compare a op b)) := by
    intro hnone
    refine iff_of_true ?_ fun x hx y hy => ?_
    · rw [evalCompare_of_none op (by rwa [ha.rowGet_eq, hb.rowGet_eq]), hcheck, cell, cell]
      rcases hnone with hx | hy
      · rw [hx]
        split <;> rfl
      · rw [hy]
        cases (row (plan.rename a)).bind _ <;> split <;> rfl
    · rw [hx, hy] at hnone
      rcases hnone with hnone | hnone <;> cases hnone
  cases hx : row (plan.rename a) with
  | none => exact hmissing (.inl hx)
  | some x =>
      cases hy : row (plan.rename b) with
      | none => exact hmissing (.inr hy)
      | some y =>
          have hagrees : FilterAgrees plan row (.compare a op b) ↔
              CompareAgrees plan (plan.rename a) (plan.rename b) op x y := by
            rw [FilterAgrees, hx, hy]
            exact ⟨fun h => h x rfl y rfl, fun h _ hx' _ hy' => by cases hx'; cases hy'; exact h⟩
          have hstored : (FilterPredicate.compare a op b).check columns index i plan =
              storedCompares plan (plan.rename a) (plan.rename b) op x y := by
            rw [hcheck, cell, cell, hx, hy]
            rfl
          rw [hagrees, hstored]
          by_cases hdecimal : ∃ s s', plan.columnType (plan.rename a) = .decimal128 s ∧
              plan.columnType (plan.rename b) = .decimal128 s'
          · obtain ⟨s, s', hta, htb⟩ := hdecimal
            refine iff_of_true ?_ (compareAgrees_decimals hta htb)
            rw [evalCompare_decimals (ha.resolved hx) (hb.resolved hy) hta htb op, ha.rowGet_eq,
              hb.rowGet_eq, hx, hy, Option.bind_some, Option.bind_some, storedCompares, hta, htb]
            cases store (.decimal128 s) x with
            | none => rfl
            | some u =>
                cases store (.decimal128 s') y with
                | none => rfl
                | some v => exact nullFails_ofBool _
          · have hnot : ∀ s s', plan.columnType (plan.rename a) = .decimal128 s →
                plan.columnType (plan.rename b) ≠ .decimal128 s' :=
              fun s s' hta htb => hdecimal ⟨s, s', hta, htb⟩
            rw [nullFails_evalCompare ha hb hx hy hnot, ofBool_inj]
            exact compareAgrees_iff hnot

/-- A comparison with a literal: one side compares the buffered value and the other what the column
stores of it, each with the literal read in its own type. -/
theorem compareLiteral_iff (h : ShowsRow columns index i plan row) {field : String} (op : CompareOp)
    (literal : String) (hfield : Finds plan row field) :
    nullFails (evalCompareLiteral plan (rowGet plan row) field op literal) =
        Verdict.ofBool ((FilterPredicate.compareLiteral field op literal).check columns index i plan) ↔
      FilterAgrees plan row (.compareLiteral field op literal) := by
  have hcheck : (FilterPredicate.compareLiteral field op literal).check columns index i plan =
      ((cell store (plan.columnType (plan.rename field)) (plan.rename field) row).any fun a =>
        (typedFromLiteral a literal).any fun b => compareTyped a op b) := by
    rw [FilterPredicate.check, h.getTyped]
    cases cell store (plan.columnType (plan.rename field)) (plan.rename field) row with
    | none => rfl
    | some a => cases ht : typedFromLiteral a literal <;> simp [ht]
  rw [nullFails_evalCompareLiteral, hcheck, ofBool_inj, hfield.rowGet_eq, cell, FilterAgrees]
  cases hvalue : row (plan.rename field) with
  | none => exact iff_of_true rfl fun value hv => by cases hv
  | some value =>
      rw [hfield.filterType_eq hvalue]
      refine (literalAgrees_iff op literal _ value).trans ⟨fun hagrees v hv => ?_, fun hagrees =>
        hagrees value rfl⟩
      cases hv
      exact hagrees

/-- An arithmetic test: one side parses the text of the buffered value and the other reads the number
that the column stores. -/
theorem arithmeticCompare_iff (h : ShowsRow columns index i plan row) {field : String}
    (arithOp : ArithOp) (arithValue : F64) (cmpOp : CompareOp) (cmpValue : String)
    (hfield : Finds plan row field) :
    evalPredicateWithNull plan (rowGet plan row)
          (.arithmeticCompare field arithOp arithValue cmpOp cmpValue) =
        Verdict.ofBool ((FilterPredicate.arithmeticCompare field arithOp arithValue cmpOp
          cmpValue).check columns index i plan) ↔
      FilterAgrees plan row (.arithmeticCompare field arithOp arithValue cmpOp cmpValue) := by
  have hany : ∀ (test : F64 → Bool) (o : Option String),
      (o.any fun s => (parseF64 s).any test) = (o.bind parseF64).any test := by
    intro test o
    cases o <;> rfl
  show nullFails (Verdict.onValue .undecided _ (getBufferedStr plan (rowGet plan row) field)) = _ ↔ _
  rw [nullFails_onValue, hany, FilterPredicate.check, ofBool_inj, hfield.getBufferedStr_eq,
    h.getTyped, cell]
  exact forall_value_iff (p := fun value =>
    ((value.bind (bufferedText (plan.columnType (plan.rename field)))).bind parseF64).any
        (arithMatches arithOp arithValue cmpOp cmpValue) =
      ((value.bind (store (plan.columnType (plan.rename field)))).bind typedAsF64).any
        (arithMatches arithOp arithValue cmpOp cmpValue)) rfl
    (numberAgrees_iff (arithMatches arithOp arithValue cmpOp cmpValue) _)

/-- A type test: a value that has arrived is of the column's type or of its own, and a missing one is
of no type on either side. -/
theorem isType_iff (h : ShowsRow columns index i plan row) {field : String} (ft : FieldType)
    (hfield : Finds plan row field) :
    nullFails (evalIsType plan (rowGet plan row) field ft) =
        Verdict.ofBool ((FilterPredicate.isType field ft).check columns index i plan) ↔
      FilterAgrees plan row (.isType field ft) := by
  rw [evalIsType, FilterPredicate.check, h.isType, hfield.rowGet_eq, FilterAgrees]
  cases hvalue : row (plan.rename field) with
  | none =>
      refine iff_of_true ?_ fun value hv => by cases hv
      rw [Option.isSome_none, Bool.and_false]
      rfl
  | some value =>
      have hverdict : nullFails (if filterType plan field == ft && (some value).isSome then .pass
          else .ofBool ((some value).any (bufferedIsType ft))) =
          Verdict.ofBool (plan.columnType (plan.rename field) == ft || bufferedIsType ft value) := by
        rw [hfield.filterType_eq hvalue, Option.isSome_some, Bool.and_true, Option.any_some]
        cases plan.columnType (plan.rename field) == ft with
        | true => rfl
        | false => exact nullFails_ofBool _
      rw [hverdict, ofBool_inj, Option.any_some]
      refine (typeAgrees_iff ft _ value).trans ⟨fun hagrees v hv => ?_, fun hagrees =>
        hagrees value rfl⟩
      cases hv
      exact hagrees

/-- **On a leaf the condition is exact.** For each kind of leaf the verdict on the buffered values
and the check on the columns are written out on the row, and they are the same exactly under the
condition on the stored type and the value. -/
theorem leaf_iff (h : ShowsRow columns index i plan row) {f : FilterPredicate} (hleaf : f.IsLeaf)
    (hfinds : ∀ field ∈ f.fields, Finds plan row field) :
    evalPredicateWithNull plan (rowGet plan row) f = Verdict.ofBool (f.check columns index i plan) ↔
      FilterAgrees plan row f := by
  cases f with
  | and a b => exact hleaf.elim
  | or a b => exact hleaf.elim
  | not inner => exact hleaf.elim
  -- a constant reads nothing
  | always keep => exact iff_of_true rfl fun l hl => by cases hl
  | compare a op b =>
      exact h.compare_iff op (hfinds a List.mem_cons_self)
        (hfinds b (List.mem_cons_of_mem _ List.mem_cons_self))
  | compareLiteral field op literal =>
      exact h.compareLiteral_iff op literal (hfinds field List.mem_cons_self)
  | arithmeticCompare field arithOp arithValue cmpOp cmpValue =>
      exact h.arithmeticCompare_iff arithOp arithValue cmpOp cmpValue (hfinds field List.mem_cons_self)
  | isType field ft => exact h.isType_iff ft (hfinds field List.mem_cons_self)
  -- all other leaves test the text of their field
  | _ => exact h.textLeaf_iff rfl (hfinds _ List.mem_cons_self)

/-- **The evaluators agree** on every row whose leaves agree. By induction on the filter: the
verdict of a tree at the end of a row is two-valued, and its connectives are those of the check. -/
theorem agrees (h : ShowsRow columns index i plan row) {f : FilterPredicate}
    (hfinds : ∀ field ∈ f.fields, Finds plan row field) (hagrees : FilterAgrees plan row f) :
    evalPredicateWithNull plan (rowGet plan row) f =
      Verdict.ofBool (f.check columns index i plan) := by
  induction f with
  | and a b iha ihb =>
      rw [evalPredicateWithNull, FilterPredicate.check_and, ← Verdict.ofBool_and,
        iha (fun field hf => hfinds field (List.mem_append_left _ hf)) hagrees.1,
        ihb (fun field hf => hfinds field (List.mem_append_right _ hf)) hagrees.2]
  | or a b iha ihb =>
      rw [evalPredicateWithNull, FilterPredicate.check_or, ← nullFails_ofBool, ← Verdict.ofBool_or,
        iha (fun field hf => hfinds field (List.mem_append_left _ hf)) hagrees.1,
        ihb (fun field hf => hfinds field (List.mem_append_right _ hf)) hagrees.2]
  | not inner ih =>
      rw [evalPredicateWithNull, FilterPredicate.check, ← nullFails_ofBool, ← Verdict.not_ofBool,
        ih hfinds hagrees]
  | _ => exact (h.leaf_iff (by trivial) hfinds).mpr hagrees

end ShowsRow

end Trees

end Rypipe
