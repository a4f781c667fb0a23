import Rypipe.Columnar.DecimalText
import Rypipe.Engine.StrictCalls

/-! # Decimals that fit the exported type

A decimal column is exported with precision 38, but the parser accepts every value of 128 bits. A
numeral between the two bounds at the scale of its column (`InGap`) is stored and exported out of range;
all other strings keep the columns of a run, and the batch it exports, in range (`decimals_fit`). -/

namespace Rypipe

/-- The string is a numeral whose value at the scale is too large for 38 digits and still a value of
128 bits. -/
def InGap (s : String) (scale : Nat) : Prop :=
  ∃ neg int frac, Numeral (trim s).toList neg int frac ∧
    10 ^ 38 ≤ ⌊numeralValue int frac * 10 ^ scale⌋ ∧
    ⌊numeralValue int frac * 10 ^ scale⌋ ≤ 2 ^ 127 - 1

/-- The parser lets exactly the strings of the gap through with a value out of range. -/
theorem inGap_iff {s : String} {scale : Nat} (hscale : scale ≤ 38) :
    InGap s scale ↔ ∃ v, parseDecimal128 s scale = some v ∧ 10 ^ 38 ≤ v.natAbs := by
  constructor
  · rintro ⟨neg, int, frac, hnumeral, hlow, hhigh⟩
    rw [floor_numeralValue int hnumeral.fracDigits] at hlow hhigh
    refine ⟨_, by rw [parseDecimal128_of_numeral hscale hnumeral, if_pos (by omega)], ?_⟩
    cases neg <;> simp only [Bool.false_eq_true, if_false, if_true] <;> omega
  · rintro ⟨v, hparse, hlarge⟩
    obtain ⟨neg, int, frac, hnumeral⟩ := numeral_of_parseDecimal128 hparse
    refine ⟨neg, int, frac, hnumeral, ?_⟩
    rw [floor_numeralValue int hnumeral.fracDigits]
    rw [parseDecimal128_of_numeral hscale hnumeral] at hparse
    by_cases hlt : scaledDigits int frac scale < 2 ^ 127
    · rw [if_pos hlt, Option.some.injEq] at hparse
      subst hparse
      cases neg <;> simp only [Bool.false_eq_true, if_false, if_true] at hlarge <;> omega
    · rw [if_neg hlt] at hparse
      cases hparse

/-- The string is a numeral too large for 38 digits at the scale. -/
def TooLarge (s : String) (scale : Nat) : Prop :=
  ∃ neg int frac, Numeral (trim s).toList neg int frac ∧
    10 ^ 38 ≤ ⌊numeralValue int frac * 10 ^ scale⌋

/-- Out of the gap, a numeral that is too large does not parse. -/
theorem TooLarge.parseDecimal128 {s : String} {scale : Nat} (hlarge : TooLarge s scale)
    (hgap : ¬ InGap s scale) (hscale : scale ≤ 38) : parseDecimal128 s scale = none := by
  obtain ⟨neg, int, frac, hnumeral, hlow⟩ := hlarge
  rw [parseDecimal128_of_numeral hscale hnumeral, if_neg]
  intro hlt
  refine hgap ⟨neg, int, frac, hnumeral, hlow, ?_⟩
  rw [floor_numeralValue int hnumeral.fracDigits]
  omega

section Cells

variable [Platform]

/-- Every cell of a decimal column has at most 38 digits. -/
def FitsPrecision (cells : List (Option TypedValue)) : Prop :=
  ∀ v scale, some (.decimal128 v scale) ∈ cells → v.natAbs < 10 ^ 38

namespace ColumnBuilder

/-- A decimal column of a declared scale with cells in range. -/
def DecimalsFit (T : FieldType → Prop) (c : ColumnBuilder) : Prop :=
  ∀ scale l, c = .decimal128 scale l → T (.decimal128 scale) ∧
    ∀ v, some v ∈ l → v.natAbs < 10 ^ 38

/-- Only decimal columns have decimal cells, so a column of another type has nothing to fit. -/
theorem DecimalsFit.cells {T : FieldType → Prop} {c : ColumnBuilder} (h : c.DecimalsFit T) :
    FitsPrecision c.cells := by
  intro v scale hv
  cases c with
  | decimal128 s l =>
    obtain ⟨cell, hcell, heq⟩ := List.mem_map.mp hv
    obtain ⟨w, rfl, hw⟩ := Option.map_eq_some_iff.mp heq
    cases hw
    exact (h scale l rfl).2 v hcell
  | _ =>
    obtain ⟨cell, hcell, heq⟩ := List.mem_map.mp hv
    obtain ⟨w, rfl, hw⟩ := Option.map_eq_some_iff.mp heq
    cases hw

/-- Columns of other types hold no decimals. -/
theorem decimalsFit_of_kind {T : FieldType → Prop} {c : ColumnBuilder}
    (h : ∀ scale, c.kind ≠ .decimal128 scale) : c.DecimalsFit T := by
  rintro scale l rfl
  exact absurd rfl (h scale)

/-- One more cell that is missing or below `10^38` leaves the column in range. -/
theorem DecimalsFit.concat {T : FieldType → Prop} {scale : Nat} {l : List (Option Int)}
    (h : DecimalsFit T (.decimal128 scale l)) {cell : Option Int}
    (hcell : ∀ v, cell = some v → v.natAbs < 10 ^ 38) :
    DecimalsFit T (.decimal128 scale (l ++ [cell])) := by
  intro scale' l' heq
  cases heq
  refine ⟨(h scale l rfl).1, fun v hv => ?_⟩
  rcases List.mem_append.mp hv with hv | hv
  · exact (h scale l rfl).2 v hv
  · exact hcell v (List.mem_singleton.mp hv).symm

end ColumnBuilder

/-- A string keeps a decimal column in range unless it is parsed as a value out of range. -/
theorem fitsPrecision_pushStr {scale : Nat} {l : List (Option Int)} {s : String}
    (hfits : FitsPrecision (ColumnBuilder.decimal128 scale l).cells) :
    FitsPrecision ((ColumnBuilder.decimal128 scale l).pushStr (some s)).cells ↔
      ¬ ∃ v, parseDecimal128 s scale = some v ∧ 10 ^ 38 ≤ v.natAbs := by
  have hcells : ((ColumnBuilder.decimal128 scale l).pushStr (some s)).cells =
      (ColumnBuilder.decimal128 scale l).cells ++
        [(parseDecimal128 s scale).map fun v => .decimal128 v scale] := by
    simp only [ColumnBuilder.pushStr, Option.bind_some]
    exact List.map_append
  rw [hcells]
  constructor
  · rintro hall ⟨v, hparse, hlarge⟩
    have hcell := hall v scale (by
      rw [hparse]
      exact List.mem_append_right _ (List.mem_singleton_self _))
    omega
  · intro hgap v scale' hv
    rcases List.mem_append.mp hv with hv | hv
    · exact hfits v scale' hv
    · rw [List.mem_singleton, eq_comm, Option.map_eq_some_iff] at hv
      obtain ⟨w, hparse, heq⟩ := hv
      cases heq
      by_contra hlarge
      exact hgap ⟨v, hparse, by omega⟩

/-- A string for a decimal column is out of the gap at the scale of the column. -/
def OutOfGap (ty : FieldType) (value : Value) : Prop :=
  ∀ s scale, value = .str s → ty = .decimal128 scale → ¬ InGap s scale

/-- The operations of the engine keep decimals in range. A pushed text that parses is in range
unless it is in the gap of the column's scale; merging, splitting and promoting move cells without
changing them, and no other variant becomes a decimal column. -/
theorem closed_decimalsFit {T : FieldType → Prop}
    (hscale : ∀ scale, T (.decimal128 scale) → scale ≤ 38) :
    Closed T (ColumnBuilder.DecimalsFit T) OutOfGap where
  ofType ty hty := by
    intro scale l heq
    cases ty with
    | decimal128 s =>
      cases heq
      exact ⟨hty, fun v hv => (List.not_mem_nil hv).elim⟩
    | _ => cases heq
  pushNull c hc := by
    cases c with
    | decimal128 scale l => exact hc.concat fun _ h => by cases h
    | _ => exact ColumnBuilder.decimalsFit_of_kind fun _ h => by cases h
  pop c hc := by
    cases c with
    | decimal128 scale l =>
      intro scale' l' heq
      cases heq
      exact ⟨(hc scale l rfl).1, fun v hv => (hc scale l rfl).2 v (List.mem_of_mem_dropLast hv)⟩
    | _ => exact ColumnBuilder.decimalsFit_of_kind fun _ h => by cases h
  pushValue c value hc hvalue := by
    cases c with
    | decimal128 scale l =>
      cases value with
      | str s =>
        have hT := (hc scale l rfl).1
        have hout := hvalue s scale rfl rfl
        rw [inGap_iff (hscale scale hT)] at hout
        -- a numeral outside the gap is stored with at most 38 digits
        have hcell : ∀ v, parseDecimal128 s scale = some v → v.natAbs < 10 ^ 38 := by
          intro v hparse
          by_contra hlarge
          exact hout ⟨v, hparse, by omega⟩
        simp only [ColumnBuilder.pushValue, ColumnBuilder.pushStr, Option.bind_some]
        exact hc.concat hcell
      | _ => exact hc.concat fun _ h => by cases h
    | _ =>
      apply ColumnBuilder.decimalsFit_of_kind
      intro scale
      rw [ColumnBuilder.kind_pushValue]
      intro h
      cases h
  upgrade c minRows maxRatio maxSize hc := by
    cases c with
    -- a string column may turn into a dictionary, which holds no decimals either
    | string l =>
      apply ColumnBuilder.decimalsFit_of_kind
      intro scale
      rw [ColumnBuilder.kind_tryUpgradeToDict]
      split
      · intro h
        cases h
      · intro h
        cases h
    | _ => exact hc
  emptied c hc := by
    cases c with
    | decimal128 scale l => exact hc
    | _ => exact ColumnBuilder.decimalsFit_of_kind fun _ h => by cases h

/-- The types the columns of a run can have: those of its plan, and those of its layout. -/
def DeclaredType (plan : ExecutionPlan) (layout : Option FrozenSchema) (ty : FieldType) : Prop :=
  (∃ name, plan.columnType name = ty) ∨ ∃ schema ∈ layout, ∃ p ∈ schema.columns, p.2 = ty

namespace TableBuilder

/-- A decimal column that a call writes to has a declared scale. -/
theorem Every.type_of_received {T : FieldType → Prop} {Q : FieldType → Value → Prop}
    {b : TableBuilder} (hclosed : Closed T (ColumnBuilder.DecimalsFit T) Q)
    (h : Every T (ColumnBuilder.DecimalsFit T) Q b) {c : Call} {scale : Nat} {value : Value}
    (hreceived : b.received c = some (.decimal128 scale, value)) : T (.decimal128 scale) := by
  -- a decimal column has a scale that satisfies `T`, since it was created with it
  have hkind : ∀ {b : TableBuilder} {slot : Nat}, EveryColumn T (ColumnBuilder.DecimalsFit T) b →
      b.kinds[slot]? = some (.decimal128 scale) → T (.decimal128 scale) := by
    intro b slot hb hkind
    rw [kinds, List.getElem?_map, Option.map_eq_some_iff] at hkind
    obtain ⟨col, hcol, hty⟩ := hkind
    have hfit := hb.columns col (List.mem_of_getElem? hcol)
    cases col with
    | decimal128 s l =>
      cases hty
      exact (hfit _ l rfl).1
    | _ => cases hty
  cases c with
  | put p =>
    obtain ⟨name, -, hreceived⟩ := Option.bind_eq_some_iff.mp hreceived
    obtain ⟨ty, hty, heq⟩ := Option.map_eq_some_iff.mp hreceived
    cases heq
    exact hkind (h.ensureColumnIdx hclosed name).1.toEveryColumn hty
  | putFieldAt slot v =>
    obtain ⟨ty, hty, heq⟩ := Option.map_eq_some_iff.mp hreceived
    cases heq
    exact hkind h.toEveryColumn hty
  | putStrAt slot v =>
    obtain ⟨ty, hty, heq⟩ := Option.map_eq_some_iff.mp hreceived
    cases heq
    exact hkind h.toEveryColumn hty
  | beginRow => cases hreceived
  | endRow => cases hreceived

end TableBuilder

open TableBuilder

/-- **Stored decimals fit the exported type, but for the gap.** A string pushed to a decimal column
leaves the range exactly when it is in the gap. A run that puts no string in the gap of the column it is for
has every decimal cell in range, in its columns and in the batch it exports. A numeral it puts to a decimal
column that is too large for the type is stored as null and does not parse, and under strict typing the
run remembers a violation when the plan declares that type and no value is put to a dropped column. -/
theorem decimals_fit (plan : ExecutionPlan) (layout : Option FrozenSchema)
    (hscale : ∀ scale, DeclaredType plan layout (.decimal128 scale) → scale ≤ 38) :
    (∀ scale, DeclaredType plan layout (.decimal128 scale) → ∀ l s,
      FitsPrecision (ColumnBuilder.decimal128 scale l).cells →
      (FitsPrecision ((ColumnBuilder.decimal128 scale l).pushStr (some s)).cells ↔
        ¬ InGap s scale)) ∧
    ∀ calls : List Call, (start plan layout).SuitsAll OutOfGap calls →
      (∀ c ∈ ((start plan layout).callAll calls).columns, FitsPrecision c.cells) ∧
      (∀ batch, ((start plan layout).callAll calls).finish = .ok batch →
        ∀ a ∈ batch.columns, FitsPrecision a.values) ∧
      ∀ before c after, calls = before ++ c :: after → ∀ scale s,
        ((start plan layout).callAll before).received c = some (.decimal128 scale, .str s) →
        TooLarge s scale →
          store (.decimal128 scale) (.str s) = none ∧ parsesAs s (.decimal128 scale) = false ∧
          (plan.strictTypes = true → KeptNames plan calls →
            ∀ name, ((start plan layout).callAll before).columnOf c = some name →
            plan.fieldTypes.lookup name = some (.decimal128 scale) →
            ((start plan layout).callAll calls).unknownError = none →
            ((start plan layout).callAll calls).strictError.isSome = true) := by
  refine ⟨fun scale hty l s hfits => ?_, fun calls hcalls => ?_⟩
  · rw [inGap_iff (hscale scale hty)]
    exact fitsPrecision_pushStr hfits
  · have hclosed := closed_decimalsFit hscale
    have hstart : Every (DeclaredType plan layout)
        (ColumnBuilder.DecimalsFit (DeclaredType plan layout)) OutOfGap (start plan layout) :=
      every_start hclosed (fun name => .inl ⟨name, rfl⟩)
        fun schema hschema p hp => .inr ⟨schema, hschema, p, hp, rfl⟩
    have hrun := hstart.callAll hclosed hcalls
    refine ⟨fun c hc => (hrun.columns c hc).cells, fun batch hok a ha => ?_, ?_⟩
    · obtain ⟨c, hc, hvalues⟩ := hrun.toEveryColumn.finish hclosed hok a ha
      rw [hvalues]
      exact hc.cells
    · rintro before c after rfl scale s hreceived hlarge
      have hbefore := hstart.callAll hclosed hcalls.before
      have hgap : ¬ InGap s scale := hcalls.suits _ _ hreceived s scale rfl rfl
      have hnone := hlarge.parseDecimal128 hgap (hscale scale (hbefore.type_of_received hclosed hreceived))
      have hparses : parsesAs s (.decimal128 scale) = false := by
        rw [parsesAs, hnone, Option.isSome_none]
      refine ⟨by rw [store, hnone, Option.map_none], hparses, ?_⟩
      intro hstrict hkept name hname hty hunknown
      by_contra hsome
      -- a run without a violation has checked the string
      have hok : ((start plan layout).callAll (before ++ c :: after)).NoError :=
        ⟨hunknown, Option.not_isSome_iff_eq_none.mp hsome⟩
      have hchecked := checked_of_callAll hstrict hkept hok hname hreceived s _ rfl hty
      rw [hparses] at hchecked
      cases hchecked

end Cells

section Examples

attribute [local instance] integerPlatform

open TableBuilder

/-- A column of decimals at the given scale. -/
def amountPlan (scale : Nat) : ExecutionPlan :=
  { fieldTypes := (∅ : StrMap FieldType).insert "n" (.decimal128 scale) }

/-- The plan declares no other scale than its own, so the condition on its scale covers every
decimal column. -/
theorem declaredType_amountPlan {scale scale' : Nat}
    (h : DeclaredType (amountPlan scale) none (.decimal128 scale')) : scale' = scale := by
  rcases h with ⟨name, hname⟩ | ⟨_, hmem, _⟩
  · unfold ExecutionPlan.columnType at hname
    rw [amountPlan] at hname
    by_cases hn : name = "n"
    · rw [hn, AList.lookup_insert] at hname
      cases hname
      rfl
    · rw [AList.lookup_insert_ne hn, AList.lookup_empty] at hname
      simp at hname
  · cases hmem

/-- One row with one string. -/
def amountRow (s : String) : List Call :=
  [.beginRow, .put (.field "n" (.str s)), .endRow]

/-- A column of whole amounts next to one with 38 decimal places. -/
def twoScalesPlan : ExecutionPlan :=
  { fieldTypes := ((∅ : StrMap FieldType).insert "n" (.decimal128 0)).insert "m" (.decimal128 38),
    strictTypes := true }

/-- The plan declares these two scales and no other, which is what the run's condition is checked
for. -/
theorem declaredType_twoScalesPlan {scale : Nat}
    (h : DeclaredType twoScalesPlan none (.decimal128 scale)) : scale = 38 ∨ scale = 0 := by
  rcases h with ⟨name, hname⟩ | ⟨_, hmem, _⟩
  · unfold ExecutionPlan.columnType at hname
    rw [twoScalesPlan] at hname
    by_cases hm : name = "m"
    · rw [hm, AList.lookup_insert] at hname
      cases hname
      exact .inl rfl
    · rw [AList.lookup_insert_ne hm] at hname
      by_cases hn : name = "n"
      · rw [hn, AList.lookup_insert] at hname
        cases hname
        exact .inr rfl
      · rw [AList.lookup_insert_ne hn, AList.lookup_empty] at hname
        simp at hname
  · cases hmem

/-- One row suits the columns if its string is not in the gap of whole numbers. -/
theorem suits_amountRow {s : String} (hs : ¬ InGap s 0) :
    (start twoScalesPlan none).SuitsAll OutOfGap (amountRow s) := by
  have hnone : ∀ {ty : FieldType} {value : Value}, none = some (ty, value) → OutOfGap ty value :=
    fun h => by cases h
  refine ⟨fun _ _ h => hnone h, fun ty value h => ?_, fun _ _ h => hnone h, trivial⟩
  have hreceived : ((start twoScalesPlan none).call .beginRow).received (.put (.field "n" (.str s))) =
      some (.decimal128 0, .str s) := rfl
  rw [hreceived] at h
  cases h
  intro s' scale hvalue hty
  cases hvalue
  cases hty
  exact hs

/-- The text of 10^39. -/
def fortyDigits : String := "1000000000000000000000000000000000000000"

/-- 10^39 is too large for 38 digits, and for 128 bits: so it does not parse, and is not in the gap
of values that do. -/
theorem tooLarge_fortyDigits : TooLarge fortyDigits 0 ∧ ¬ InGap fortyDigits 0 := by
  have hnumeral : Numeral (trim fortyDigits).toList false fortyDigits.toList [] :=
    (numeral_iff _ _ _ _).mpr (by decide)
  refine ⟨⟨false, fortyDigits.toList, [], hnumeral, ?_⟩, ?_⟩
  · rw [floor_numeralValue _ hnumeral.fracDigits]
    decide
  · have hnone : parseDecimal128 fortyDigits 0 = none := by decide
    rw [inGap_iff (Nat.zero_le 38), hnone]
    rintro ⟨v, hparse, -⟩
    cases hparse

/-- `1` is in range in the first column, though it is in the gap of the second; 10^39 is a violation. -/
theorem decimals_fit_one :
    InGap "1" 38 ∧
      (∀ c ∈ ((start twoScalesPlan none).callAll (amountRow "1")).columns, FitsPrecision c.cells) ∧
      ((start twoScalesPlan none).callAll (amountRow fortyDigits)).strictError.isSome = true := by
  have hscale : ∀ scale, DeclaredType twoScalesPlan none (.decimal128 scale) → scale ≤ 38 := by
    intro scale hdeclared
    rcases declaredType_twoScalesPlan hdeclared with rfl | rfl
    · exact le_rfl
    · exact Nat.zero_le 38
  have hone : parseDecimal128 "1" 38 = some (10 ^ 38) := by decide
  have hgap : ¬ InGap "1" 0 := by
    have hvalue : parseDecimal128 "1" 0 = some 1 := by decide
    rw [inGap_iff (Nat.zero_le 38), hvalue]
    rintro ⟨v, hparse, hlarge⟩
    obtain rfl := Option.some.inj hparse
    revert hlarge
    norm_num
  refine ⟨(inGap_iff le_rfl).mpr ⟨_, hone, by norm_num⟩,
    ((decimals_fit twoScalesPlan none hscale).2 _ (suits_amountRow hgap)).1, ?_⟩
  have hput := ((decimals_fit twoScalesPlan none hscale).2 _
    (suits_amountRow tooLarge_fortyDigits.2)).2.2 [.beginRow] (.put (.field "n" (.str fortyDigits)))
      [.endRow] rfl 0 fortyDigits rfl tooLarge_fortyDigits.1
  refine hput.2.2 rfl (fun p hp name _ => List.not_mem_nil) "n" rfl ?_ rfl
  rw [twoScalesPlan, AList.lookup_insert_ne (by decide), AList.lookup_insert]

/-- 10^38 takes 39 digits; it is stored and exported all the same. -/
theorem decimals_fit_fails :
    ¬ ∀ (plan : ExecutionPlan) (layout : Option FrozenSchema),
      (∀ scale, DeclaredType plan layout (.decimal128 scale) → scale ≤ 38) →
      ∀ (calls : List Call) (batch : RecordBatch),
        ((start plan layout).callAll calls).finish = .ok batch →
          ∀ a ∈ batch.columns, FitsPrecision a.values := by
  intro h
  have hok : ((start (amountPlan 0) none).callAll
      (amountRow "100000000000000000000000000000000000000")).finish =
        .ok ⟨[("n", .decimal128 38 0)],
          [⟨.decimal128 38 0, [some (.decimal128 (10 ^ 38) 0)]⟩], 1⟩ := rfl
  have hscale : ∀ scale, DeclaredType (amountPlan 0) none (.decimal128 scale) → scale ≤ 38 := by
    intro scale hdeclared
    rw [declaredType_amountPlan hdeclared]
    exact Nat.zero_le 38
  have hcell := h (amountPlan 0) none hscale _ _ hok _ (List.mem_singleton_self _) (10 ^ 38) 0
    (List.mem_singleton_self _)
  revert hcell
  norm_num

end Examples

end Rypipe
