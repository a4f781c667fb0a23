import Rypipe.Columnar.DecimalText
import Rypipe.Engine.Predicates

/-! # Decimals in a buffered filter

A `Compare` of two decimal columns formats the buffered values and parses the text again. The way
through the text keeps every value the columns store, so the verdict is the comparison of the stored
decimals (`evalCompare_decimals`). -/

namespace Rypipe

section Filter

variable [Platform]

/-- The text of a buffered decimal parses back to what the column would store. -/
theorem bufferedText_decimal (scale : Nat) (buffered : Option Value) :
    (buffered.bind (bufferedText (.decimal128 scale)) = none ∧
      buffered.bind (store (.decimal128 scale)) = none) ∨
    ∃ text v, buffered.bind (bufferedText (.decimal128 scale)) = some text ∧
      parseDecimal128 text scale = some v ∧
      buffered.bind (store (.decimal128 scale)) = some (.decimal128 v scale) := by
  rcases buffered with _ | value
  · exact .inl ⟨rfl, rfl⟩
  · cases value with
    | str s =>
      simp only [Option.bind_some, bufferedText, store]
      rcases hparse : parseDecimal128 s scale with _ | v
      · exact .inl ⟨rfl, rfl⟩
      · have hscale : scale ≤ 38 := by
          by_contra hlt
          rw [parseDecimal128_of_lt (Nat.lt_of_not_le hlt)] at hparse
          cases hparse
        obtain ⟨hlow, hhigh⟩ := parseDecimal128_range hscale hparse
        exact .inr ⟨_, v, rfl, parseDecimal128_formatDecimal128 hscale hlow hhigh, rfl⟩
    | _ => exact .inl ⟨rfl, rfl⟩

/-- The verdict on two decimal columns is that on the decimals they store. -/
theorem evalCompare_decimals {plan : ExecutionPlan} {get : String → Option Value} {a b : String}
    {na nb : String} {sa sb : Nat} (ha : plan.resolveField a = some na)
    (hb : plan.resolveField b = some nb) (hta : plan.columnType na = .decimal128 sa)
    (htb : plan.columnType nb = .decimal128 sb) (op : CompareOp) :
    evalCompare plan get a op b =
      match (get a).bind (store (.decimal128 sa)), (get b).bind (store (.decimal128 sb)) with
      | some x, some y => .ofBool (compareTyped x op y)
      | _, _ => .undecided := by
  have htypeA : filterType plan a = .decimal128 sa := by
    rw [filterType, filterName, ha, Option.getD_some, hta]
  have htypeB : filterType plan b = .decimal128 sb := by
    rw [filterType, filterName, hb, Option.getD_some, htb]
  have htextA : getBufferedStr plan get a = (get a).bind (bufferedText (.decimal128 sa)) := by
    rw [getBufferedStr, ha, Option.bind_eq_bind, Option.bind_some, hta]
    rfl
  have htextB : getBufferedStr plan get b = (get b).bind (bufferedText (.decimal128 sb)) := by
    rw [getBufferedStr, hb, Option.bind_eq_bind, Option.bind_some, htb]
    rfl
  unfold evalCompare
  simp only [htypeA, htypeB, htextA, htextB, compatibleTypes, Bool.not_true, Bool.false_eq_true,
    if_false]
  rcases bufferedText_decimal sa (get a) with ⟨htext, hstore⟩ | ⟨x, v, htext, hparse, hstore⟩
  · rw [htext, hstore]
  · rw [htext, hstore]
    rcases bufferedText_decimal sb (get b) with
      ⟨htext', hstore'⟩ | ⟨y, w, htext', hparse', hstore'⟩
    · rw [htext', hstore']
    · rw [htext', hstore']
      simp only [hparse, hparse', compareTyped]
      rfl

/-- **Decimals survive formatting.** Every value but the most negative one parses back from its
text, at every scale; so a buffered `Compare` of two decimal columns compares the stored values. -/
theorem decimals_survive_formatting :
    (∀ (v : Int) (scale : Nat), scale ≤ 38 → -2 ^ 127 < v → v < 2 ^ 127 →
      parseDecimal128 (formatDecimal128 v scale) scale = some v) ∧
    ∀ (plan : ExecutionPlan) (get : String → Option Value) (a b na nb : String) (sa sb : Nat)
      (op : CompareOp), plan.resolveField a = some na → plan.resolveField b = some nb →
      plan.columnType na = .decimal128 sa → plan.columnType nb = .decimal128 sb →
      sa ≤ 38 → sb ≤ 38 →
      evalCompare plan get a op b =
        match (get a).bind (store (.decimal128 sa)), (get b).bind (store (.decimal128 sb)) with
        | some x, some y => .ofBool (compareTyped x op y)
        | _, _ => .undecided :=
  ⟨fun _ _ hscale hlow hhigh => parseDecimal128_formatDecimal128 hscale hlow hhigh,
    fun _ _ _ _ _ _ _ _ op ha hb hta htb _ _ => evalCompare_decimals ha hb hta htb op⟩

end Filter

section Examples

attribute [local instance] integerPlatform

/-- Two decimal columns of different scales. -/
def pricePlan : ExecutionPlan :=
  { fieldTypes := ((∅ : StrMap FieldType).insert "cost" (.decimal128 2)).insert "price"
      (.decimal128 3) }

/-- A value between -1 and 0 whose fraction starts with a zero, and a row where it is compared. -/
theorem decimals_survive_formatting_small :
    parseDecimal128 (formatDecimal128 (-5) 2) 2 = some (-5) ∧
      evalCompare pricePlan
        (fun field => if field = "cost" then some (.str "-.05") else some (.str "0.050"))
        "cost" .lt "price" = .pass := by
  refine ⟨decimals_survive_formatting.1 (-5) 2 (by decide) (by decide) (by decide), ?_⟩
  rw [decimals_survive_formatting.2 pricePlan _ "cost" "price" "cost" "price" 2 3 .lt (by decide)
    (by decide) (by decide) (by decide) (by decide) (by decide)]
  decide

end Examples

end Rypipe
