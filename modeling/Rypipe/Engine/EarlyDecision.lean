import Rypipe.Engine.Leaves
import Rypipe.Engine.Quiet
import Rypipe.Engine.Runs

/-! # Early decisions

When a decision taken on a row that is still being read stands. The evaluator is monotone but for
the leaves that give a missing value a verdict of its own (`In`, `NotIn`, `NotField`, `IsNull` and
`IsType`): `Steady` asks that such a leaf gives the value that arrives the verdict it gave the
missing one. -/

namespace Rypipe

section Decisions

variable [Platform]

section Evaluate

variable {plan : ExecutionPlan} {get get' : String → Option Value}

/-- Every leaf that gives a missing value a verdict gives it to the value that arrives as well. -/
def Steady (plan : ExecutionPlan) (get get' : String → Option Value) : FilterPredicate → Prop
  | .and a b | .or a b => Steady plan get get' a ∧ Steady plan get get' b
  | .not a => Steady plan get get' a
  | .isType field ft => get field = none → evalIsType plan get' field ft = .fail
  | leaf => ∀ l, textLeaf leaf = some l → l.early.Decided →
      getBufferedStr plan get l.field = none → ∀ s, getBufferedStr plan get' l.field = some s →
        Verdict.ofBool (l.test s) = l.early

/-- A decision on the values read so far is the decision on more values, and on the whole row. -/
def DecisionStands (plan : ExecutionPlan) (get get' : String → Option Value)
    (f : FilterPredicate) : Prop :=
  (evalPredicate plan get f).Decided →
    evalPredicate plan get' f = evalPredicate plan get f ∧
      evalPredicateWithNull plan get' f = evalPredicate plan get f

/-- A `Compare` is a function of its two values. -/
theorem evalCompare_congr {a b : String} (op : CompareOp) (ha : get' a = get a)
    (hb : get' b = get b) : evalCompare plan get' a op b = evalCompare plan get a op b := by
  rw [evalCompare, evalCompare, getBufferedStr_congr ha, getBufferedStr_congr hb, ha, hb]

/-- A `Compare` with a missing value only decides on columns it does not compare. -/
theorem evalCompare_of_none {a b : String} (op : CompareOp) (h : get a = none ∨ get b = none) :
    evalCompare plan get a op b =
      if compatibleTypes (filterType plan a) (filterType plan b) then .undecided else .fail := by
  rw [evalCompare]
  cases compatibleTypes (filterType plan a) (filterType plan b) with
  | false => rfl
  | true =>
      simp only [Bool.not_true, Bool.false_eq_true, ↓reduceIte]
      rcases h with h | h
      · split
        · rw [getBufferedStr_of_none h]
        · rw [h, Option.bind_none]
      · split
        · rw [getBufferedStr_of_none h]
          cases getBufferedStr plan get a <;> rfl
        · rw [h, Option.bind_none]
          cases (get a).bind _ <;> rfl

/-- A `Compare` is monotone: it waits for both of its fields, and what it then decides does not
depend on others. -/
theorem evalCompare_refines (h : Extends get get') (a : String) (op : CompareOp) (b : String) :
    (evalCompare plan get a op b).Refines (evalCompare plan get' a op b) := by
  rcases h.eq_or_none a with ha | ha
  · rcases h.eq_or_none b with hb | hb
    · rw [evalCompare_congr op ha hb]
      exact Verdict.Refines.refl _
    · rw [evalCompare_of_none op (Or.inr hb)]
      split
      · exact Verdict.undecided_refines _
      · next hne =>
        rw [evalCompare, if_pos (by simpa using hne)]
        exact Verdict.Refines.refl _
  · rw [evalCompare_of_none op (Or.inl ha)]
    split
    · exact Verdict.undecided_refines _
    · next hne =>
      rw [evalCompare, if_pos (by simpa using hne)]
      exact Verdict.Refines.refl _

/-- A `CompareLiteral` is monotone. -/
theorem evalCompareLiteral_refines (h : Extends get get') (field : String) (op : CompareOp)
    (value : String) :
    (evalCompareLiteral plan get field op value).Refines
      (evalCompareLiteral plan get' field op value) := by
  rcases h.eq_or_none field with hf | hf
  · rw [evalCompareLiteral, evalCompareLiteral, hf]
    exact Verdict.Refines.refl _
  · rw [evalCompareLiteral, hf]
    exact Verdict.undecided_refines _

/-- A text leaf is monotone where it is steady. What it decides on a missing field is what it would
say of the text that comes, and on a text that is there nothing changes. -/
theorem evalPredicate_textLeaf_refines (h : Extends get get') {f : FilterPredicate} {l : TextLeaf}
    (hl : textLeaf f = some l)
    (hsteady : l.early.Decided → getBufferedStr plan get l.field = none → ∀ s,
      getBufferedStr plan get' l.field = some s → Verdict.ofBool (l.test s) = l.early) :
    (evalPredicate plan get f).Refines (evalPredicate plan get' f) := by
  rw [evalPredicate_textLeaf hl, evalPredicate_textLeaf hl]
  rcases h.eq_or_none l.field with hf | hf
  · rw [getBufferedStr_congr hf]
    exact Verdict.Refines.refl _
  · have hnone : getBufferedStr plan get l.field = none := getBufferedStr_of_none hf
    rw [hnone]
    intro hdecided
    cases hs : getBufferedStr plan get' l.field with
    | none => rfl
    | some s => exact hsteady hdecided hnone s hs

/-- What is decided while the row is being read is decided the same at its end. -/
theorem evalPredicate_refines_withNull (f : FilterPredicate) :
    (evalPredicate plan get f).Refines (evalPredicateWithNull plan get f) := by
  induction f with
  | and a b iha ihb => exact iha.and ihb
  | or a b iha ihb => exact (iha.or ihb).trans (refines_nullFails _)
  | not a ih => exact ih.not.trans (refines_nullFails _)
  | equal field value =>
      rw [evalPredicate, evalPredicateWithNull]
      cases getBufferedStr plan get field with
      | none => exact Verdict.undecided_refines _
      | some s => exact Verdict.Refines.refl _
  | notEqual field value =>
      rw [evalPredicate, evalPredicateWithNull]
      cases getBufferedStr plan get field with
      | none => exact Verdict.undecided_refines _
      | some s => exact Verdict.Refines.refl _
  | always keep => exact Verdict.Refines.refl _
  | _ => exact refines_nullFails _

/-- The evaluator is monotone where the filter is steady. By induction on the filter; the
three-valued connectives are monotone in both arguments. -/
theorem evalPredicate_refines (h : Extends get get') {f : FilterPredicate}
    (hsteady : Steady plan get get' f) :
    (evalPredicate plan get f).Refines (evalPredicate plan get' f) := by
  induction f with
  | and a b iha ihb => exact (iha hsteady.1).and (ihb hsteady.2)
  | or a b iha ihb => exact (iha hsteady.1).or (ihb hsteady.2)
  | not a ih => exact (ih hsteady).not
  | compare a op b => exact evalCompare_refines h a op b
  | compareLiteral field op value => exact evalCompareLiteral_refines h field op value
  | always keep => exact Verdict.Refines.refl _
  | isType field ft =>
      rcases h.eq_or_none field with hf | hf
      · rw [evalPredicate, evalPredicate, evalIsType, evalIsType, hf]
        exact Verdict.Refines.refl _
      · intro _
        rw [evalPredicate, evalPredicate, hsteady hf, evalIsType, hf]
        simp [Verdict.ofBool]
  | arithmeticCompare field arithOp arithValue cmpOp cmpValue =>
      rcases h.eq_or_none field with hf | hf
      · rw [evalPredicate, evalPredicate, getBufferedStr_congr hf]
        exact Verdict.Refines.refl _
      · rw [evalPredicate, getBufferedStr_of_none hf]
        exact Verdict.undecided_refines _
  | _ => exact evalPredicate_textLeaf_refines h rfl (hsteady _ rfl)

/-- A decision stands where the filter is steady. -/
theorem Steady.decisionStands (h : Extends get get') {f : FilterPredicate}
    (hsteady : Steady plan get get' f) : DecisionStands plan get get' f := by
  intro hdecided
  have hfull := evalPredicate_refines h hsteady hdecided
  refine ⟨hfull, ?_⟩
  rw [evalPredicate_refines_withNull f (hfull.symm ▸ hdecided), hfull]

/-- On a leaf the condition is exact: a leaf whose decision on the part stands is steady there. -/
theorem DecisionStands.steady {f : FilterPredicate} (hleaf : f.IsLeaf)
    (h : DecisionStands plan get get' f) : Steady plan get get' f := by
  have htext : ∀ l, textLeaf f = some l → l.early.Decided →
      getBufferedStr plan get l.field = none → ∀ s, getBufferedStr plan get' l.field = some s →
        Verdict.ofBool (l.test s) = l.early := by
    intro l hl hdecided hnone s hs
    rw [DecisionStands, evalPredicate_textLeaf hl, evalPredicate_textLeaf hl, hnone, hs] at h
    exact (h hdecided).1
  cases f with
  | and a b => exact hleaf.elim
  | or a b => exact hleaf.elim
  | not a => exact hleaf.elim
  | isType field ft =>
      intro hnone
      have hfail : evalIsType plan get field ft = .fail := by
        rw [evalIsType, hnone]
        simp [Verdict.ofBool]
      rw [DecisionStands, evalPredicate, evalPredicate, hfail] at h
      exact (h (by simp [Verdict.Decided])).1
  | _ => exact htext

end Evaluate

namespace TableBuilder

/-- Where a put evaluates the filter, the filter is steady from the values it reads there to those
of the row `full`. -/
def SteadyPut (b : TableBuilder) (full : CurrentRow) (f : FilterPredicate) (p : Put) : Prop :=
  b.buffering = true →
    (b.rowBuf.any (·.direct) = true → ∀ name value, p ≠ .resolveAndPut name value) →
    ∀ resolved, p.target b.plan = some resolved → b.evaluatesAt resolved p.value = true →
      Steady b.plan (b.stageField resolved p.value).1.getBufferedValue (rowGet b.plan full) f

/-- The filter is steady at every put of a row. -/
def SteadyRow (b : TableBuilder) (full : CurrentRow) (f : FilterPredicate) : List Put → Prop
  | [] => True
  | p :: puts => b.SteadyPut full f p ∧ (b.put p).SteadyRow full f puts

/-- A row that is being read towards the row `full`, whose verdict is `verdict`: what has been
decided so far is that verdict. -/
inductive Judging (b : TableBuilder) (t : Table) (cur full : CurrentRow) (verdict : Verdict) :
    Prop where
  | columns (h : b.Direct t cur) (hstate : b.rowRejected = false)
  | buffered (buf : RowBuffer) (h : b.Buffered t cur buf) (hstate : buf.state.Refines verdict)
  | drained (buf : RowBuffer) (held : CurrentRow) (h : b.Drained t cur buf)
      (hstaged : b.Staged t cur held buf) (hheld : Extends held full)
      (hstate : buf.state.Refines verdict) (hpass : verdict = .pass)

section Steps

variable {b : TableBuilder} {t : Table} {cur held full : CurrentRow} {buf : RowBuffer}

/-- Rows that extend one another do so for the fields of the filter. -/
theorem rowGet_extends (plan : ExecutionPlan) (h : Extends cur full) :
    Extends (rowGet plan cur) (rowGet plan full) := by
  intro field value hv
  rw [rowGet] at hv ⊢
  cases hres : plan.resolveField field with
  | none =>
      rw [hres] at hv
      cases hv
  | some resolved =>
      rw [hres] at hv
      exact h resolved value hv

/-- One more value of the row keeps it a part of the row. -/
theorem update_extends (h : Extends cur full) {name : String} {value : Value}
    (hfull : full name = some value) : Extends (Function.update cur name (some value)) full := by
  intro n v hv
  by_cases hn : n = name
  · subst hn
    rw [Function.update_self] at hv
    exact hfull.trans hv
  · rw [Function.update_of_ne hn] at hv
    exact h n v hv

/-- A change of the row buffer that keeps the fields and the mode leaves the row as it was
staged. -/
theorem Staged.mapRowBuf (h : b.Staged t cur held buf) {g : RowBuffer → RowBuffer}
    (hfields : (g buf).fields = buf.fields) (hdirect : (g buf).direct = buf.direct) :
    (b.mapRowBuf g).Staged t cur held (g buf) := by
  have hbuf : (b.mapRowBuf g).rowBuf = some (g buf) := by
    rw [TableBuilder.mapRowBuf, h.rowBuf, Option.map_some]
  refine ⟨hbuf, ⟨h.sound.holds, h.sound.order, h.sound.known, ?_⟩, ?_, ?_, ?_, ?_⟩
  · show (b.rowBuf.map g).isSome = b.plan.filter.isSome
    rw [Option.isSome_map, h.sound.rowBuf]
  · have hback := h.back
    rw [TableBuilder.backfill, h.rowBuf] at hback
    rw [TableBuilder.backfill, hbuf, ← hback]
    show (if (g buf).direct = true then _ else _) = _
    rw [hdirect]
    rfl
  · rw [hfields]
    exact h.distinct
  · intro name
    rw [hfields]
    exact h.fields name
  · intro p hp
    exact h.inRange p (hfields ▸ hp)

/-- A value that is buffered after the drain joins the values the buffer holds. -/
theorem Drained.bufferField_held (h : b.Drained t cur buf) (hs : b.Staged t cur held buf)
    {resolved : String} (value : Value) (hname : b.exactWithout resolved = none)
    {f : FilterPredicate} (hf : b.plan.filter = some f) :
    ∃ buf', (b.bufferField resolved value).Drained
        (t.declare resolved (b.plan.columnType resolved)) cur buf' ∧
      (b.bufferField resolved value).Staged (t.declare resolved (b.plan.columnType resolved)) cur
        (Function.update held resolved (some value)) buf' ∧
      b.Frame (b.bufferField resolved value) ∧
      (buf'.state = buf.state ∨ (b.evaluatesAt resolved value = true ∧ buf'.state =
        evalPredicate b.plan (rowGet b.plan (Function.update held resolved (some value))) f)) := by
  obtain ⟨b₁, slot, buf₁, hstage, h₁, hdirect, hworth, hstate, hframe, -⟩ :=
    hs.stageField value hname
  have hd₁ : b₁.Drained (t.declare resolved (b.plan.columnType resolved)) cur buf₁ :=
    ⟨h₁.rowBuf, hworth.trans h.worthwhile, hdirect.trans h.direct, h₁.sound,
      by rw [hframe.rowCount, h.rowCount, RowTable.rows_declare]⟩
  have hf₁ : b₁.plan.filter = some f := by rw [hframe.plan]; exact hf
  simp only [evaluatesAt, TableBuilder.bufferField, hstage]
  split
  · next heval =>
    obtain ⟨g, heq, hg⟩ := b₁.evaluateRow_eq slot
    obtain ⟨hgf, hgd, hgw, hgs⟩ := hg buf₁
    rw [heq]
    refine ⟨g buf₁, hd₁.mapRowBuf hgd hgw, h₁.mapRowBuf hgf hgd,
      ⟨hframe.rowCount, hframe.plan, hframe.frozen⟩, Or.inr ⟨heval, ?_⟩⟩
    rw [hgs, h₁.evaluatePredicateState hf₁, hframe.plan]
  · exact ⟨buf₁, hd₁, h₁, hframe, Or.inl hstate⟩

/-- A value that goes to the columns after the drain leaves the buffer alone. The row in the columns
gets the value, and the fields that the buffer would hold have been cleared, so the verdict that
stands is the one at the drain. -/
theorem Staged.pushFieldResolved (hs : b.Staged t cur held buf) (hcount : b.rowCount = t.rows.length + 1)
    {resolved : String} (value : Value) (hname : b.exactWithout resolved = none)
    (hcur : cur resolved = none) :
    (b.pushFieldResolved resolved value).Staged (t.declare resolved (b.plan.columnType resolved))
        (Function.update cur resolved (some value)) held buf ∧
      b.Frame (b.pushFieldResolved resolved value) := by
  obtain ⟨hs', hframe, hbuf⟩ := hs.sound.pushFieldResolved hs.back value (Or.inr ⟨hcount, hcur⟩)
  rw [declareFor_of_none hname, assignFor_of_none hname] at hs'
  have hrowBuf := hbuf.trans hs.rowBuf
  refine ⟨⟨hrowBuf, hs', ?_, hs.distinct, ?_, ?_⟩, hframe⟩
  · have hback := hs.back
    rw [TableBuilder.backfill, hs.rowBuf] at hback
    rw [TableBuilder.backfill, hrowBuf, hframe.rowCount, RowTable.rows_declare]
    exact hback
  · intro name
    rw [← hs.fields name]
    cases hlook : b.fieldIndex.lookup name with
    | some i =>
        have hi := RowTable.getElem?_names_declare_of_some ((hs.sound.holds.indexed name i).mp hlook)
          resolved (b.plan.columnType resolved)
        rw [(hs'.holds.indexed name i).mpr hi]
    | none =>
        -- the slot of a new column is beyond those the buffer has
        cases hlook' : (b.pushFieldResolved resolved value).fieldIndex.lookup name with
        | none => rfl
        | some i =>
            rw [Option.bind_none, Option.bind_some]
            refine Assoc.get_eq_none.mpr fun hmem => ?_
            obtain ⟨p, hp, rfl⟩ := List.mem_map.mp hmem
            have hlt : p.1 < t.cols.length := by
              rw [← hs.sound.holds.size]
              exact hs.inRange p hp
            obtain ⟨q, hq⟩ : ∃ q, t.cols[p.1]? = some q := ⟨_, List.getElem?_eq_getElem hlt⟩
            have hq' : t.names[p.1]? = some q.1 := by
              rw [RowTable.names, List.getElem?_map, hq, Option.map_some]
            have hdecl := RowTable.getElem?_names_declare_of_some hq' resolved
              (b.plan.columnType resolved)
            rw [(hs'.holds.indexed name p.1).mp hlook', Option.some.injEq] at hdecl
            have hnot := (hs.sound.holds.lookup_eq_none name).mp hlook
            exact hnot (hdecl ▸ List.mem_of_getElem? hq')
  · intro p hp
    have hle := (RowTable.cols_prefix_declare t resolved (b.plan.columnType resolved)).length_le
    rw [← hs'.holds.size, ← hs.sound.holds.size] at hle
    exact lt_of_lt_of_le (hs.inRange p hp) hle

/-- A put in progress: its value, if it has a column, is new in the row and the one of the row
`full`. -/
structure FreshPut (b : TableBuilder) (cur full : CurrentRow) (p : Put) : Prop where
  admitted : ∀ resolved, p.target b.plan = some resolved → b.exactWithout resolved = none
  fresh : ∀ resolved, p.target b.plan = some resolved → cur resolved = none
  value : ∀ resolved, p.target b.plan = some resolved → full resolved = some p.value

/-- An admitted put on a drained row goes to the columns or to the buffer. -/
theorem Drained.put_eq (h : b.Drained t cur buf) {p : Put} {resolved : String}
    (htarget : p.target b.plan = some resolved) (hname : b.exactWithout resolved = none) :
    (b.put p = b.pushFieldResolved resolved p.value ∧ ∃ name value, p = .resolveAndPut name value) ∨
      (b.put p = b.bufferField resolved p.value ∧
        ∀ name value, p ≠ .resolveAndPut name value) := by
  cases p with
  | field name value =>
      have hres : b.plan.resolveField name = some resolved := htarget
      refine Or.inr ⟨?_, fun _ _ hp => by cases hp⟩
      rw [TableBuilder.put, putField, h.buffering]
      simp only [Bool.not_true, Bool.false_eq_true, ↓reduceIte, hres, h.sound.unknownTo_eq, hname,
        ite_self]
      rfl
  | fieldResolved name value =>
      obtain rfl : name = resolved := Option.some.inj htarget
      refine Or.inr ⟨?_, fun _ _ hp => by cases hp⟩
      rw [TableBuilder.put, putFieldResolved, h.buffering]
      simp only [Bool.not_true, Bool.false_eq_true, ↓reduceIte, h.sound.unknownTo_eq, hname]
      rfl
  | resolveAndPut name value =>
      have hres : b.plan.resolveField name = some resolved := htarget
      have hdirect : b.rowBuf.any (·.direct) = true := by
        rw [h.rowBuf]
        exact h.direct
      refine Or.inl ⟨?_, name, value, rfl⟩
      rw [TableBuilder.put, resolveAndPut, h.buffering]
      simp only [Bool.not_true, Bool.false_eq_true, ↓reduceIte, hres, h.sound.unknownTo_eq, hname,
        hdirect]
      rfl

/-- A row goes on being read towards the row `full` after a put for the target: its columns and values are
kept, and the target is the only new value. -/
def StillJudging (b b' : TableBuilder) (t : Table) (cur full : CurrentRow) (verdict : Verdict)
    (target : Option String) : Prop :=
  ∃ t' cur', b'.Judging t' cur' full verdict ∧ Extends cur' full ∧ b.SamePlan b' ∧
    (∀ name ∈ t.names, name ∈ t'.names) ∧
    ∀ name, (cur' name).isSome → (cur name).isSome ∨ target = some name

/-- A put assigns the row in progress, in a table that has its column. -/
theorem stillJudging_update {b' : TableBuilder} {verdict : Verdict} {resolved : String} {value : Value}
    (h : b'.Judging (t.declare resolved (b.plan.columnType resolved))
      (Function.update cur resolved (some value)) full verdict)
    (hcur : Extends cur full) (hvalue : full resolved = some value) (hsame : b.SamePlan b') :
    b.StillJudging b' t cur full verdict (some resolved) := by
  refine ⟨_, _, h, update_extends hcur hvalue, hsame,
    fun name hn => (t.mem_names_declare resolved name _).mpr (.inl hn), fun name hn => ?_⟩
  by_cases hne : name = resolved
  · exact .inr (congrArg some hne.symm)
  · rw [Function.update_of_ne hne] at hn
    exact .inl hn

/-- What an admitted put declares and assigns. -/
theorem declarePut_of_fresh {p : Put} {resolved : String} (htarget : p.target b.plan = some resolved)
    (hname : b.exactWithout resolved = none) (t : Table) (cur : CurrentRow) :
    b.declarePut t p = t.declare resolved (b.plan.columnType resolved) ∧
      b.assignPut cur p = Function.update cur resolved (some p.value) := by
  rw [declarePut, assignPut, htarget]
  exact ⟨declareFor_of_none hname, assignFor_of_none hname p.value⟩

/-- A put on a direct row leaves the row buffer, and with it what has been decided, alone. -/
theorem Direct.stillJudging (h : b.Direct t cur) {verdict : Verdict} (hstate : b.rowRejected = false)
    (hcur : Extends cur full) {p : Put} {resolved : String} (htarget : p.target b.plan = some resolved)
    (hname : b.exactWithout resolved = none) (hvalue : full resolved = some p.value) :
    b.StillJudging (b.put p) t cur full verdict (some resolved) := by
  obtain ⟨h', hframe⟩ := h.put p
  obtain ⟨hdeclare, hassign⟩ := declarePut_of_fresh htarget hname t cur
  rw [hdeclare, hassign] at h'
  refine stillJudging_update (.columns h' ?_) hcur hvalue hframe.samePlan
  have hbuf : (b.put p).rowBuf = b.rowBuf := by
    have hback : b.backfill = t.rows.length := by
      rw [TableBuilder.backfill, h.direct]
      exact h.rowCount
    rw [put_of_not_buffering h.buffering, htarget]
    exact (h.sound.pushFieldResolved hback p.value (Or.inl h.rowCount)).2.2
  rw [rowRejected, hbuf, hframe.plan]
  exact hstate

/-- A put on a buffered row evaluates the filter on the row so far, where it is steady: what it decides
stands, and is the verdict of the whole row. -/
theorem Buffered.stillJudging (h : b.Buffered t cur buf) {verdict : Verdict}
    (hstate : buf.state.Refines verdict) (hcur : Extends cur full) {f : FilterPredicate}
    (hf : b.plan.filter = some f)
    (hverdict : evalPredicateWithNull b.plan (rowGet b.plan full) f = verdict) {p : Put}
    (hp : b.FreshPut cur full p) (hsteady : b.SteadyPut full f p) {resolved : String}
    (htarget : p.target b.plan = some resolved) :
    b.StillJudging (b.put p) t cur full verdict (some resolved) := by
  have hname := hp.admitted resolved htarget
  have hvalue := hp.value resolved htarget
  obtain ⟨hout, hsame⟩ := h.put p fun name value res heq _ hres =>
    hp.admitted res (by rw [heq]; exact hres)
  obtain ⟨hdeclare, hassign⟩ := declarePut_of_fresh htarget hname t cur
  rw [hdeclare, hassign] at hout
  have hdirect : b.rowBuf.any (·.direct) = false := by
    rw [h.rowBuf]
    exact h.direct
  -- an evaluation reads the row so far
  have hdecides : b.evaluatesAt resolved p.value = true →
      (evalPredicate b.plan (rowGet b.plan (Function.update cur resolved (some p.value)))
        f).Refines verdict := by
    intro heval
    have hread := hsteady h.buffering (fun hd => by cases hdirect.symm.trans hd) resolved htarget heval
    obtain ⟨b₁, slot, buf₁, hstage, h₁, -, hframe, -⟩ := h.stageField p.value hname
    rw [hstage, h₁.getBufferedValue, hframe.plan] at hread
    intro hdecided
    rw [← hverdict]
    exact (hread.decisionStands (rowGet_extends _ (update_extends hcur hvalue)) hdecided).2
  refine stillJudging_update ?_ hcur hvalue hsame
  cases hout with
  | same h' => exact .buffered buf h' hstate
  | buffered res hres buf' h' hjudged =>
      obtain rfl : resolved = res := Option.some.inj (htarget.symm.trans hres)
      refine .buffered buf' h' ?_
      rcases hjudged with hsame | ⟨heval, f', hf', heq⟩
      · rw [hsame]
        exact hstate
      · obtain rfl : f = f' := Option.some.inj (hf.symm.trans hf')
        rw [heq]
        exact hdecides heval
  | drained res hres buf' h' hstaged hundecided heval f' hf' hpass =>
      obtain rfl : resolved = res := Option.some.inj (htarget.symm.trans hres)
      obtain rfl : f = f' := Option.some.inj (hf.symm.trans hf')
      have hverdict' := hdecides heval (by rw [hpass]; simp [Verdict.Decided])
      rw [hpass] at hverdict'
      rw [overlay_noRow] at h' hstaged
      refine .drained buf' noRow h' hstaged (fun name v hv => by cases hv) ?_ hverdict'
      rw [hundecided]
      exact Verdict.undecided_refines _

/-- A put on a drained row goes to the columns, or joins the buffered values: a decision on these stands,
as they are values of the row. -/
theorem Drained.stillJudging (h : b.Drained t cur buf) (hstaged : b.Staged t cur held buf)
    (hheld : Extends held full) {verdict : Verdict} (hstate : buf.state.Refines verdict)
    (hpass : verdict = .pass) (hcur : Extends cur full) {f : FilterPredicate}
    (hf : b.plan.filter = some f)
    (hverdict : evalPredicateWithNull b.plan (rowGet b.plan full) f = verdict) {p : Put}
    (hp : b.FreshPut cur full p) (hsteady : b.SteadyPut full f p) {resolved : String}
    (htarget : p.target b.plan = some resolved) :
    b.StillJudging (b.put p) t cur full verdict (some resolved) := by
  have hname := hp.admitted resolved htarget
  have hvalue := hp.value resolved htarget
  -- after a drain the value goes to its column, or is held by the buffer of an unknown name
  rcases h.put_eq htarget hname with ⟨heq, -⟩ | ⟨heq, hput⟩
  · rw [heq]
    obtain ⟨hs', hframe⟩ := hstaged.pushFieldResolved h.rowCount p.value hname
      (hp.fresh resolved htarget)
    have h' : (b.pushFieldResolved resolved p.value).Drained _ _ buf :=
      ⟨hs'.rowBuf, h.worthwhile, h.direct, hs'.sound,
        by rw [hframe.rowCount, h.rowCount, RowTable.rows_declare]⟩
    exact stillJudging_update (.drained buf held h' hs' hheld hstate hpass) hcur hvalue
      hframe.samePlan
  · obtain ⟨buf', h', hs', hframe, hjudged⟩ := h.bufferField_held hstaged p.value hname hf
    rw [heq]
    refine ⟨_, cur, .drained buf' _ h' hs' (update_extends hheld hvalue) ?_ hpass, hcur,
      hframe.samePlan, fun name hn => (t.mem_names_declare resolved name _).mpr (.inl hn),
      fun _ hn => Or.inl hn⟩
    rcases hjudged with hsame | ⟨heval, heq'⟩
    · rw [hsame]
      exact hstate
    -- the filter is evaluated once more, and a steady put keeps its verdict
    · have hread := hsteady h.buffering (fun _ => hput) resolved htarget heval
      obtain ⟨b₁, slot, buf₁, hstage, h₁, -, -, -, hframe₁, -⟩ := hstaged.stageField p.value hname
      rw [hstage, h₁.getBufferedValue, hframe₁.plan] at hread
      rw [heq', ← hverdict]
      exact fun hdecided => (hread.decisionStands
        (rowGet_extends _ (update_extends hheld hvalue)) hdecided).2

/-- One more value of the row keeps what has been decided. The verdict so far stands on the longer
row, because the filter is steady on it, and in a drained row the value goes to the columns. -/
theorem Judging.put {verdict : Verdict} (h : b.Judging t cur full verdict) (hcur : Extends cur full)
    {f : FilterPredicate} (hf : b.plan.filter = some f)
    (hverdict : evalPredicateWithNull b.plan (rowGet b.plan full) f = verdict) {p : Put}
    (hp : b.FreshPut cur full p) (hsteady : b.SteadyPut full f p) :
    b.StillJudging (b.put p) t cur full verdict (p.target b.plan) := by
  cases htarget : p.target b.plan with
  | none =>
      rw [put_of_dropped htarget]
      exact ⟨t, cur, h, hcur, .refl b, fun _ hn => hn, fun _ hn => Or.inl hn⟩
  | some resolved =>
      cases h with
      | columns h hstate =>
          exact h.stillJudging hstate hcur htarget (hp.admitted resolved htarget)
            (hp.value resolved htarget)
      | buffered buf h hstate =>
          exact Buffered.stillJudging h hstate hcur hf hverdict hp hsteady htarget
      | drained buf held h hstaged hheld hstate hpass =>
          exact h.stillJudging hstaged hheld hstate hpass hcur hf hverdict hp hsteady htarget

/-- A name that is admitted stays admitted as the columns grow: the layout refuses only names that
have no column. -/
theorem exactWithout_eq_none_of_names {b b' : TableBuilder} {t t' : Table} {cur cur' : CurrentRow}
    (h : b.Sound t cur) (h' : b'.Sound t' cur') (hfrozen : b'.frozen = b.frozen)
    (hnames : ∀ name ∈ t.names, name ∈ t'.names) {name : String}
    (hname : b.exactWithout name = none) : b'.exactWithout name = none := by
  rw [exactWithout] at hname ⊢
  by_cases hmem : name ∈ b.fieldIndex
  · have hmem' : name ∈ b'.fieldIndex :=
      (h'.holds.mem_index name).mpr (hnames name ((h.holds.mem_index name).mp hmem))
    rw [if_pos hmem']
  · rw [if_neg hmem] at hname
    rw [hfrozen, hname, ite_self]

/-- While a row is judged the builder is sound, in each of its modes. -/
theorem Judging.sound {verdict : Verdict} (h : b.Judging t cur full verdict) :
    ∃ cur', b.Sound t cur' := by
  cases h with
  | columns h _ => exact ⟨cur, h.sound⟩
  | buffered _ h _ => exact ⟨noRow, h.sound⟩
  | drained _ _ h _ _ _ _ => exact ⟨cur, h.sound⟩

/-- The values of a row with distinct columns keep what has been decided. -/
theorem Judging.putAll {verdict : Verdict} (h : b.Judging t cur full verdict)
    (hcur : Extends cur full) {f : FilterPredicate} (hf : b.plan.filter = some f)
    (hverdict : evalPredicateWithNull b.plan (rowGet b.plan full) f = verdict) {puts : List Put}
    (hnodup : (puts.filterMap fun p => p.target b.plan).Nodup)
    (hputs : ∀ p ∈ puts, b.FreshPut cur full p) (hsteady : b.SteadyRow full f puts) :
    ∃ t' cur', (b.putAll puts).Judging t' cur' full verdict := by
  induction puts generalizing b t cur with
  | nil => exact ⟨t, cur, h⟩
  | cons p puts ih =>
      obtain ⟨t', cur', h', hcur', hsame, hnames, hassigned⟩ :=
        h.put hcur hf hverdict (hputs p List.mem_cons_self) hsteady.1
      obtain ⟨c, hsound⟩ := h.sound
      obtain ⟨c', hsound'⟩ := h'.sound
      have hnodup' : (puts.filterMap fun p => p.target b.plan).Nodup := by
        rw [List.filterMap_cons] at hnodup
        cases htarget : p.target b.plan with
        | none => simpa only [htarget] using hnodup
        | some name =>
            simp only [htarget, List.nodup_cons] at hnodup
            exact hnodup.2
      refine ih h' hcur' (by rw [hsame.plan]; exact hf) (by rw [hsame.plan]; exact hverdict)
        (by rw [hsame.plan]; exact hnodup') (fun q hq => ?_) hsteady.2
      have hq' := hputs q (List.mem_cons_of_mem _ hq)
      refine ⟨fun resolved htarget => ?_, fun resolved htarget => ?_, fun resolved htarget => ?_⟩
      · rw [hsame.plan] at htarget
        exact exactWithout_eq_none_of_names hsound hsound' hsame.frozen hnames
          (hq'.admitted resolved htarget)
      · rw [hsame.plan] at htarget
        by_contra hne
        rcases hassigned resolved (Option.isSome_iff_ne_none.mpr hne) with hold | hnew
        · rw [hq'.fresh resolved htarget] at hold
          cases hold
        · -- the column of `p` would be the column of a later put
          simp only [List.filterMap_cons, hnew, List.nodup_cons] at hnodup
          exact hnodup.1 (List.mem_filterMap.mpr ⟨q, hq, htarget⟩)
      · rw [hsame.plan] at htarget
        exact hq'.value resolved htarget

/-- `begin_row` has decided nothing: the row is empty, and its verdict is open. -/
theorem Between.judging (h : b.Between t) (full : CurrentRow) (verdict : Verdict) :
    b.beginRow.Judging t noRow full verdict := by
  have hbuf : ∀ buf, b.beginRow.rowBuf = some buf → buf.state = .undecided ∧ buf.direct = false := by
    intro buf hbuf
    obtain ⟨buf₀, -, rfl⟩ := Option.map_eq_some_iff.mp hbuf
    exact ⟨rfl, rfl⟩
  obtain ⟨hmode, -, -, -⟩ := h.beginRow
  cases hmode with
  | columns h' =>
      refine .columns h' ?_
      rw [rowRejected]
      cases hb : b.beginRow.rowBuf with
      | none => exact Bool.and_false _
      | some buf =>
          rw [Option.any_some, (hbuf buf hb).1]
          exact Bool.and_false _
  | buffered buf h' =>
      refine .buffered buf h' ?_
      rw [(hbuf buf h'.rowBuf).1]
      exact Verdict.undecided_refines _
  | drained buf h' =>
      have hdirect := (hbuf buf h'.rowBuf).2
      rw [h'.direct] at hdirect
      cases hdirect

/-- Distinct columns that the layout admits take the values of their puts. -/
theorem rowPut_of_mem {puts : List Put} (hnodup : (puts.filterMap fun p => p.target b.plan).Nodup)
    (hadmitted : ∀ p ∈ puts, ∀ name, p.target b.plan = some name → b.exactWithout name = none)
    {p : Put} (hp : p ∈ puts) {name : String} (htarget : p.target b.plan = some name) :
    b.rowPut puts name = some p.value := by
  have hassign : ∀ q ∈ puts, ((q.target b.plan).bind fun name =>
      if (b.exactWithout name).isSome then none else some (name, q.value)) =
      (q.target b.plan).map fun name => (name, q.value) := by
    intro q hq
    cases htarget : q.target b.plan with
    | none => rfl
    | some name =>
        rw [Option.bind_some, hadmitted q hq name htarget]
        rfl
  have hkeys : (b.assignments puts).map Prod.fst = puts.filterMap fun p => p.target b.plan := by
    rw [assignments, List.filterMap_congr hassign, List.map_filterMap]
    refine List.filterMap_congr fun q _ => ?_
    cases q.target b.plan <;> rfl
  have hmem : (name, p.value) ∈ b.assignments puts := by
    rw [assignments, List.filterMap_congr hassign]
    exact List.mem_filterMap.mpr ⟨p, hp, by rw [htarget]; rfl⟩
  exact rowOf_of_mem (hkeys ▸ hnodup) hmem

end Steps

end TableBuilder

open TableBuilder in
/-- Where the filter is steady, a decision on a partial row stands: on every extension of the row, at
its end, and so in a row of distinct columns both when `row_rejected` reports it and when
`resolve_and_put` drains the row. On a single leaf, steadiness is also necessary. -/
theorem early_decisions_stand :
    (∀ (plan : ExecutionPlan) (f : FilterPredicate) (get get' : String → Option Value),
      Extends get get' → Steady plan get get' f → DecisionStands plan get get' f) ∧
    (∀ (plan : ExecutionPlan) (f : FilterPredicate) (get get' : String → Option Value),
      f.IsLeaf → DecisionStands plan get get' f → Steady plan get get' f) ∧
    (∀ (b : TableBuilder) (t : Table) (f : FilterPredicate) (puts done : List Put), b.Between t →
      b.plan.filter = some f → done <+: puts → (puts.filterMap fun p => p.target b.plan).Nodup →
      (∀ p ∈ puts, ∀ name, p.target b.plan = some name → b.exactWithout name = none) →
      b.beginRow.SteadyRow (b.rowPut puts) f done →
      ((b.beginRow.putAll done).rowRejected = true →
        evalPredicateWithNull b.plan (rowGet b.plan (b.rowPut puts)) f = .fail) ∧
      ((b.beginRow.putAll done).rowBuf.any (·.direct) = true →
        evalPredicateWithNull b.plan (rowGet b.plan (b.rowPut puts)) f = .pass)) := by
  refine ⟨fun plan f get get' hext hsteady => hsteady.decisionStands hext,
    fun plan f get get' hleaf h => h.steady hleaf, ?_⟩
  intro b t f puts done hb hf hdone hnodup hadmitted hsteady
  obtain ⟨rest, rfl⟩ := hdone
  -- no two fields of the row have the same target, so every put assigns a new column
  have hfresh : ∀ p ∈ done, b.beginRow.FreshPut noRow (b.rowPut (done ++ rest)) p := by
    intro p hp
    have hp' : p ∈ done ++ rest := List.mem_append_left _ hp
    exact ⟨fun name h => hadmitted p hp' name h, fun _ _ => rfl,
      fun name h => rowPut_of_mem hnodup hadmitted hp' h⟩
  have hnodup' : (done.filterMap fun p => p.target b.beginRow.plan).Nodup := by
    rw [List.filterMap_append] at hnodup
    exact (List.nodup_append.mp hnodup).1
  obtain ⟨t', cur', h⟩ := (hb.judging (b.rowPut (done ++ rest)) _).putAll
    (fun name value hv => by cases hv) hf rfl hnodup' hfresh hsteady
  cases h with
  -- without a row buffer there is neither a rejection nor a drain before the end of the row
  | columns h hstate =>
      refine ⟨fun hr => ?_, fun hd => ?_⟩
      · cases hstate.symm.trans hr
      · cases h.direct.symm.trans hd
  | buffered buf h hstate =>
      refine ⟨fun hr => ?_, fun hd => ?_⟩
      · rw [rowRejected, h.rowBuf, Bool.and_eq_true, Option.any_some, beq_iff_eq] at hr
        rw [hr.2] at hstate
        exact hstate (by simp [Verdict.Decided])
      · rw [h.rowBuf, Option.any_some, h.direct] at hd
        cases hd
  -- the drain was made on a Pass, which the complete row repeats
  | drained buf held h hstaged hheld hstate hpass =>
      refine ⟨fun hr => ?_, fun _ => hpass⟩
      rw [rowRejected, h.rowBuf, Bool.and_eq_true, Option.any_some, beq_iff_eq] at hr
      rw [hr.2] at hstate
      exact hstate (by simp [Verdict.Decided])

end Decisions

section Examples

attribute [local instance] integerPlatform

/-- The values of a row whose field `k` is still to come. -/
def beforeK (field : String) : Option Value := if field = "a" then some (.str "y") else none

/-- The values of the row with `k`. -/
def withK (field : String) : Option Value := if field = "k" then some (.str "1") else beforeK field

/-- The value of `k` comes on top of the row before it. -/
theorem beforeK_extends_withK : Extends beforeK withK := by
  intro field value h
  rw [beforeK] at h
  split at h
  · next ha => rw [withK, if_neg (by rw [ha]; decide), beforeK, if_pos ha, h]
  · cases h

/-- A filter that rejects the row on the missing `k`, and rejects the `k` that comes as well. -/
def inTwo : FilterPredicate := .and (.in "k" ["2"]) (.equal "a" "y")

/-- The verdict on the part of the row stands when `k` is added. -/
theorem steady_inTwo : Steady {} beforeK withK inTwo := by
  refine ⟨fun l hl _ _ s hs => ?_, fun l hl hdecided => ?_⟩
  · cases hl
    obtain rfl : "1" = s := Option.some.inj hs
    decide
  · cases hl
    exact absurd rfl hdecided

namespace TableBuilder

/-- The puts `a = "y"` and `k = "1"`. -/
def putAK : List Put := [.resolveAndPut "a" (.str "y"), .resolveAndPut "k" (.str "1")]

/-- A decision on a part of a row stands; after its first put `row_rejected` reports a row that is
rejected in the end, and under another filter `resolve_and_put` drains a row that passes. -/
theorem early_decision_of_in :
    (evalPredicate {} beforeK inTwo = .fail ∧ evalPredicate {} withK inTwo = .fail ∧
      evalPredicateWithNull {} withK inTwo = .fail) ∧
    (((withPlan { filter := some inTwo }).beginRow.putAll (putAK.take 1)).rowRejected = true ∧
      evalPredicateWithNull { filter := some inTwo } (rowGet { filter := some inTwo }
        ((withPlan { filter := some inTwo }).rowPut putAK)) inTwo = .fail) ∧
    (((withPlan { filter := some (.equal "a" "y") }).beginRow.putAll (putAK.take 1)).rowBuf.any
        (·.direct) = true ∧
      evalPredicateWithNull { filter := some (.equal "a" "y") } (rowGet { filter := some (.equal "a" "y") }
        ((withPlan { filter := some (.equal "a" "y") }).rowPut putAK)) (.equal "a" "y") = .pass) := by
  -- the early decision itself is computed, and what it comes to is the theorem's
  have hpart : evalPredicate {} beforeK inTwo = .fail := by decide
  have hrejected :
      ((withPlan { filter := some inTwo }).beginRow.putAll (putAK.take 1)).rowRejected = true := rfl
  have hdrained : ((withPlan { filter := some (.equal "a" "y") }).beginRow.putAll
      (putAK.take 1)).rowBuf.any (·.direct) = true := rfl
  refine ⟨?_, ⟨hrejected, ?_⟩, hdrained, ?_⟩
  · have hstands := early_decisions_stand.1 {} _ _ _ beforeK_extends_withK steady_inTwo
      (by rw [hpart]; simp [Verdict.Decided])
    rw [hpart] at hstands
    exact ⟨hpart, hstands⟩
  · refine (early_decisions_stand.2.2 _ _ inTwo putAK (putAK.take 1) (between_withPlan _) rfl
      (List.take_prefix 1 putAK) (by decide) (fun p _ name _ => rfl) ⟨?_, trivial⟩).1 hrejected
    intro _ _ resolved htarget _
    obtain rfl : "a" = resolved := Option.some.inj htarget
    refine ⟨fun l hl _ _ s hs => ?_, fun l hl hdecided => ?_⟩
    · cases hl
      obtain rfl : "1" = s := Option.some.inj hs
      decide
    · cases hl
      exact absurd rfl hdecided
  · refine (early_decisions_stand.2.2 _ _ (.equal "a" "y") putAK (putAK.take 1) (between_withPlan _) rfl
      (List.take_prefix 1 putAK) (by decide) (fun p _ name _ => rfl) ⟨?_, trivial⟩).2 hdrained
    intro _ _ resolved htarget _ l hl hdecided
    cases hl
    exact absurd rfl hdecided

end TableBuilder

/-- `In` decides on a field that is still to come: without a value it fails at once, and the value
that comes may be one of its list. -/
theorem early_decision_of_in_falls :
    ¬ ∀ (plan : ExecutionPlan) (f : FilterPredicate) (get get' : String → Option Value),
      Extends get get' → DecisionStands plan get get' f := by
  intro h
  have hstands := h {} (.or (.equal "a" "x") (.in "k" ["1"])) _ _ beforeK_extends_withK
  have hfail : evalPredicate {} beforeK (.or (.equal "a" "x") (.in "k" ["1"])) = .fail := by decide
  have hpass : evalPredicate {} withK (.or (.equal "a" "x") (.in "k" ["1"])) = .pass := by decide
  have heq := (hstands (by rw [hfail]; simp [Verdict.Decided])).1
  rw [hfail, hpass] at heq
  cases heq

end Examples

end Rypipe
