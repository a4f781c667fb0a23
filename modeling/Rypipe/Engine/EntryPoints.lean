import Rypipe.EarlyStop
import Rypipe.Engine.FilterAgreement
import Rypipe.Engine.Strict

/-! # Entry points

The rows of a run reach the columns in three ways: directly, with the filter checked on the columns;
from the row buffer, at the end of the row; or from the row buffer in the middle of the row, once the
filter has passed. `begin_row` chooses by what it has seen of the rows before, and an adapter chooses
the entry point and whether it reads on once the row is rejected. Where the filter reads the rows alike
(`ReadsAlike`), none of this can be seen: the run accepts the rows that pass, in order. -/

namespace Rypipe

namespace TableBuilder

/-! ## Adapters -/

/-- How an adapter sends a field: by `put_field`, by `resolve` and `put_field_resolved`, or by
`resolve_and_put`. -/
inductive EntryPoint where
  | putField
  | putFieldResolved
  | resolveAndPut
  deriving DecidableEq, Repr

section Adapters

variable [Platform]

/-- The put an entry point makes of a field, if it makes one. -/
def EntryPoint.put (plan : ExecutionPlan) (entry : EntryPoint) (field : String × Value) : Option Put :=
  match entry with
  | .putField => some (.field field.1 field.2)
  | .putFieldResolved => (plan.resolveField field.1).map fun name => .fieldResolved name field.2
  | .resolveAndPut => some (.resolveAndPut field.1 field.2)

/-- A record, as an adapter sends it. -/
structure Sent where
  entry : EntryPoint
  /-- Whether the adapter leaves the rest of a row that `row_rejected` reports. -/
  stops : Bool
  fields : List (String × Value)

/-- Send the fields of a record. -/
def sendFields (b : TableBuilder) (entry : EntryPoint) (stops : Bool) :
    List (String × Value) → TableBuilder
  | [] => b
  | field :: fields =>
      let b := ((entry.put b.plan field).map b.put).getD b
      if stops && b.rowRejected then b else b.sendFields entry stops fields

/-- Send a record: `begin_row`, its fields, `end_row`. -/
def send (b : TableBuilder) (r : Sent) : TableBuilder :=
  (b.beginRow.sendFields r.entry r.stops r.fields).endRow

/-- Send the records of a chunk. -/
def sendAll (b : TableBuilder) (rows : List Sent) : TableBuilder := rows.foldl send b

/-! ## What a record is -/

/-- The values of fields, under the output names of the plan. -/
def planValues (plan : ExecutionPlan) (fields : List (String × Value)) : List (String × Value) :=
  fields.filterMap fun field => (plan.resolveField field.1).map fun name => (name, field.2)

/-- The row that fields make. -/
def fieldsRow (plan : ExecutionPlan) (fields : List (String × Value)) : CurrentRow :=
  rowOf (planValues plan fields)

/-- The verdict on a record; without a filter it passes. -/
def passes (plan : ExecutionPlan) (r : Sent) : Bool :=
  plan.filter.all fun f => evalPredicateWithNull plan (rowGet plan (fieldsRow plan r.fields)) f == .pass

/-- The filter reads the record alike in every mode: no column comes twice, the evaluators agree, and
what is decided on a part of the record stands. -/
structure AlikeUnder (plan : ExecutionPlan) (f : FilterPredicate) (r : Sent) : Prop where
  distinct : ((planValues plan r.fields).map Prod.fst).Nodup
  agrees : FilterAgrees plan (fieldsRow plan r.fields) f
  steady : ∀ fields, fields <+: r.fields → Steady plan (rowGet plan (fieldsRow plan fields))
    (rowGet plan (fieldsRow plan r.fields)) f

/-- The filter of the plan, if it has one, reads the record alike in every mode. -/
def ReadsAlike (plan : ExecutionPlan) (r : Sent) : Prop := ∀ f ∈ plan.filter, AlikeUnder plan f r

variable {plan : ExecutionPlan} {entry : EntryPoint}

/-- A put is for the output name of its field, by each of the three entry points, and carries its
value. -/
theorem target_put {field : String × Value} {p : Put} (h : entry.put plan field = some p) :
    p.target plan = plan.resolveField field.1 ∧ p.value = field.2 := by
  cases entry with
  | putField =>
      cases h
      exact ⟨rfl, rfl⟩
  | putFieldResolved =>
      obtain ⟨name, hname, rfl⟩ := Option.map_eq_some_iff.mp h
      exact ⟨hname.symm, rfl⟩
  | resolveAndPut =>
      cases h
      exact ⟨rfl, rfl⟩

/-- A field without a put has no output name. -/
theorem resolveField_of_put_none {field : String × Value} (h : entry.put plan field = none) :
    plan.resolveField field.1 = none := by
  cases entry with
  | putField => cases h
  | putFieldResolved => exact Option.map_eq_none_iff.mp h
  | resolveAndPut => cases h

/-- A field that the plan drops gives no value. -/
theorem planValues_cons_none {field : String × Value} (h : plan.resolveField field.1 = none)
    (fields : List (String × Value)) :
    planValues plan (field :: fields) = planValues plan fields := by
  refine List.filterMap_cons_none ?_
  rw [h, Option.map_none]

/-- A field that the plan keeps gives its value. -/
theorem planValues_cons_some {field : String × Value} {name : String}
    (h : plan.resolveField field.1 = some name) (fields : List (String × Value)) :
    planValues plan (field :: fields) = (name, field.2) :: planValues plan fields := by
  refine List.filterMap_cons_some ?_
  rw [h, Option.map_some]

/-- The values of a record are of names the plan keeps. -/
theorem fieldsRow_of_dropped {name : String} (hname : name ∈ plan.dropFields)
    (fields : List (String × Value)) : fieldsRow plan fields name = none := by
  rw [← Option.not_isSome_iff_eq_none, fieldsRow, rowOf_isSome]
  intro hmem
  obtain ⟨p, hp, rfl⟩ := List.mem_map.mp hmem
  obtain ⟨field, -, hres⟩ := List.mem_filterMap.mp hp
  obtain ⟨n, hn, rfl⟩ := Option.map_eq_some_iff.mp hres
  exact (ExecutionPlan.resolveField_eq_some hn).2 hname

/-- More fields of distinct columns extend the row: no value that was there is replaced. -/
theorem fieldsRow_extends {fields done : List (String × Value)} (hdone : done <+: fields)
    (h : ((planValues plan fields).map Prod.fst).Nodup) :
    Extends (fieldsRow plan done) (fieldsRow plan fields) := by
  obtain ⟨rest, rfl⟩ := hdone
  have hsplit : planValues plan (done ++ rest) = planValues plan done ++ planValues plan rest :=
    List.filterMap_append
  intro name value hvalue
  have hmem : name ∈ (planValues plan done).map Prod.fst := by
    rw [← rowOf_isSome]
    exact Option.isSome_iff_exists.mpr ⟨value, hvalue⟩
  obtain ⟨p, hp, rfl⟩ := List.mem_map.mp hmem
  have hdistinct := h
  rw [hsplit, List.map_append] at hdistinct
  have hp' : p ∈ planValues plan (done ++ rest) := hsplit ▸ List.mem_append_left _ hp
  have hold := rowOf_of_mem (List.nodup_append.mp hdistinct).1 hp
  rw [fieldsRow, rowOf_of_mem h hp']
  exact hold.symm.trans hvalue

end Adapters

/-! ## The puts of a record -/

section Puts

variable [Platform] {b : TableBuilder} {t : Table} {cur full : CurrentRow} {entry : EntryPoint}
  {f : FilterPredicate}

/-- The puts of some fields. -/
def putsOf (plan : ExecutionPlan) (entry : EntryPoint) (fields : List (String × Value)) : List Put :=
  fields.filterMap (entry.put plan)

/-- Their targets are the names of the values: a field that is dropped gives no put, or one without
a target. -/
theorem targets_putsOf (plan : ExecutionPlan) (entry : EntryPoint) (fields : List (String × Value)) :
    (putsOf plan entry fields).filterMap (fun p => (p.target plan).map fun name => (name, p.value)) =
      planValues plan fields := by
  rw [putsOf, planValues, List.filterMap_filterMap]
  refine List.filterMap_congr fun field _ => ?_
  cases hput : entry.put plan field with
  | none => rw [resolveField_of_put_none hput]; rfl
  | some p =>
      obtain ⟨htarget, hvalue⟩ := target_put hput
      rw [Option.bind_some, htarget, hvalue]

/-- No field is unknown to the builder: it has no frozen layout, or one that is not exact. -/
def AdmitsAll (b : TableBuilder) : Prop := b.frozen.filter (·.exact) = none

theorem AdmitsAll.exactWithout (h : b.AdmitsAll) (name : String) : b.exactWithout name = none := by
  rw [TableBuilder.exactWithout, h, ite_self]

theorem AdmitsAll.congr {b' : TableBuilder} (h : b.AdmitsAll) (hfrozen : b'.frozen = b.frozen) :
    b'.AdmitsAll := by
  rw [AdmitsAll, hfrozen]
  exact h

theorem AdmitsAll.unknownTo (h : b.AdmitsAll) (name : String) : b.unknownTo name = none := by
  rw [TableBuilder.unknownTo, h.exactWithout]
  rfl

/-- Where no field is unknown they assign the values, in the order in which they are put. -/
theorem assignments_putsOf (hadmits : b.AdmitsAll) (entry : EntryPoint)
    (fields : List (String × Value)) :
    b.assignments (putsOf b.plan entry fields) = planValues b.plan fields := by
  rw [← targets_putsOf b.plan entry fields, assignments]
  refine List.filterMap_congr fun p _ => ?_
  cases p.target b.plan with
  | none => rfl
  | some name =>
      rw [Option.bind_some, hadmits.exactWithout]
      rfl

/-- Where no field is unknown a put keeps the plan, and still no field is unknown after it. -/
theorem plan_put (hadmits : b.AdmitsAll) (p : Put) :
    (b.put p).plan = b.plan ∧ (b.put p).AdmitsAll := by
  cases htarget : p.target b.plan with
  | none =>
      rw [put_of_dropped htarget]
      exact ⟨rfl, hadmits⟩
  | some name =>
      have hexact := hadmits.exactWithout name
      have hquiet := quiet_put htarget hexact
      obtain ⟨hplan, -, hfr⟩ := b.admitField_frame hexact p.value
      exact ⟨hquiet.plan.trans hplan, hadmits.congr (hquiet.frozen.trans hfr)⟩

/-- A value kept in the row buffer drains nothing. -/
theorem Held.isDirect_iff {b' : TableBuilder} {name : String} {value : Value}
    (h : b.Held name value b') : b'.IsDirect ↔ b.IsDirect := by
  obtain ⟨err, g, rfl, hg⟩ := h.shape
  show ((b.ensureColumnIdx name).1.rowBuf.map g).any _ = true ↔ b.rowBuf.any _ = true
  rw [(b.ensureColumnIdx_frame name).1]
  cases b.rowBuf with
  | none => rfl
  | some buf => rw [Option.map_some, Option.any_some, Option.any_some, (hg buf).2.1]

/-- A put that writes to the columns leaves the row buffer alone. -/
theorem AdmitsAll.rowBuf_pushFieldResolved (h : b.AdmitsAll) (name : String) (value : Value) :
    (b.pushFieldResolved name value).rowBuf = b.rowBuf := by
  obtain ⟨hbuf, -, -, -⟩ := b.ensureColumnIdx_frame name
  rw [TableBuilder.pushFieldResolved, h.exactWithout]
  dsimp only
  generalize b.ensureColumnIdx name = ensured at hbuf ⊢
  exact hbuf

/-- Only `resolve_and_put` drains a row, so the other entry points leave its mode as it is. -/
theorem not_isDirect_put (hadmits : b.AdmitsAll) (h : ¬ b.IsDirect) {p : Put}
    (hp : ∀ raw value, p ≠ .resolveAndPut raw value) : ¬ (b.put p).IsDirect := by
  cases htarget : p.target b.plan with
  | none => rwa [put_of_dropped htarget]
  | some name =>
      by_cases hbuf : b.buffering = true
      · have hheld : b.Held name p.value (b.put p) := by
          cases p with
          | field raw value =>
              have hresolve : b.plan.resolveField raw = some name := htarget
              have hput : b.put (.field raw value) = b.bufferField name value := by
                simp [put, putField, hbuf, hresolve, hadmits.unknownTo]
              rw [hput]
              exact b.held_bufferField name value
          | fieldResolved resolved value =>
              obtain rfl : resolved = name := Option.some.inj htarget
              have hput : b.put (.fieldResolved resolved value) = b.bufferField resolved value := by
                simp [put, putFieldResolved, hbuf, hadmits.unknownTo]
              rw [hput]
              exact b.held_bufferField resolved value
          | resolveAndPut raw value => exact absurd rfl (hp raw value)
        rwa [hheld.isDirect_iff]
      · rw [put_of_not_buffering (by simpa using hbuf), htarget, IsDirect]
        dsimp only
        rwa [hadmits.rowBuf_pushFieldResolved]

/-- A prefix of the fields is sent, all of them unless the row is rejected. -/
theorem sendFields_eq (hadmits : b.AdmitsAll) (entry : EntryPoint) (stops : Bool)
    (fields : List (String × Value)) :
    ∃ done, done <+: fields ∧
      b.sendFields entry stops fields = b.putAll (putsOf b.plan entry done) ∧
      (done = fields ∨ (b.putAll (putsOf b.plan entry done)).rowRejected = true) := by
  induction fields generalizing b with
  | nil => exact ⟨[], List.prefix_refl _, rfl, .inl rfl⟩
  | cons field fields ih =>
      -- the first field is put, or dropped before it reaches the builder
      obtain ⟨b', hb', hplan, hadmits', hputs⟩ : ∃ b' : TableBuilder,
          ((entry.put b.plan field).map b.put).getD b = b' ∧ b'.plan = b.plan ∧ b'.AdmitsAll ∧
          ∀ fields', b.putAll (putsOf b.plan entry (field :: fields')) =
            b'.putAll (putsOf b.plan entry fields') := by
        cases hput : entry.put b.plan field with
        | none =>
            refine ⟨b, rfl, rfl, hadmits, fun fields' => ?_⟩
            rw [putsOf, List.filterMap_cons_none hput]
            rfl
        | some p =>
            obtain ⟨hplan, hadmits'⟩ := plan_put hadmits p
            refine ⟨b.put p, rfl, hplan, hadmits', fun fields' => ?_⟩
            rw [putsOf, List.filterMap_cons_some hput]
            rfl
      rw [sendFields, hb']
      split
      -- the caller sees the rejection and skips the rest
      · next hstop =>
        refine ⟨[field], List.prefix_append [field] fields, ?_, .inr ?_⟩
        · rw [hputs]
          rfl
        · rw [hputs]
          exact (Bool.and_eq_true_iff.mp hstop).2
      · obtain ⟨done, hdone, heq, hcase⟩ := ih hadmits'
        rw [hplan] at heq hcase
        refine ⟨field :: done, List.cons_prefix_cons.mpr ⟨rfl, hdone⟩, ?_, ?_⟩
        · rw [heq, hputs]
        · rw [hputs]
          exact hcase.imp_left (congrArg (field :: ·))

/-- Only a row sent by `resolve_and_put` is drained before its end. -/
theorem not_isDirect_sent (hadmits : b.AdmitsAll) {plan : ExecutionPlan} {field : String × Value}
    {p : Put} (hput : entry.put plan field = some p) (hne : entry ≠ .resolveAndPut)
    (h : ¬ b.IsDirect) : ¬ (b.put p).IsDirect := by
  refine not_isDirect_put hadmits h fun raw value heq => ?_
  subst heq
  cases entry with
  | putField => cases hput
  | putFieldResolved =>
      obtain ⟨_, _, hx⟩ := Option.map_eq_some_iff.mp hput
      cases hx
  | resolveAndPut => exact hne rfl

/-- A value of a column without a value is kept, if a drained row gets it through `resolve_and_put`. -/
theorem RowMode.keeps_fresh (h : b.RowMode t cur) (hadmits : b.AdmitsAll) {p : Put} {name : String}
    (htarget : p.target b.plan = some name) (hcur : cur name = none)
    (hentry : b.IsDirect → ∃ raw value, p = .resolveAndPut raw value) : b.Keeps p := by
  refine ⟨fun hdirect resolved ht _ => ⟨hentry hdirect, fun slot hslot => ?_⟩,
    fun _ _ _ _ _ resolved _ _ => hadmits.exactWithout resolved⟩
  obtain rfl : name = resolved := Option.some.inj (htarget.symm.trans ht)
  cases h with
  | columns h => cases h.direct.symm.trans hdirect
  | buffered buf h =>
      rw [h.rowBuf, Option.any_some, h.direct] at hdirect
      cases hdirect
  | drained buf h =>
      obtain ⟨ty, hty⟩ := h.sound.holds.cols_of_lookup hslot
      rw [h.sound.holds.marked slot _ hty, hcur]
      rfl

/-- The filter is steady at a put that evaluates it, if it is steady on the row with the value. -/
theorem RowMode.steadyPut_fresh (h : b.RowMode t cur) (hadmits : b.AdmitsAll) {p : Put} {name : String}
    (htarget : p.target b.plan = some name)
    (hentry : b.IsDirect → ∃ raw value, p = .resolveAndPut raw value)
    (hsteady : Steady b.plan (rowGet b.plan (Function.update cur name (some p.value)))
      (rowGet b.plan full) f) : b.SteadyPut full f p := by
  intro hbuf hresolve resolved ht heval
  obtain rfl : name = resolved := Option.some.inj (htarget.symm.trans ht)
  cases h with
  | columns h => cases h.buffering.symm.trans hbuf
  | buffered buf h =>
      obtain ⟨b₁, slot, buf₁, hstage, h₁, -, hframe, -⟩ :=
        h.stageField p.value (hadmits.exactWithout name)
      rw [hstage, h₁.getBufferedValue, hframe.plan]
      exact hsteady
  | drained buf h =>
      have hdirect : b.IsDirect := by
        rw [IsDirect, h.rowBuf]
        exact h.direct
      obtain ⟨raw, value, heq⟩ := hentry hdirect
      exact absurd heq (hresolve hdirect raw value)

/-- While a record is sent, every put is one that the builder keeps, and where one evaluates the
filter the filter is steady. By induction on the fields that are left; the row so far is a prefix of
the record, for which `ReadsAlike` has the filter steady. -/
theorem RowMode.sending (h : b.RowMode t cur) (hadmits : b.AdmitsAll) (entry : EntryPoint)
    (hundrained : entry ≠ .resolveAndPut → ¬ b.IsDirect) {fields : List (String × Value)}
    (hdistinct : ((planValues b.plan fields).map Prod.fst).Nodup)
    (hfresh : ∀ name ∈ (planValues b.plan fields).map Prod.fst, cur name = none)
    (hsteady : ∀ done, done <+: fields →
      Steady b.plan (rowGet b.plan (assignAll cur (planValues b.plan done))) (rowGet b.plan full) f) :
    b.KeepsAll (putsOf b.plan entry fields) ∧
      b.SteadyRow full f (putsOf b.plan entry fields) := by
  induction fields generalizing b t cur with
  | nil => exact ⟨trivial, trivial⟩
  | cons field fields ih =>
      have hlonger : ∀ done, done <+: fields → field :: done <+: field :: fields := fun done hdone =>
        List.cons_prefix_cons.mpr ⟨rfl, hdone⟩
      cases hres : b.plan.resolveField field.1 with
      | none =>
          -- a dropped field is put at most to no effect
          have hvalues := planValues_cons_none hres
          rw [hvalues] at hdistinct hfresh
          have hrest := ih h hadmits hundrained hdistinct hfresh fun done hdone => by
            rw [← hvalues]
            exact hsteady (field :: done) (hlonger done hdone)
          cases hput : entry.put b.plan field with
          | none =>
              rw [putsOf, List.filterMap_cons_none hput]
              exact hrest
          | some p =>
              rw [putsOf, List.filterMap_cons_some hput]
              have hnone := (target_put hput).1.trans hres
              have hsame := put_of_dropped hnone
              refine ⟨⟨⟨fun _ resolved ht => ?_, fun _ _ _ _ _ resolved _ _ => ?_⟩, ?_⟩, ?_, ?_⟩
              · cases hnone.symm.trans ht
              · exact hadmits.exactWithout resolved
              · rw [hsame]
                exact hrest.1
              · intro _ _ resolved ht
                cases hnone.symm.trans ht
              · rw [hsame]
                exact hrest.2
      | some name =>
          cases hput : entry.put b.plan field with
          | none => cases (resolveField_of_put_none hput).symm.trans hres
          | some p =>
              obtain ⟨htarget, hvalue⟩ := target_put hput
              have hsome := htarget.trans hres
              have hvalues := planValues_cons_some hres
              rw [← hvalue] at hvalues
              rw [putsOf, List.filterMap_cons_some hput]
              rw [hvalues, List.map_cons] at hdistinct hfresh
              obtain ⟨hnotMem, hdistinct'⟩ := List.nodup_cons.mp hdistinct
              have hentry : b.IsDirect → ∃ raw value, p = .resolveAndPut raw value := by
                intro hdirect
                obtain rfl : entry = .resolveAndPut := by
                  by_contra hne
                  exact hundrained hne hdirect
                cases hput
                exact ⟨_, _, rfl⟩
              have hkeeps := h.keeps_fresh hadmits hsome (hfresh name List.mem_cons_self) hentry
              have hone := hsteady [field] (List.prefix_append [field] fields)
              rw [hvalues] at hone
              obtain ⟨h', hsame⟩ := h.put hkeeps
              have hassign : b.assignPut cur p = Function.update cur name (some p.value) := by
                rw [assignPut, hsome]
                exact assignFor_of_none (hadmits.exactWithout name) p.value
              rw [hassign] at h'
              have hrest := ih h' (plan_put hadmits p).2
                (fun hne => not_isDirect_sent hadmits hput hne (hundrained hne))
                (by rwa [hsame.plan])
                (fun n hn => by
                  rw [hsame.plan] at hn
                  have hne : n ≠ name := by
                    rintro rfl
                    exact hnotMem hn
                  rw [Function.update_of_ne hne]
                  exact hfresh n (List.mem_cons_of_mem _ hn))
                (fun done hdone => by
                  have hmore := hsteady (field :: done) (hlonger done hdone)
                  rwa [hvalues, ← hsame.plan] at hmore)
              rw [hsame.plan] at hrest
              exact ⟨⟨hkeeps, hrest.1⟩, h.steadyPut_fresh hadmits hsome hentry hone, hrest.2⟩

/-- Puts of names that are not dropped keep the slots in order, by induction on them: each new
column comes last, or in its place of the projection. -/
theorem RowMode.inOrder_putAll (h : b.RowMode t cur) (ho : b.InOrder t) (hadmits : b.AdmitsAll)
    {puts : List Put} (hk : b.KeepsAll puts)
    (hdrop : ∀ p ∈ puts, ∀ name, p.target b.plan = some name → name ∉ b.plan.dropFields) :
    (b.putAll puts).InOrder (b.declarePuts t puts) := by
  induction puts generalizing b t cur with
  | nil => exact ho
  | cons p puts ih =>
      obtain ⟨h', hsame⟩ := h.put hk.1
      have ho' : (b.put p).InOrder (b.declarePut t p) := by
        cases htarget : p.target b.plan with
        | none =>
            rw [put_of_dropped htarget, declarePut, htarget]
            exact ho
        | some name =>
            exact ho.put (.named h : b.WriteMode t cur False) htarget (hadmits.exactWithout name)
              (hdrop p List.mem_cons_self name htarget)
      refine ih h' ho' (plan_put hadmits p).2 hk.2 fun q hq name hname => ?_
      rw [hsame.plan] at hname ⊢
      exact hdrop q (List.mem_cons_of_mem _ hq) name hname

end Puts

/-! ## One record -/

section Records

variable [Platform] {b : TableBuilder} {t t' : Table} {cur cur' full : CurrentRow}
  {f : FilterPredicate} {verdict : Verdict}

/-- The columns of a row that has been read directly show it, once the missing values are filled in. -/
theorem Direct.showsRow (h : b.Direct t cur) (ho : b.InOrder t) :
    ShowsRow b.nullFill.columns b.fieldIndex b.rowCount b.plan cur := by
  have hfill := h.sound.nullFill.holds
  rw [← b.nullFill_fieldIndex]
  constructor
  · intro name c hc
    obtain ⟨i, hi, hc⟩ := Option.bind_eq_some_iff.mp hc
    obtain ⟨ty, hty⟩ := hfill.cols_of_lookup hi
    have htype : ty = b.plan.columnType name := ho.types _ (List.mem_of_getElem? hty)
    obtain ⟨c', hc', hst⟩ := hfill.stored i _ hty
    obtain rfl : c = c' := Option.some.inj (hc.symm.trans hc')
    rw [pending_noRow, List.append_nil, RowTable.column_commit, htype] at hst
    refine ⟨hst.valid, hst.kind, ?_⟩
    rw [ColumnBuilder.getTypedValue, hst.cells, at?, h.rowCount,
      ← RowTable.length_column store t name (b.plan.columnType name), List.getElem?_concat_length]
    rfl
  · intro name hnone
    rw [FilterPredicate.getColumn] at hnone
    cases hlook : b.nullFill.fieldIndex.lookup name with
    | none =>
        rw [b.nullFill_fieldIndex] at hlook
        have hnot := (h.sound.holds.lookup_eq_none name).mp hlook
        by_contra hsome
        exact hnot (h.sound.holds.within name (Option.isSome_iff_ne_none.mpr hsome))
    | some i =>
        have hlt := hfill.lookup_lt hlook
        rw [hlook, Option.bind_some, List.getElem?_eq_none_iff] at hnone
        omega

/-- A row that is rejected fails: `row_rejected` reads the verdict of the buffer, and what was
decided stands. -/
theorem Judging.of_rejected (h : b.Judging t cur full verdict) (hr : b.rowRejected = true) :
    verdict = .fail ∧ b.buffering = true ∧ ¬ b.IsDirect ∧
      ∀ buf, b.rowBuf = some buf → buf.state = .fail := by
  have hstate : ∀ buf, b.rowBuf = some buf → buf.state = .fail := by
    intro buf hbuf
    rw [rowRejected, hbuf, Bool.and_eq_true, Option.any_some, beq_iff_eq] at hr
    exact hr.2
  have hfail : ∀ buf, b.rowBuf = some buf → buf.state.Refines verdict → verdict = .fail := by
    intro buf hbuf hrefines
    rw [hstate buf hbuf] at hrefines
    exact hrefines (by simp [Verdict.Decided])
  cases h with
  | columns h hnot => cases hnot.symm.trans hr
  | buffered buf h hrefines =>
      refine ⟨hfail buf h.rowBuf hrefines, h.buffering, ?_, hstate⟩
      rw [IsDirect, h.rowBuf, Option.any_some, h.direct]
      exact Bool.false_ne_true
  | drained buf held h _ _ hrefines hpass =>
      have hfail := hfail buf h.rowBuf hrefines
      rw [hpass] at hfail
      cases hfail

/-- **The end of a row keeps it exactly when it passes**, in every mode. A buffered row is judged on
its values with missing ones as nulls; a row in the columns is checked there, where the two
evaluators agree; and a row that was drained in the middle has passed on a part, and what is decided
on a part stands. -/
theorem RowMode.keepsRow_iff (h : b.RowMode t cur) (ho : b.InOrder t) (hj : b.Judging t' cur' full verdict)
    (hf : b.plan.filter = some f)
    (hverdict : evalPredicateWithNull b.plan (rowGet b.plan full) f = verdict)
    (hagrees : FilterAgrees b.plan full f) (hdrop : ∀ name ∈ b.plan.dropFields, full name = none)
    (hrest : cur = full ∨ b.rowRejected = true) :
    b.keepsRow = (verdict == .pass) ∧ (b.keepsRow = true → cur = full) := by
  -- either all of the row was put, or the caller stopped at its rejection
  rcases hrest with rfl | hrejected
  · refine ⟨?_, fun _ => rfl⟩
    cases h with
    | columns h =>
        -- in column mode `check` reads the cells of the row
        have heval := (h.showsRow ho).agrees (fun field hfield => finds_of_filter hf hdrop hfield) hagrees
        rw [keepsRow, h.buffering, hf, ← hverdict, heval]
        dsimp only [Bool.not_false, ↓reduceIte]
        cases f.check b.nullFill.columns b.fieldIndex b.rowCount b.plan <;> rfl
    | buffered buf h =>
        have hrefines : buf.state.Refines verdict := by
          cases hj with
          | columns h' _ => cases h'.buffering.symm.trans h.buffering
          | buffered buf' h' hrefines =>
              obtain rfl := Option.some.inj (h'.rowBuf.symm.trans h.rowBuf)
              exact hrefines
          | drained buf' _ h' _ _ hrefines _ =>
              obtain rfl := Option.some.inj (h'.rowBuf.symm.trans h.rowBuf)
              exact hrefines
        have hnull : b.evaluateAgainstNull = verdict := by
          rw [evaluateAgainstNull, hf, h.getBufferedValue]
          exact hverdict
        rw [keepsRow, h.buffering, h.rowBuf, hnull]
        simp only [Bool.not_true, Bool.false_eq_true, ↓reduceIte, h.direct, Bool.false_or]
        -- an undecided buffer is evaluated against null, and a decided one has the verdict
        -- already
        by_cases hstate : buf.state = .undecided
        · rw [if_pos hstate]
          cases verdict <;> rfl
        · rw [if_neg hstate, ← hrefines hstate]
          cases verdict <;> rfl
    | drained buf h =>
        -- a drain in the middle of the row is made on a Pass only
        have hpass : verdict = .pass := by
          cases hj with
          | columns h' _ => cases h'.buffering.symm.trans h.buffering
          | buffered buf' h' _ =>
              obtain rfl := Option.some.inj (h'.rowBuf.symm.trans h.rowBuf)
              cases h'.direct.symm.trans h.direct
          | drained _ _ _ _ _ _ hpass => exact hpass
        rw [keepsRow, h.buffering, h.rowBuf, hpass]
        simp only [Bool.not_true, Bool.false_eq_true, ↓reduceIte, h.direct, Bool.true_or]
        rfl
  · obtain ⟨rfl, hbuf, hdirect, hstate⟩ := hj.of_rejected hrejected
    have hnot : b.keepsRow = false := by
      obtain ⟨buf, hsome⟩ : ∃ buf, b.rowBuf = some buf := by
        rw [rowRejected] at hrejected
        cases hb : b.rowBuf with
        | none =>
            rw [hb, Option.any_none, Bool.and_false] at hrejected
            cases hrejected
        | some buf => exact ⟨buf, rfl⟩
      rw [IsDirect, hsome, Option.any_some, Bool.not_eq_true] at hdirect
      rw [keepsRow, hbuf, hsome]
      simp only [Bool.not_true, Bool.false_eq_true, ↓reduceIte, hdirect, hstate buf hsome]
      rfl
    rw [hnot]
    exact ⟨rfl, fun hx => by cases hx⟩

/-- The puts of some fields of a record are of the row it makes. -/
theorem freshPut_putsOf (hadmits : b.AdmitsAll) {entry : EntryPoint}
    {fields done : List (String × Value)} (hdone : done <+: fields)
    (hdistinct : ((planValues b.plan fields).map Prod.fst).Nodup) {p : Put}
    (hp : p ∈ putsOf b.plan entry done) : b.FreshPut noRow (fieldsRow b.plan fields) p := by
  refine ⟨fun name _ => hadmits.exactWithout name, fun _ _ => rfl, fun name htarget => ?_⟩
  have hmem : (name, p.value) ∈ planValues b.plan fields := by
    obtain ⟨rest, rfl⟩ := hdone
    rw [planValues, List.filterMap_append, ← planValues, ← targets_putsOf b.plan entry done]
    refine List.mem_append_left _ (List.mem_filterMap.mpr ⟨p, hp, ?_⟩)
    rw [htarget]
    rfl
  exact rowOf_of_mem hdistinct hmem

/-- The targets of the puts are the names of the values. -/
theorem nodup_targets {plan : ExecutionPlan} {entry : EntryPoint} {fields : List (String × Value)}
    (h : ((planValues plan fields).map Prod.fst).Nodup) :
    ((putsOf plan entry fields).filterMap fun p => p.target plan).Nodup := by
  have heq : (planValues plan fields).map Prod.fst =
      (putsOf plan entry fields).filterMap fun p => p.target plan := by
    rw [← targets_putsOf plan entry fields, List.map_filterMap]
    refine List.filterMap_congr fun p _ => ?_
    cases p.target plan <;> rfl
  exact heq ▸ h

/-- A prefix of the values has distinct names. -/
theorem nodup_planValues_of_prefix {plan : ExecutionPlan} {fields done : List (String × Value)}
    (hdone : done <+: fields) (h : ((planValues plan fields).map Prod.fst).Nodup) :
    ((planValues plan done).map Prod.fst).Nodup := by
  obtain ⟨rest, rfl⟩ := hdone
  rw [planValues, List.filterMap_append, List.map_append] at h
  exact (List.nodup_append.mp h).1

/-- Puts declare no column exactly when they have no target, so a run of dropped fields leaves a
builder without columns. -/
theorem RowMode.names_declarePuts (h : b.RowMode t cur) (hadmits : b.AdmitsAll) {puts : List Put}
    (hk : b.KeepsAll puts) :
    (b.declarePuts t puts).names = [] ↔ t.names = [] ∧ ∀ p ∈ puts, p.target b.plan = none := by
  induction puts generalizing b t cur with
  | nil => exact ⟨fun hnil => ⟨hnil, fun p hp => absurd hp List.not_mem_nil⟩, And.left⟩
  | cons p puts ih =>
      obtain ⟨h', hsame⟩ := h.put hk.1
      rw [declarePuts, ih h' (plan_put hadmits p).2 hk.2, hsame.plan, List.forall_mem_cons, declarePut]
      cases p.target b.plan with
      | none => exact and_congr_right fun _ => ⟨fun hputs => ⟨rfl, hputs⟩, And.right⟩
      | some name =>
          dsimp only
          rw [declareFor_of_none (hadmits.exactWithout name)]
          have hmem : name ∈ (t.declare name (b.plan.columnType name)).names :=
            (RowTable.mem_names_declare t name name _).mpr (.inr rfl)
          refine ⟨fun hnil => absurd (hnil.1 ▸ hmem) List.not_mem_nil, fun hnil => ?_⟩
          exact absurd hnil.2.1 (Option.some_ne_none name)

/-- The puts of some fields declare no column exactly when the plan keeps none of them. -/
theorem names_declarePuts (h : b.RowMode t cur) (hadmits : b.AdmitsAll) {entry : EntryPoint}
    {fields : List (String × Value)} (hk : b.KeepsAll (putsOf b.plan entry fields)) :
    (b.declarePuts t (putsOf b.plan entry fields)).names = [] ↔
      t.names = [] ∧ planValues b.plan fields = [] := by
  rw [h.names_declarePuts hadmits hk, ← targets_putsOf b.plan entry fields,
    List.filterMap_eq_nil_iff]
  simp only [Option.map_eq_none_iff]

/-- Fields that the plan drops change nothing. -/
theorem putAll_putsOf {entry : EntryPoint} {fields : List (String × Value)}
    (h : planValues b.plan fields = []) : b.putAll (putsOf b.plan entry fields) = b := by
  rw [← targets_putsOf b.plan entry fields, List.filterMap_eq_nil_iff] at h
  exact putAll_of_dropped fun p hp => Option.map_eq_none_iff.mp (h p hp)

/-- A row is not rejected before it has a value. -/
theorem rowRejected_beginRow (b : TableBuilder) : b.beginRow.rowRejected = false := by
  show (b.plan.filter.isSome && (b.rowBuf.map _).any _) = false
  cases b.rowBuf <;> simp

/-- A record of which the builder keeps the puts is committed exactly when it passes. This is
`begin_row`, the puts of the entry point, and `end_row`, for an adapter that may leave the rest of a
row that is reported as rejected: what it leaves out would not have changed the verdict. -/
theorem Between.send_of_keeps (h : b.Between t) (ho : b.InOrder t) (hadmits : b.AdmitsAll) {r : Sent}
    {done : List (String × Value)} (hdone : done <+: r.fields)
    (hsend : b.beginRow.sendFields r.entry r.stops r.fields =
      b.beginRow.putAll (putsOf b.plan r.entry done))
    (hcase : done = r.fields ∨ (b.beginRow.putAll (putsOf b.plan r.entry done)).rowRejected = true)
    (hkeeps : b.beginRow.KeepsAll (putsOf b.plan r.entry done))
    (hkept : (b.beginRow.putAll (putsOf b.plan r.entry done)).keepsRow = passes b.plan r ∧
      ((b.beginRow.putAll (putsOf b.plan r.entry done)).keepsRow = true →
        fieldsRow b.plan done = fieldsRow b.plan r.fields)) :
    ∃ t', (b.send r).Between t' ∧ (b.send r).InOrder t' ∧ b.SamePlan (b.send r) ∧
      t'.rows = t.rows ++ (if passes b.plan r then [fieldsRow b.plan r.fields] else []) ∧
      (t'.names = [] ↔ t.names = [] ∧ planValues b.plan r.fields = []) := by
  obtain ⟨hbegin, hframe, -, -⟩ := h.beginRow
  have hnames := names_declarePuts hbegin hadmits hkeeps
  obtain ⟨hmode, hsame⟩ := hbegin.putAll hkeeps
  have ho' : b.beginRow.InOrder t := ho.congr rfl rfl
  have horder := hbegin.inOrder_putAll ho' hadmits hkeeps fun p hp name htarget => by
    obtain ⟨field, -, hput⟩ := List.mem_filterMap.mp hp
    have hres := (target_put hput).1.symm.trans htarget
    exact (ExecutionPlan.resolveField_eq_some hres).2
  have hcur : assignAll noRow (b.beginRow.assignments (putsOf b.plan r.entry done)) =
      fieldsRow b.plan done :=
    congrArg (assignAll noRow) (assignments_putsOf (b := b.beginRow) hadmits r.entry done)
  rw [hcur] at hmode
  -- a row that is rejected has been given a value
  have hwhole : planValues b.plan done = [] → done = r.fields := by
    intro hnone
    refine hcase.resolve_right fun hrejected => ?_
    have hputs : b.beginRow.putAll (putsOf b.plan r.entry done) = b.beginRow := putAll_putsOf hnone
    rw [hputs, rowRejected_beginRow] at hrejected
    cases hrejected
  obtain ⟨hpasses, hall⟩ := hkept
  rw [← hsend] at hmode hsame horder hpasses hall
  obtain ⟨hend, hsame'⟩ := hmode.endRow
  refine ⟨_, hend, horder.endRow hmode.within hsame', hframe.samePlan.trans (hsame.trans hsame'), ?_, ?_⟩
  · rw [endTable]
    split
    · next hkeep =>
      rw [if_pos (hpasses ▸ hkeep), ← hall hkeep]
      show (b.beginRow.declarePuts t _).rows ++ [_] = _
      rw [rows_declarePuts]
    · next hkeep =>
      rw [if_neg (hpasses ▸ hkeep), List.append_nil, rows_declarePuts]
  · have hcols : ((b.beginRow.sendFields r.entry r.stops r.fields).endTable _ _ hmode.within).names =
        (b.beginRow.declarePuts t (putsOf b.plan r.entry done)).names := by
      rw [endTable]
      split <;> rfl
    rw [hcols]
    refine hnames.trans (and_congr_right fun _ => ⟨fun hnone => ?_, fun hnone => ?_⟩)
    · rw [← hwhole hnone]
      exact hnone
    · obtain ⟨rest, hrest⟩ := hdone
      rw [← hrest, planValues, List.filterMap_append] at hnone
      exact (List.append_eq_nil_iff.mp hnone).1

/-- **A record that is sent is committed exactly when it passes**, by any entry point, in any mode, and
whether or not the adapter reads on once it is rejected. -/
theorem Between.send (h : b.Between t) (ho : b.InOrder t) (hadmits : b.AdmitsAll) {r : Sent}
    (hr : ReadsAlike b.plan r) :
    ∃ t', (b.send r).Between t' ∧ (b.send r).InOrder t' ∧ b.SamePlan (b.send r) ∧
      t'.rows = t.rows ++ (if passes b.plan r then [fieldsRow b.plan r.fields] else []) ∧
      (t'.names = [] ↔ t.names = [] ∧ planValues b.plan r.fields = []) := by
  obtain ⟨done, hdone, hsend, hcase⟩ :=
    sendFields_eq (b := b.beginRow) hadmits r.entry r.stops r.fields
  cases hf : b.plan.filter with
  | none =>
      -- the values go to the columns, and every row is kept
      have hdirect := h.beginRow_direct hf
      have hkeeps := hdirect.keepsAll (putsOf b.plan r.entry done)
      obtain ⟨-, hsame⟩ := RowMode.putAll (.columns hdirect) hkeeps
      have hplan : (b.beginRow.putAll (putsOf b.plan r.entry done)).plan.filter = none := by
        rw [hsame.plan]
        exact hf
      have hrejected : (b.beginRow.putAll (putsOf b.plan r.entry done)).rowRejected = false := by
        rw [rowRejected, hplan]
        rfl
      have hdone' : done = r.fields := hcase.resolve_right (Bool.eq_false_iff.mp hrejected)
      refine h.send_of_keeps ho hadmits hdone hsend hcase hkeeps ⟨?_, fun _ => by rw [hdone']⟩
      rw [keepsRow, buffering, passes, hplan, hf]
      rfl
  | some f =>
      have halike := hr f hf
      obtain ⟨hbegin, -, -, -⟩ := h.beginRow
      have hdistinct := nodup_planValues_of_prefix hdone halike.distinct
      obtain ⟨hkeeps, hsteady⟩ := hbegin.sending hadmits r.entry (fun _ => b.not_isDirect_beginRow)
        hdistinct (fun _ _ => rfl) fun fields hfields => halike.steady fields (hfields.trans hdone)
      obtain ⟨hmode, hsame⟩ := hbegin.putAll hkeeps
      have ho' : b.beginRow.InOrder t := ho.congr rfl rfl
      have horder := hbegin.inOrder_putAll ho' hadmits hkeeps fun p hp name htarget => by
        obtain ⟨field, -, hput⟩ := List.mem_filterMap.mp hp
        have hres := (target_put hput).1.symm.trans htarget
        exact (ExecutionPlan.resolveField_eq_some hres).2
      have hcur : assignAll noRow (b.beginRow.assignments (putsOf b.beginRow.plan r.entry done)) =
          fieldsRow b.plan done :=
        congrArg (assignAll noRow) (assignments_putsOf (b := b.beginRow) hadmits r.entry done)
      rw [hcur] at hmode
      obtain ⟨t', cur', hjudging⟩ := (h.judging (fieldsRow b.plan r.fields) _).putAll
        (fun name value hv => by cases hv) (f := f) hf rfl (nodup_targets hdistinct)
        (fun p hp => freshPut_putsOf (b := b.beginRow) hadmits hdone halike.distinct hp) hsteady
      have hplan : (b.beginRow.putAll (putsOf b.beginRow.plan r.entry done)).plan = b.plan := hsame.plan
      obtain ⟨hkept, hall⟩ := hmode.keepsRow_iff horder hjudging (hplan ▸ hf) (by rw [hplan]; rfl)
        (by rw [hplan]; exact halike.agrees)
        (by rw [hplan]; exact fun name hname => fieldsRow_of_dropped hname r.fields)
        (hcase.imp_left fun hdone => by rw [hdone])
      refine h.send_of_keeps ho hadmits hdone hsend hcase hkeeps ⟨hkept.trans ?_, hall⟩
      rw [passes, hf]
      rfl

/-- **A run accepts the records that pass**, in order. By induction on the records: each is
committed or leaves no row, and the builder is between rows again. -/
theorem Between.sendAll (h : b.Between t) (ho : b.InOrder t) (hadmits : b.AdmitsAll)
    {rows : List Sent} (hrows : ∀ r ∈ rows, ReadsAlike b.plan r) :
    ∃ t', (b.sendAll rows).Between t' ∧ (b.sendAll rows).InOrder t' ∧ b.SamePlan (b.sendAll rows) ∧
      t'.rows = t.rows ++ (rows.filter (passes b.plan)).map (fun r => fieldsRow b.plan r.fields) ∧
      (t'.names = [] ↔ t.names = [] ∧ ∀ r ∈ rows, planValues b.plan r.fields = []) := by
  induction rows generalizing b t with
  | nil => exact ⟨t, h, ho, .refl b, by simp, by simp⟩
  | cons r rows ih =>
      obtain ⟨t₁, h₁, ho₁, hsame₁, hrows₁, hnames₁⟩ :=
        h.send ho hadmits (hrows r List.mem_cons_self)
      obtain ⟨t₂, h₂, ho₂, hsame₂, hrows₂, hnames₂⟩ := ih h₁ ho₁ (hadmits.congr hsame₁.frozen)
        fun q hq => by
          rw [hsame₁.plan]
          exact hrows q (List.mem_cons_of_mem _ hq)
      refine ⟨t₂, h₂, ho₂, hsame₁.trans hsame₂, ?_, ?_⟩
      · rw [hrows₂, hrows₁, hsame₁.plan, List.append_assoc]
        cases hpass : passes b.plan r with
        | true => rw [List.filter_cons_of_pos hpass]; rfl
        | false => rw [List.filter_cons_of_neg (by simp [hpass])]; rfl
      · rw [hnames₂, hnames₁, hsame₁.plan, List.forall_mem_cons, and_assoc]

end Records

end TableBuilder

end Rypipe
