import Rypipe.Engine.Buffer

/-! # What the row interface leaves alone

Apart from the columns a put declares and the errors it records, no call of the row interface
changes what columns a builder has (`SameColumns`) or which errors it remembers (`Quiet`). This holds
in every state of a builder, whatever its columns contain. -/

namespace Rypipe

variable [Platform]

namespace ColumnBuilder

@[simp] theorem kind_pop (c : ColumnBuilder) : c.pop.kind = c.kind := by
  cases c <;> rfl

@[simp] theorem kind_iterate_pop (n : Nat) (c : ColumnBuilder) : (pop^[n] c).kind = c.kind := by
  induction n generalizing c with
  | zero => rfl
  | succ n ih => rw [Function.iterate_succ_apply, ih, kind_pop]

@[simp] theorem kind_pushStr (c : ColumnBuilder) (value : Option String) :
    (c.pushStr value).kind = c.kind := by
  cases c with
  | dictionary codes dict => cases value <;> rfl
  | _ => rfl

@[simp] theorem kind_push_none (c : ColumnBuilder) : (c.push none).kind = c.kind :=
  kind_pushStr c none

@[simp] theorem kind_pushNulls (n : Nat) (c : ColumnBuilder) : (c.pushNulls n).kind = c.kind := by
  induction n generalizing c with
  | zero => rfl
  | succ n ih =>
      have hstep : c.pushNulls (n + 1) = (c.push none).pushNulls n := rfl
      rw [hstep, ih, kind_push_none]

/-- A native value does not change the type of a column when its native arms do not. -/
theorem kind_pushNative (c : ColumnBuilder) (text : String) {native : Option ColumnBuilder}
    (h : ∀ c', native = some c' → c'.kind = c.kind) : (c.pushNative text native).kind = c.kind := by
  cases native with
  | some c' => exact h c' rfl
  | none =>
      cases c with
      | _ => rfl

@[simp] theorem kind_pushValue (c : ColumnBuilder) (value : Value) :
    (c.pushValue value).kind = c.kind := by
  cases value with
  | null => exact kind_push_none c
  | str s => exact kind_pushStr c (some s)
  | _ =>
      refine kind_pushNative c _ fun c' h => ?_
      cases c <;> simp at h <;> subst h <;> rfl

@[simp] theorem kind_overwrite (rowCount : Nat) (value : Value) (c : ColumnBuilder) :
    (TableBuilder.overwrite rowCount value c).kind = c.kind := by
  rw [TableBuilder.overwrite, kind_pushValue]
  split
  · exact kind_pop c
  · rfl

end ColumnBuilder

namespace TableBuilder

/-- The types of the columns, by slot. -/
def kinds (b : TableBuilder) : List FieldType := b.columns.map ColumnBuilder.kind

/-- `b'` has the columns of `b`, whatever they contain, under the same plan and layout. -/
structure SameColumns (b b' : TableBuilder) : Prop where
  kinds : b'.kinds = b.kinds
  index : b'.fieldIndex = b.fieldIndex
  order : b'.columnOrder = b.columnOrder
  plan : b'.plan = b.plan
  frozen : b'.frozen = b.frozen

/-- A builder has its own columns. -/
theorem SameColumns.refl (b : TableBuilder) : b.SameColumns b := ⟨rfl, rfl, rfl, rfl, rfl⟩

/-- Having the same columns is transitive: types, index, order, plan and layout are compared one by
one. -/
theorem SameColumns.trans {b b' b'' : TableBuilder} (h : b.SameColumns b')
    (h' : b'.SameColumns b'') : b.SameColumns b'' :=
  ⟨h'.kinds.trans h.kinds, h'.index.trans h.index, h'.order.trans h.order, h'.plan.trans h.plan,
    h'.frozen.trans h.frozen⟩

/-- `b'` has the columns of `b` and remembers the same errors. -/
structure Quiet (b b' : TableBuilder) : Prop extends SameColumns b b' where
  unknown : b'.unknownError = b.unknownError
  strict : b'.strictError = b.strictError

/-- A step that changes nothing is quiet. -/
theorem Quiet.refl (b : TableBuilder) : b.Quiet b := ⟨.refl b, rfl, rfl⟩

/-- Two quiet steps in a row are quiet, which is how the lemmas below are put together. -/
theorem Quiet.trans {b b' b'' : TableBuilder} (h : b.Quiet b') (h' : b'.Quiet b'') : b.Quiet b'' :=
  ⟨h.toSameColumns.trans h'.toSameColumns, h'.unknown.trans h.unknown, h'.strict.trans h.strict⟩

/-- Quietness says that the columns and the errors are equal, so it is symmetric. -/
theorem Quiet.symm {b b' : TableBuilder} (h : b.Quiet b') : b'.Quiet b :=
  ⟨⟨h.kinds.symm, h.index.symm, h.order.symm, h.plan.symm, h.frozen.symm⟩, h.unknown.symm,
    h.strict.symm⟩

section Steps

variable (b : TableBuilder)

/-- An event of the observer is added to `events` only. -/
theorem quiet_notify (e : Event) : b.Quiet (b.notify e) := ⟨⟨rfl, rfl, rfl, rfl, rfl⟩, rfl, rfl⟩

/-- So is `on_put_field`, if there is an observer. -/
theorem quiet_notifyPutField (idx : Nat) (value : Value) : b.Quiet (b.notifyPutField idx value) :=
  ⟨⟨rfl, rfl, rfl, rfl, rfl⟩, rfl, rfl⟩

/-- `record_slot` writes `ordinal_expect`, not the columns. -/
theorem quiet_recordOrdinal (idx : Nat) (name : String) : b.Quiet (b.recordOrdinal idx name) :=
  ⟨⟨rfl, rfl, rfl, rfl, rfl⟩, rfl, rfl⟩

/-- A change of the row buffer leaves the columns alone. -/
theorem quiet_mapRowBuf (f : RowBuffer → RowBuffer) : b.Quiet (b.mapRowBuf f) :=
  ⟨⟨rfl, rfl, rfl, rfl, rfl⟩, rfl, rfl⟩

/-- Changing cells in place keeps the types of the columns, if the change keeps that of every
column. -/
theorem kinds_modify {columns : List ColumnBuilder} (idx : Nat) {f : ColumnBuilder → ColumnBuilder}
    (hf : ∀ c, (f c).kind = c.kind) :
    (columns.modify idx f).map ColumnBuilder.kind = columns.map ColumnBuilder.kind := by
  refine List.ext_getElem? fun i => ?_
  rw [List.getElem?_map, List.getElem?_map, List.getElem?_modify]
  split
  · next h =>
    subst h
    cases columns[idx]? with
    | none => rfl
    | some c => exact congrArg some (hf c)
  · cases columns[i]? <;> rfl

/-- A write to a slot keeps the type of its column, whether it appends a cell or overwrites the one
of this row. -/
theorem quiet_writeSlot (idx : Nat) (value : Value) : b.Quiet (b.writeSlot idx value) :=
  ⟨⟨kinds_modify idx fun c => c.kind_overwrite b.rowCount value, rfl, rfl, rfl, rfl⟩, rfl, rfl⟩

/-- The null-fill appends a missing cell to every column whose dirty bit is not set, and keeps the
types. -/
theorem quiet_nullFill : b.Quiet b.nullFill := by
  rw [nullFill]
  split
  · exact ⟨⟨rfl, rfl, rfl, rfl, rfl⟩, rfl, rfl⟩
  · refine ⟨⟨?_, rfl, rfl, rfl, rfl⟩, rfl, rfl⟩
    refine List.ext_getElem? fun i => ?_
    rw [kinds, kinds, List.getElem?_map, List.getElem?_map, List.getElem?_mapIdx, Option.map_map]
    congr 1
    funext c
    simp only [Function.comp_apply]
    split
    · rfl
    · exact c.kind_push_none

/-- Popping the last cell of every column keeps the types. -/
theorem quiet_popRow : b.Quiet b.popRow :=
  ⟨⟨by rw [kinds, popRow, List.map_map]; exact List.map_congr_left fun c _ => c.kind_pop,
    rfl, rfl, rfl, rfl⟩, rfl, rfl⟩

/-- Accepting a row counts it and tells the observer. -/
theorem quiet_acceptRow : b.Quiet b.acceptRow := ⟨⟨rfl, rfl, rfl, rfl, rfl⟩, rfl, rfl⟩

/-- Rejecting a row counts it and tells the observer. -/
theorem quiet_rejectRow : b.Quiet b.rejectRow := ⟨⟨rfl, rfl, rfl, rfl, rfl⟩, rfl, rfl⟩

/-- `finish_row` is the null-fill, and then either the count of an accepted row or the pop and the
count of a rejected one. -/
theorem quiet_finishRow : b.Quiet b.finishRow := by
  rw [finishRow]
  split
  · split
    · exact b.quiet_nullFill.trans (quiet_acceptRow _)
    · exact (b.quiet_nullFill.trans (quiet_popRow _)).trans (quiet_rejectRow _)
  · exact b.quiet_nullFill.trans (quiet_acceptRow _)

/-- Draining writes the held fields one by one, by induction on them. -/
theorem quiet_drainFields (seen : WordSet 64) (fields : List (Nat × Value)) :
    b.Quiet (b.drainFields seen fields) := by
  induction fields generalizing b seen with
  | nil => exact .refl b
  | cons p fields ih =>
      rw [drainFields]
      split
      · exact ih b seen
      · exact ((b.quiet_writeSlot p.1 p.2).trans (quiet_notifyPutField _ p.1 p.2)).trans (ih _ _)

/-- The dirty bits are no columns. -/
theorem quiet_withDirty (dirty : WordSet 64) : b.Quiet { b with rowDirty := dirty } :=
  ⟨⟨rfl, rfl, rfl, rfl, rfl⟩, rfl, rfl⟩

/-- `drain_buffered` is quiet for either verdict: it writes cells, counts the row and clears the
buffer. -/
theorem quiet_drainBuffered (pass : Bool) : b.Quiet (b.drainBuffered pass) := by
  rw [drainBuffered]
  split
  · exact .refl b
  · next buf _ =>
    split
    · have hdrained : b.Quiet (({ b with rowDirty := b.rowDirty.growFor b.columns.length } :
          TableBuilder).drainFields
            ((WordSet.empty).resize (max 1 ((b.columns.length + 63) / 64))) buf.fields.reverse) :=
        (b.quiet_withDirty _).trans (quiet_drainFields _ _ _)
      refine (hdrained.trans ?_).trans ((quiet_acceptRow _).trans (quiet_mapRowBuf _ _))
      split
      · exact .refl _
      · exact quiet_nullFill _
    · exact ((b.quiet_withDirty _).trans (quiet_rejectRow _)).trans (quiet_mapRowBuf _ _)

/-- The drain in the middle of a row is quiet, since it drains with a passing verdict. -/
theorem quiet_drainMidRow : b.Quiet b.drainMidRow :=
  (b.quiet_mapRowBuf _).trans (quiet_drainBuffered _ _)

/-- `begin_row` resets the ordinal and the mode of the row. -/
theorem quiet_beginRow : b.Quiet b.beginRow := ⟨⟨rfl, rfl, rfl, rfl, rfl⟩, rfl, rfl⟩

/-- `end_row` is quiet in every mode of the row. -/
theorem quiet_endRow : b.Quiet b.endRow := by
  rw [endRow]
  split
  · exact b.quiet_finishRow
  · split
    · exact b.quiet_drainBuffered true
    · split
      · exact b.quiet_nullFill
      · exact b.quiet_drainBuffered _

/-- Marking a column of the filter writes the mask of the row buffer. -/
theorem quiet_markPredicateSlot (slot : Nat) : b.Quiet (b.markPredicateSlot slot) := by
  obtain ⟨f, hf, -⟩ := b.markPredicateSlot_eq slot
  rw [hf]
  exact b.quiet_mapRowBuf f

/-- The evaluation after a buffered put writes the verdict of the row buffer. -/
theorem quiet_evaluateRow (slot : Nat) : b.Quiet (b.evaluateRow slot) := by
  obtain ⟨g, hg, -⟩ := b.evaluateRow_eq slot
  rw [hg]
  exact b.quiet_mapRowBuf g

end Steps

/-! ## Puts -/

/-- A call of the row interface. -/
inductive Call where
  | beginRow
  | put (p : Put)
  | putFieldAt (slot : Nat) (value : Value)
  | putStrAt (slot : Nat) (value : String)
  | endRow

/-- Run a call. -/
def call (b : TableBuilder) : Call → TableBuilder
  | .beginRow => b.beginRow
  | .put p => b.put p
  | .putFieldAt slot value => b.putFieldAt slot value
  | .putStrAt slot value => b.putStrAt slot value
  | .endRow => b.endRow

/-- Run a list of calls. -/
def callAll (b : TableBuilder) (calls : List Call) : TableBuilder := calls.foldl call b

/-- A value put to a slot is checked against the declared type, and written. -/
theorem quiet_putFieldAt (b : TableBuilder) {slot : Nat} (h : slot < b.columns.length)
    (value : Value) : (b.recordStrictViolationAt slot value).Quiet (b.putFieldAt slot value) := by
  rw [putFieldAt, if_neg (Nat.not_le_of_lt h)]
  exact (quiet_notifyPutField _ slot value).trans (quiet_writeSlot _ slot value)

/-- `put_str_at` within the columns does no more than its strict check, as far as columns and errors
go. -/
theorem quiet_putStrAt (b : TableBuilder) {slot : Nat} (h : slot < b.columns.length)
    (value : String) :
    (b.recordStrictViolationAt slot (.str value)).Quiet (b.putStrAt slot value) := by
  rw [putStrAt]
  split
  · exact b.quiet_putFieldAt h (.str value)
  · rw [if_neg (Nat.not_le_of_lt h)]
    refine (quiet_notifyPutField _ slot (.str value)).trans
      ⟨⟨kinds_modify slot fun c => ?_, rfl, rfl, rfl, rfl⟩, rfl, rfl⟩
    rw [ColumnBuilder.kind_pushStr]
    split
    · exact c.kind_pop
    · rfl

/-- A value that is admitted is checked against the type of its column, which exists afterwards. -/
def admitField (b : TableBuilder) (name : String) (value : Value) : TableBuilder :=
  (b.ensureColumnIdx name).1.recordStrictViolationAt (b.ensureColumnIdx name).2 value

/-- `push_field_resolved` of an admitted name does no more than admit the field: create its column
and check its value. -/
theorem quiet_pushFieldResolved {b : TableBuilder} {name : String}
    (h : b.exactWithout name = none) (value : Value) :
    (b.admitField name value).Quiet (b.pushFieldResolved name value) := by
  rw [pushFieldResolved, h]
  exact ((quiet_notifyPutField _ _ _).trans (quiet_recordOrdinal _ _ _)).trans
    (quiet_writeSlot _ _ _)

/-- Staging a field in the buffer admits it and leaves the rest of the columns alone. -/
theorem quiet_stageField (b : TableBuilder) (name : String) (value : Value) :
    (b.admitField name value).Quiet (b.stageField name value).1 :=
  (quiet_markPredicateSlot _ _).trans (quiet_mapRowBuf _ _)

/-- A buffered put admits its field, and the evaluation after it is quiet. -/
theorem quiet_bufferField (b : TableBuilder) (name : String) (value : Value) :
    (b.admitField name value).Quiet (b.bufferField name value) := by
  have h := b.quiet_stageField name value
  simp only [bufferField]
  split
  · exact h.trans (quiet_evaluateRow _ _)
  · exact h

/-- A field the plan drops changes nothing, by whichever entry point it comes. -/
theorem put_of_dropped {b : TableBuilder} {p : Put} (h : p.target b.plan = none) : b.put p = b := by
  by_cases hbuf : b.buffering = true
  · cases p with
    | field name value =>
        have h : b.plan.resolveField name = none := h
        simp [put, putField, hbuf, h]
    | fieldResolved name value => cases h
    | resolveAndPut name value =>
        have h : b.plan.resolveField name = none := h
        simp [put, resolveAndPut, hbuf, h]
  · rw [put_of_not_buffering (by simpa using hbuf), h]

/-- **A put that is admitted declares its column, checks its value, and is quiet otherwise**, through
every entry point and in every mode. -/
theorem quiet_put {b : TableBuilder} {p : Put} {name : String} (h : p.target b.plan = some name)
    (hexact : b.exactWithout name = none) : (b.admitField name p.value).Quiet (b.put p) := by
  have hunknown : b.unknownTo name = none := by rw [unknownTo, hexact]; rfl
  by_cases hbuf : b.buffering = true
  · cases p with
    | field raw value =>
        have h : b.plan.resolveField raw = some name := h
        have hput : b.put (.field raw value) = b.bufferField name value := by
          simp [put, putField, hbuf, h, hunknown]
        rw [hput]
        exact b.quiet_bufferField name value
    | fieldResolved resolved value =>
        obtain rfl : resolved = name := Option.some.inj h
        have hput : b.put (.fieldResolved resolved value) = b.bufferField resolved value := by
          simp [put, putFieldResolved, hbuf, hunknown]
        rw [hput]
        exact b.quiet_bufferField resolved value
    | resolveAndPut raw value =>
        have h : b.plan.resolveField raw = some name := h
        have hstage := b.quiet_stageField name value
        simp only [put, resolveAndPut, hbuf, h, hunknown, Bool.not_true, Bool.false_eq_true,
          if_false]
        split
        · exact quiet_pushFieldResolved hexact value
        · split
          · have hstage := hstage.trans (quiet_evaluateRow _ (b.stageField name value).2)
            split
            · exact hstage.trans (quiet_drainMidRow _)
            · exact hstage
          · exact hstage
  · rw [put_of_not_buffering (by simpa using hbuf), h]
    exact quiet_pushFieldResolved hexact p.value

/-- **A put that an exact layout refuses** leaves the columns alone, and the builder remembers an
unknown field. This is so on every path of the entry points: each of them asks the layout before it
creates a column or touches the row buffer. -/
theorem put_refused {b : TableBuilder} {p : Put} {name : String} {frozen : FrozenSchema}
    (h : p.target b.plan = some name) (hexact : b.exactWithout name = some frozen) :
    b.SameColumns (b.put p) ∧ (b.put p).unknownError.isSome := by
  have hreport : ∀ message, b.SameColumns (b.reportUnknown message) ∧
      (b.reportUnknown message).unknownError.isSome := by
    intro message
    refine ⟨⟨rfl, rfl, rfl, rfl, rfl⟩, ?_⟩
    simp [reportUnknown]
  -- the entry points either report the name at once or on the way to its column
  have hpush : ∀ value, b.pushFieldResolved name value =
      b.reportUnknown (frozen.unknownField name fullListAdvice) := by
    intro value
    rw [pushFieldResolved, hexact]
  have hensure : b.ensureColumnIdx name =
      (b.reportUnknown (frozen.unknownField name fullListAdvice), 0) := by
    have hlookup : b.fieldIndex.lookup name = none := by
      rw [AList.lookup_eq_none]
      intro hmem
      rw [exactWithout_of_mem hmem] at hexact
      cases hexact
    rw [ensureColumnIdx, hlookup]
    simp only [hexact]
  have hfield : ∀ value, b.SameColumns (b.admitField name value) ∧
      (b.admitField name value).unknownError.isSome := by
    intro value
    rw [admitField, hensure]
    exact ⟨⟨rfl, rfl, rfl, rfl, rfl⟩, (hreport _).2⟩
  -- what follows the report keeps the error and the columns
  have hquiet : ∀ {value b'}, (b.admitField name value).Quiet b' →
      b.SameColumns b' ∧ b'.unknownError.isSome := by
    intro value b' hq
    refine ⟨(hfield value).1.trans hq.toSameColumns, ?_⟩
    rw [hq.unknown]
    exact (hfield value).2
  by_cases hbuf : b.buffering = true
  · cases p with
    | field raw value =>
        have h : b.plan.resolveField raw = some name := h
        simp only [put, putField, hbuf, h, Bool.not_true, Bool.false_eq_true, if_false]
        split
        · exact hreport _
        · exact hquiet (b.quiet_bufferField name value)
    | fieldResolved resolved value =>
        obtain rfl : resolved = name := Option.some.inj h
        simp only [put, putFieldResolved, hbuf, Bool.not_true, Bool.false_eq_true, if_false]
        split
        · exact hreport _
        · exact hquiet (b.quiet_bufferField resolved value)
    | resolveAndPut raw value =>
        have h : b.plan.resolveField raw = some name := h
        have hstage := b.quiet_stageField name value
        simp only [put, resolveAndPut, hbuf, h, Bool.not_true, Bool.false_eq_true, if_false]
        split
        · exact hreport _
        · split
          · rw [hpush]
            exact hreport _
          · split
            · have hstage := hstage.trans (quiet_evaluateRow _ (b.stageField name value).2)
              split
              · exact hquiet (hstage.trans (quiet_drainMidRow _))
              · exact hquiet hstage
            · exact hquiet hstage
  · rw [put_of_not_buffering (by simpa using hbuf), h]
    dsimp only
    rw [hpush]
    exact hreport _

end TableBuilder

end Rypipe
