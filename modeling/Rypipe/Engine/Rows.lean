import Rypipe.Engine.Layout

/-! # What one row does to a builder

The invariant of a builder while a row is being read. A row is in one of three modes: its values go
straight to the columns (`RowMode.columns`), they wait in the row buffer (`RowMode.buffered`), or
the filter has passed in the middle of the row and the rest goes to columns that already count the
row (`RowMode.drained`). In each mode the state determines the table of the committed rows and the
row in progress. -/

namespace Rypipe

variable [Platform]

/-- A put through one of the name-based entry points. -/
inductive Put where
  | field (name : String) (value : Value)
  | fieldResolved (name : String) (value : Value)
  | resolveAndPut (name : String) (value : Value)

/-- The value put. -/
def Put.value : Put → Value
  | .field _ v | .fieldResolved _ v | .resolveAndPut _ v => v

/-- The output name the value is for; `none` when the plan drops the field. -/
def Put.target (plan : ExecutionPlan) : Put → Option String
  | .field name _ | .resolveAndPut name _ => plan.resolveField name
  | .fieldResolved name _ => some name

namespace TableBuilder

/-- Run a put. -/
def put (b : TableBuilder) : Put → TableBuilder
  | .field name v => b.putField name v
  | .fieldResolved name v => b.putFieldResolved name v
  | .resolveAndPut name v => b.resolveAndPut name v

/-- The table after a value came for `name`: the column exists, unless an exact frozen layout
refuses it. -/
def declareFor (b : TableBuilder) (t : Table) (name : String) : Table :=
  if (b.exactWithout name).isSome then t else t.declare name (b.plan.columnType name)

/-- The row in progress after a value came for `name`. -/
def assignFor (b : TableBuilder) (cur : CurrentRow) (name : String) (value : Value) : CurrentRow :=
  if (b.exactWithout name).isSome then cur else Function.update cur name (some value)

@[simp] theorem rows_declareFor (b : TableBuilder) (t : Table) (name : String) :
    (b.declareFor t name).rows = t.rows := by
  rw [declareFor]
  split
  · rfl
  · exact RowTable.rows_declare t name _

/-- The builder's columns, index, order and frozen layout describe the table `t` with the row `cur`
in progress. -/
structure Sound (b : TableBuilder) (t : Table) (cur : CurrentRow) : Prop where
  holds : b.Holds t cur
  order : b.columnOrder.Perm t.names
  known : ∀ frozen, b.frozen = some frozen → ∀ name ∈ frozen.names, name ∈ t.names
  rowBuf : b.rowBuf.isSome = b.plan.filter.isSome

/-- What no put changes outside the row buffer. -/
structure Frame (b b' : TableBuilder) : Prop where
  rowCount : b'.rowCount = b.rowCount
  plan : b'.plan = b.plan
  frozen : b'.frozen = b.frozen

theorem Frame.refl (b : TableBuilder) : b.Frame b := ⟨rfl, rfl, rfl⟩

theorem Frame.trans {b b' b'' : TableBuilder} (h : b.Frame b') (h' : b'.Frame b'') : b.Frame b'' :=
  ⟨h'.rowCount.trans h.rowCount, h'.plan.trans h.plan, h'.frozen.trans h.frozen⟩

/-- A name that is not withheld by an exact layout, or already a column. -/
theorem exactWithout_of_mem {b : TableBuilder} {name : String} (h : name ∈ b.fieldIndex) :
    b.exactWithout name = none := if_pos h

/-- A new name goes to a position of the export order that exists. -/
theorem schemaInsertIndex_le (b : TableBuilder) (name : String) :
    b.schemaInsertIndex name ≤ b.columnOrder.length := by
  simp only [schemaInsertIndex]
  split
  · exact le_rfl
  · split
    · next p _ =>
      generalize hfind : b.columnOrder.findIdx? _ = found
      cases found with
      | none => exact le_rfl
      | some i => exact (List.findIdx?_eq_some_iff_findIdx_eq.mp hfind).1.le
    · exact le_rfl

/-- A name that the projection does not have goes last, and so does every name without a
projection. -/
theorem schemaInsertIndex_of_notMem {b : TableBuilder} {name : String} (h : name ∉ b.plan.schemaOrder) :
    b.schemaInsertIndex name = b.columnOrder.length := by
  have hposition : b.plan.schemaOrder.findIdx? (· == name) = none := by
    rw [List.findIdx?_eq_none_iff]
    intro n hn
    rw [beq_eq_false_iff_ne]
    rintro rfl
    exact h hn
  simp only [schemaInsertIndex, hposition]
  split <;> rfl

/-- A new column declares its name, in a builder that knows how many rows it has. -/
theorem Sound.createColumn {b : TableBuilder} {t : Table} {cur : CurrentRow}
    (h : b.Sound t cur) (hback : b.backfill = t.rows.length) {name : String}
    (hname : name ∉ t.names) :
    (b.createColumn name).Sound (t.declare name (b.plan.columnType name)) cur := by
  have hcol := (ColumnBuilder.ofType_stores (b.plan.columnType name)).pushNulls b.backfill
  rw [List.nil_append, hback] at hcol
  have hnames : (t.declare name (b.plan.columnType name)).names = t.names ++ [name] := by
    rw [RowTable.names, RowTable.cols_declare_of_notMem hname, List.map_append]
    rfl
  refine ⟨h.holds.appendColumn hname (hback ▸ hcol) (fun i => WordSet.test_growFor _ _ i) ?_,
    ?_, ?_, h.rowBuf⟩
  · have hcap := WordSet.capacity_growFor (w := 64) (by decide) b.rowDirty
      (b.columns ++ [(ColumnBuilder.ofType (b.plan.columnType name)).pushNulls b.backfill]).length
    exact le_trans (by rw [List.length_append, List.length_singleton]) hcap
  · rw [hnames]
    refine (List.perm_insertIdx name b.columnOrder (b.schemaInsertIndex_le name)).trans ?_
    exact (List.Perm.cons name h.order).trans (List.perm_append_singleton name t.names).symm
  · intro frozen hf n hn
    rw [hnames]
    exact List.mem_append_left _ (h.known frozen hf n hn)

/-- Making sure of a column declares it: it is found, or created with as many nulls as there are
rows before the one in progress. -/
theorem Sound.ensureColumnIdx {b : TableBuilder} {t : Table} {cur : CurrentRow}
    (h : b.Sound t cur) (hback : b.backfill = t.rows.length) {name : String}
    (hname : b.exactWithout name = none) :
    ∃ b' slot ty, b.ensureColumnIdx name = (b', slot) ∧
      b'.Sound (t.declare name (b.plan.columnType name)) cur ∧
      (t.declare name (b.plan.columnType name)).cols[slot]? = some (name, ty) ∧
      b.Frame b' ∧ b'.rowBuf = b.rowBuf ∧ b'.unknownError = b.unknownError := by
  cases hlook : b.fieldIndex.lookup name with
  | some slot =>
      obtain ⟨ty, hty⟩ := h.holds.cols_of_lookup hlook
      have hmem : name ∈ t.names := List.mem_map_of_mem (List.mem_of_getElem? hty)
      rw [RowTable.declare_of_mem hmem]
      refine ⟨b, slot, ty, ?_, h, hty, .refl b, rfl, rfl⟩
      rw [TableBuilder.ensureColumnIdx, hlook]
  | none =>
      have hnot := (h.holds.lookup_eq_none name).mp hlook
      refine ⟨b.createColumn name, b.columns.length, b.plan.columnType name, ?_,
        h.createColumn hback hnot, ?_, ⟨rfl, rfl, rfl⟩, rfl, rfl⟩
      · rw [TableBuilder.ensureColumnIdx, hlook, hname]
      · rw [RowTable.cols_declare_of_notMem hnot, h.holds.size]
        simp

/-- Pushing a value to the columns: the column exists and holds the value as the cell of the row in
progress, unless an exact layout refuses the name. -/
theorem Sound.pushFieldResolved {b : TableBuilder} {t : Table} {cur : CurrentRow}
    (h : b.Sound t cur) (hback : b.backfill = t.rows.length) {name : String} (value : Value)
    (hrow : b.rowCount = t.rows.length ∨ (b.rowCount = t.rows.length + 1 ∧ cur name = none)) :
    (b.pushFieldResolved name value).Sound (b.declareFor t name) (b.assignFor cur name value) ∧
      b.Frame (b.pushFieldResolved name value) ∧
      (b.pushFieldResolved name value).rowBuf = b.rowBuf := by
  rw [TableBuilder.pushFieldResolved, declareFor, assignFor]
  cases hname : b.exactWithout name with
  | some frozen => exact ⟨⟨h.holds, h.order, h.known, h.rowBuf⟩, ⟨rfl, rfl, rfl⟩, rfl⟩
  | none =>
      obtain ⟨b', slot, ty, heq, hs, hslot, hframe, hbuf, -⟩ := h.ensureColumnIdx hback hname
      rw [heq]
      have hrow' : b'.rowCount = (t.declare name (b.plan.columnType name)).rows.length ∨
          (b'.rowCount = (t.declare name (b.plan.columnType name)).rows.length + 1 ∧
            cur name = none) := by
        rw [hframe.rowCount, RowTable.rows_declare]
        exact hrow
      exact ⟨⟨hs.holds.write hslot value hrow', hs.order, hs.known, hs.rowBuf⟩,
        ⟨hframe.rowCount, hframe.plan, hframe.frozen⟩, hbuf⟩

/-- `push_field` resolves the name and pushes; a field that is dropped does nothing, not even count
an ordinal. -/
theorem pushField_eq (b : TableBuilder) (name : String) (value : Value) :
    b.pushField name value =
      match b.plan.resolveField name with
      | some resolved => b.pushFieldResolved resolved value
      | none => b := by
  by_cases hplain : b.plan.isPlain = true
  · rw [pushField, if_pos hplain, ExecutionPlan.resolveField_of_isPlain hplain]
  · rw [pushField, if_neg hplain]
    cases hres : b.plan.resolveField name with
    | none => simp [resolveAndSlot, hres]
    | some resolved =>
        cases hlook : b.fieldIndex.lookup resolved with
        | none => simp [resolveAndSlot, hres, hlook]
        | some idx =>
            have hmem : resolved ∈ b.fieldIndex := by
              rw [← AList.lookup_isSome, hlook]
              rfl
            have hplan : ((b.recordStrictViolationAt idx value).notifyPutField idx value).plan =
                b.plan := rfl
            simp [resolveAndSlot, hres, hlook, pushFieldResolved, exactWithout_of_mem hmem,
              ensureColumnIdx, hplan]

/-- The direct path of `resolve_and_put` resolves the name and pushes. -/
theorem resolveAndPush_eq (b : TableBuilder) (name : String) (value : Value) :
    b.resolveAndPush name value =
      match b.plan.resolveField name with
      | some resolved => b.pushFieldResolved resolved value
      | none => b := by
  by_cases hplain : b.plan.isPlain = true
  · rw [resolveAndPush, if_pos hplain, ExecutionPlan.resolveField_of_isPlain hplain]
  · cases hres : b.plan.resolveField name <;> simp [resolveAndPush, hplain, hres]

/-- Without buffering, every entry point resolves the name and pushes. -/
theorem put_of_not_buffering {b : TableBuilder} (h : b.buffering = false) (p : Put) :
    b.put p =
      match p.target b.plan with
      | some name => b.pushFieldResolved name p.value
      | none => b := by
  cases p with
  | field name value =>
      rw [put, putField, h]
      exact pushField_eq b name value
  | fieldResolved name value =>
      rw [put, putFieldResolved, h]
      rfl
  | resolveAndPut name value =>
      rw [put, resolveAndPut, h]
      exact resolveAndPush_eq b name value

end TableBuilder

end Rypipe
