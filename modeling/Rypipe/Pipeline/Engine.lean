import Rypipe.Engine.FilteredRun
import Rypipe.Pipeline.Records

/-! # The engine behind a pipeline

A source gives its rows to a builder, and what `finish` exports is read back as records. The plan of the
builder has renames, drops and a filter over abstract leaves (`FusedPlan`). A leaf is evaluated on the
texts that the engine reads in the row, under the output names of its fields; since its test is a
parameter, the builder is given the verdict on the row in the place of the filter, and does with the row
what it does under any filter. `FusedPlan.records_eq` says which records are exported. -/

namespace Rypipe.Pipeline

open TableBuilder

variable {T : Type} [Platform]

/-! ## Rows and records -/

/-- A row that the parser of a source sends to the engine, field by field. -/
structure SourceRow where
  fields : List (String × Value)
  nodup : (fields.map Prod.fst).Nodup
  /-- Whether the filter reads the row in the row buffer or in the columns: `begin_row` chooses by the
  rows before. -/
  buffered : Bool := true

/-- The calls of `put_field` for a row. -/
def SourceRow.puts (row : SourceRow) : List Put := row.fields.map fun p => .field p.1 p.2

/-- The rows of a batch as dicts. -/
def recordsOf (batch : RecordBatch) : List (Record TypedValue) :=
  (List.range batch.rowCount).map fun i =>
    .ofPairs (batch.names.zip (batch.columns.map fun a => (a.values[i]?).join))

namespace FusedPlan

variable (interp : T → List (Option TypedValue) → Bool) (plan : FusedPlan T)

/-- The plan of the builder, without the filter. -/
def names : ExecutionPlan := { fieldMap := plan.fieldMap, dropFields := plan.dropFields }

/-- The columns that a row has under the plan. -/
def cells (row : SourceRow) : CurrentRow := fieldsRow plan.names row.fields

/-- The text that a filter leaf finds under a field name: `get_buffered_str` in the row buffer, and
`get_value` in the columns. -/
def finds (row : SourceRow) (field : String) : Option TypedValue :=
  if row.buffered then
    (getBufferedStr plan.names (rowGet plan.names (plan.cells row)) field).map .str
  else cell store .string (plan.names.rename field) (plan.cells row)

/-- The verdict of the filter on a row. -/
def keeps (row : SourceRow) : Bool :=
  plan.filter.all fun tree => tree.eval (leafValue interp (plan.finds row))

/-- The plan of the builder, with a verdict in the place of the filter. -/
def deciding (verdict : Bool) : ExecutionPlan :=
  { plan.names with filter := plan.filter.map fun _ => .always verdict }

/-- The builder reads a row, on which the filter has its verdict. -/
def read (b : TableBuilder) (row : SourceRow) : TableBuilder :=
  ({ b with plan := plan.deciding (plan.keeps interp row) } : TableBuilder).row row.puts

/-- The builder after the rows of the source. -/
def run (rows : List SourceRow) : TableBuilder :=
  rows.foldl (plan.read interp) (withPlan (plan.deciding true))

/-- The records that the engine exports. -/
def records (rows : List SourceRow) : Except Error (List (Record TypedValue)) :=
  (plan.run interp rows).finish.map recordsOf

/-- The plan of a source that is read without a pipeline. -/
def bare : FusedPlan T := {}

end FusedPlan

section Pipelines

variable (interp : T → List (Option TypedValue) → Bool) (stages : List (Stage TypedValue T))
  (rows : List SourceRow)

/-- A pipeline over a source, its fusable prefix pushed into the engine and the stages left over applied to
the records of the engine. -/
def fused : Except Error (List (Record TypedValue)) := do
  let (planOverrides, remaining) := planSplit stages {}
  let plan ← (executionPlanFromKwargs planOverrides).mapError .plan
  return (← plan.records interp rows).filterMap (applyAll interp remaining)

/-- A pipeline over a source, its stages applied one after another to the records of the source. -/
def unfused : Except Error (List (Record TypedValue)) := do
  return (← FusedPlan.bare.records interp rows).filterMap (applyAll interp stages)

end Pipelines

/-! ## Rows read by `put_field` -/

section PutField

variable {b : TableBuilder} {t : Table}

/-- Where nothing is checked strictly and no name is refused, no put records an error of either
kind. -/
theorem errors_put (hadmits : b.AdmitsAll) (hstrict : b.plan.strictTypes = false) (p : Put) :
    (b.put p).unknownError = b.unknownError ∧ (b.put p).strictError = b.strictError := by
  cases htarget : p.target b.plan with
  | none =>
      rw [put_of_dropped htarget]
      exact ⟨rfl, rfl⟩
  | some name =>
      have hexact := hadmits.exactWithout name
      have hquiet := quiet_put htarget hexact
      have hensure : (b.ensureColumnIdx name).1.plan = b.plan ∧
          (b.ensureColumnIdx name).1.unknownError = b.unknownError ∧
          (b.ensureColumnIdx name).1.strictError = b.strictError := by
        rw [ensureColumnIdx]
        cases b.fieldIndex.lookup name with
        | some idx => exact ⟨rfl, rfl, rfl⟩
        | none =>
            simp only [hexact]
            exact ⟨rfl, rfl, rfl⟩
      obtain ⟨hplan, hunknown, herror⟩ := hensure
      refine ⟨hquiet.unknown.trans hunknown, hquiet.strict.trans ?_⟩
      show (if (b.ensureColumnIdx name).1.plan.strictTypes then _ else _) = _
      rw [hplan, hstrict, if_neg Bool.false_ne_true, herror]

/-- Without a layout and strict types no put of a row raises an error. By induction on the puts. -/
theorem errors_putAll (hadmits : b.AdmitsAll) (hstrict : b.plan.strictTypes = false)
    (puts : List Put) : (b.putAll puts).unknownError = b.unknownError ∧
      (b.putAll puts).strictError = b.strictError := by
  induction puts generalizing b with
  | nil => exact ⟨rfl, rfl⟩
  | cons p puts ih =>
      obtain ⟨hplan, hadmits'⟩ := plan_put hadmits p
      obtain ⟨hunknown, herror⟩ := errors_put hadmits hstrict p
      obtain ⟨hunknown', herror'⟩ := ih hadmits' (by rw [hplan]; exact hstrict)
      exact ⟨hunknown'.trans hunknown, herror'.trans herror⟩

/-- Where nothing is checked strictly, no row is an error. -/
theorem errors_row (hadmits : b.AdmitsAll) (hstrict : b.plan.strictTypes = false)
    (puts : List Put) : (b.row puts).unknownError = b.unknownError ∧
      (b.row puts).strictError = b.strictError := by
  obtain ⟨hunknown, herror⟩ := errors_putAll (b := b.beginRow) hadmits hstrict puts
  have hend := (b.beginRow.putAll puts).quiet_endRow
  exact ⟨hend.unknown.trans hunknown, hend.strict.trans herror⟩

/-- A filter without leaves reads every row alike. -/
theorem readsAlike_always {plan : ExecutionPlan} {r : Sent}
    (hfilter : ∀ f ∈ plan.filter, ∃ verdict, f = .always verdict)
    (hdistinct : ((planValues plan r.fields).map Prod.fst).Nodup) : ReadsAlike plan r := by
  intro f hf
  obtain ⟨verdict, rfl⟩ := hfilter f hf
  exact ⟨hdistinct, (fun l hl => by cases hl), fun _ _ l hl => by cases hl⟩

/-- An adapter that reads every row to its end sends all fields of a row. -/
theorem sendFields_putField (b : TableBuilder) (fields : List (String × Value)) :
    b.sendFields .putField false fields = b.putAll (putsOf b.plan .putField fields) := by
  induction fields generalizing b with
  | nil => rfl
  | cons field fields ih => exact ih (b.put (.field field.1 field.2))

/-- **A row given to `put_field`** declares its columns, and is committed if it passes. The columns
are declared for every field that the plan keeps, whether the row passes or not, so a rejected row
can still leave a column behind. -/
theorem row_fields (h : b.Between t) (ho : b.InOrder t) (hfrozen : b.frozen = none)
    (fields : List (String × Value))
    (hfilter : ∀ f ∈ b.plan.filter, ∃ verdict, f = .always verdict)
    (hdistinct : ((planValues b.plan fields).map Prod.fst).Nodup) :
    ∃ t', (b.row (putsOf b.plan .putField fields)).Between t' ∧
      (b.row (putsOf b.plan .putField fields)).InOrder t' ∧
      b.SamePlan (b.row (putsOf b.plan .putField fields)) ∧
      t'.cols = (t.declareAll (planColumns b.plan (putsOf b.plan .putField fields))).cols ∧
      t'.rows = t.rows ++
        if passes b.plan ⟨.putField, false, fields⟩ then [fieldsRow b.plan fields] else [] := by
  have hadmits : b.AdmitsAll := by
    rw [AdmitsAll, hfrozen]
    rfl
  have halike : ReadsAlike b.plan ⟨.putField, false, fields⟩ := readsAlike_always hfilter hdistinct
  have hsend : b.send ⟨.putField, false, fields⟩ = b.row (putsOf b.plan .putField fields) :=
    congrArg TableBuilder.endRow (sendFields_putField b.beginRow fields)
  obtain ⟨u, hu, hou, -, hrows, -⟩ := h.send ho hadmits halike
  rw [hsend] at hu hou
  -- the same row, with the columns it declares
  obtain ⟨hbegin, -, -, -⟩ := h.beginRow
  have hsteady : ∀ done, done <+: fields →
      Steady b.beginRow.plan (rowGet b.plan (assignAll noRow (planValues b.plan done)))
        (rowGet b.plan noRow) (.always true) := fun _ _ l hl => by cases hl
  have hkeeps : b.beginRow.KeepsAll (putsOf b.plan .putField fields) :=
    (hbegin.sending hadmits .putField (fun _ => b.not_isDirect_beginRow) hdistinct
      (fun _ _ => rfl) hsteady).1
  obtain ⟨t', ht', hsame, hcols, hrows'⟩ := h.row hkeeps
  rw [hbegin.declarePuts_eq hfrozen hkeeps, show b.beginRow.plan = b.plan from rfl] at hcols
  have hnames : u.names = t'.names := by
    refine List.ext_getElem? fun i => Option.ext fun name => ?_
    rw [← hu.sound.holds.indexed, ht'.sound.holds.indexed]
  have hput : b.rowPut (putsOf b.plan .putField fields) = fieldsRow b.plan fields := by
    rw [rowPut_eq_planRow hfrozen, planRow, targets_putsOf]
    rfl
  refine ⟨t', ht', ⟨hou.order.trans hnames, fun p hp => ?_, fun name hname hdrop => ?_⟩, hsame,
    hcols, ?_⟩
  · rw [hcols] at hp
    rw [hsame.plan]
    rcases RowTable.mem_cols_declareAll hp with hold | ⟨-, hnew⟩
    · exact ho.types p hold
    · obtain ⟨name, -, rfl⟩ := List.mem_map.mp hnew
      rfl
  · exact hnames ▸ hou.projected name hname hdrop
  · rw [hrows', hput, h.rowCount, hu.rowCount, hrows, List.length_append]
    cases passes b.plan ⟨.putField, false, fields⟩ with
    | true => rw [if_pos (by exact Nat.lt_succ_self _)]; rfl
    | false => rw [if_neg (by exact Nat.lt_irrefl _)]; exact (List.append_nil _).symm

end PutField

/-! ## What is exported -/

namespace FusedPlan

variable {interp : T → List (Option TypedValue) → Bool} {plan : FusedPlan T}

/-- The columns of the rows under the plan, in the order in which they come first. -/
def columns (plan : FusedPlan T) (rows : List SourceRow) : List String :=
  (rows.flatMap fun row => (planValues plan.names row.fields).map Prod.fst).eraseDups

/-- The row as a record of some columns. -/
def record (plan : FusedPlan T) (columns : List String) (row : SourceRow) : Record TypedValue :=
  .ofPairs (columns.map fun name => (name, cell store .string name (plan.cells row)))

@[simp] theorem resolveField_deciding (verdict : Bool) (raw : String) :
    (plan.deciding verdict).resolveField raw = plan.names.resolveField raw := rfl

/-- The verdict in the place of the filter does not change the values of a row. -/
theorem planValues_deciding (verdict : Bool) (fields : List (String × Value)) :
    planValues (plan.deciding verdict) fields = planValues plan.names fields := rfl

/-- Without casts every column is one of strings. -/
theorem columnType_deciding (verdict : Bool) (name : String) :
    (plan.deciding verdict).columnType name = .string := rfl

/-- The calls of `put_field` for a row, as the adapters make them. -/
theorem puts_eq (p : ExecutionPlan) (row : SourceRow) : putsOf p .putField row.fields = row.puts := by
  rw [putsOf, SourceRow.puts]
  exact List.filterMap_eq_map (f := fun q : String × Value => Put.field q.1 q.2) ▸ rfl

/-- A builder between rows that has seen some rows, and holds some of them. -/
structure HoldsRecords (plan : FusedPlan T) (seen kept : List SourceRow) (b : TableBuilder) :
    Prop where
  samePlan : ∃ verdict, b.plan = plan.deciding verdict
  frozen : b.frozen = none
  unknown : b.unknownError = none
  strict : b.strictError = none
  table : ∃ t, b.Between t ∧ b.InOrder t ∧ t.rows = kept.map plan.cells ∧
    t.cols = ((RowTable.empty : Table).declareAll
      (seen.flatMap fun row => planColumns plan.names row.puts)).cols

/-- A new builder holds no record. -/
theorem holdsRecords_withPlan (plan : FusedPlan T) (verdict : Bool) :
    plan.HoldsRecords [] [] (withPlan (plan.deciding verdict)) := by
  obtain ⟨hplan, hfrozen, hunknown, hstrict⟩ := withPlan_fields (plan.deciding verdict)
  exact ⟨⟨verdict, hplan⟩, hfrozen, hunknown, hstrict, RowTable.empty, between_withPlan _,
    ⟨rfl, (fun p hp => by cases hp), fun name hname => by cases hname⟩, rfl, rfl⟩

variable {seen kept : List SourceRow} {b : TableBuilder} {row : SourceRow}

/-- The builder reads a row, and holds it if the filter keeps it. The verdict of the filter takes
its place in the plan of the builder, so the row is kept or dropped by the builder's own code. -/
theorem HoldsRecords.read (h : plan.HoldsRecords seen kept b)
    (hdistinct : ((planValues plan.names row.fields).map Prod.fst).Nodup) :
    plan.HoldsRecords (seen ++ [row]) (kept ++ if plan.keeps interp row then [row] else [])
      (plan.read interp b row) := by
  obtain ⟨⟨old, hplan⟩, hfrozen, hunknown, hstrict, t, ht, ho, hrows, hcols⟩ := h
  rw [FusedPlan.read]
  generalize hdecides : plan.keeps interp row = verdict
  -- the verdict on the row replaces the one on the row before
  have ht₀ : ({ b with plan := plan.deciding verdict } : TableBuilder).Between t := by
    refine ⟨⟨ht.sound.holds, ht.sound.order, ht.sound.known, ?_⟩, ht.rowCount⟩
    have hbuf := ht.sound.rowBuf
    rw [hplan] at hbuf
    exact hbuf.trans (Option.isSome_map.trans Option.isSome_map.symm)
  have ho₀ : ({ b with plan := plan.deciding verdict } : TableBuilder).InOrder t :=
    ⟨ho.order, (fun p hp => by rw [ho.types p hp, hplan]; rfl), fun name hname => by cases hname⟩
  generalize hb : ({ b with plan := plan.deciding verdict } : TableBuilder) = b₀ at ht₀ ho₀
  have hplan₀ : b₀.plan = plan.deciding verdict := hb ▸ rfl
  have hfrozen₀ : b₀.frozen = none := hb ▸ hfrozen
  obtain ⟨t', ht', ho', hsame, hcols', hrows'⟩ := row_fields ht₀ ho₀ hfrozen₀ row.fields
    (fun f hf => by
      rw [hplan₀] at hf
      obtain ⟨tree, -, rfl⟩ := Option.map_eq_some_iff.mp hf
      exact ⟨verdict, rfl⟩)
    (by rw [hplan₀]; exact hdistinct)
  rw [puts_eq] at ht' ho' hsame hcols'
  rw [hplan₀] at hcols' hrows'
  have hadmits : b₀.AdmitsAll := by
    rw [AdmitsAll, hfrozen₀]
    rfl
  obtain ⟨hunknown', hstrict'⟩ := errors_row hadmits (by rw [hplan₀]; rfl) row.puts
  refine ⟨⟨verdict, hsame.plan.trans hplan₀⟩, hsame.frozen.trans hfrozen₀,
    hunknown'.trans (hb ▸ hunknown), hstrict'.trans (hb ▸ hstrict), t', ht', ho', ?_, ?_⟩
  · have hpasses : passes (plan.deciding verdict) ⟨.putField, false, row.fields⟩ =
        verdict := by
      rw [passes, deciding]
      cases hfilter : plan.filter with
      | none =>
          rw [← hdecides, keeps, hfilter]
          rfl
      | some tree => cases verdict <;> rfl
    rw [hrows', hpasses, hrows, List.map_append]
    cases verdict <;> rfl
  · rw [hcols', RowTable.cols_declareAll_congr hcols, List.flatMap_append, List.flatMap_singleton,
      RowTable.declareAll_append]
    rfl

/-- The names of the columns are those that the rows seen so far have put, renamed and without the
dropped ones, each once. -/
theorem HoldsRecords.names {t : Table} (hcols : t.cols = ((RowTable.empty : Table).declareAll
    (seen.flatMap fun row => planColumns plan.names row.puts)).cols) :
    t.names = plan.columns seen := by
  rw [RowTable.names, hcols, ← RowTable.names, RowTable.names_declareAll, columns,
    List.map_flatMap]
  congr 1
  refine List.flatMap_congr fun row _ => ?_
  rw [← targets_putsOf plan.names .putField, puts_eq, planColumns]
  simp only [List.map_filterMap, Option.map_map]
  rfl

/-- The records of some rows: none without a column. -/
def exported (plan : FusedPlan T) (columns : List String) (rows : List SourceRow) :
    List (Record TypedValue) :=
  if columns = [] then [] else rows.map (plan.record columns)

/-- The records of a batch of string columns are read back from its cells, and they are the records
of its rows. -/
theorem recordsOf_batchOf {u : Table} {names : List String} {rows : List SourceRow}
    (hrows : u.rows = rows.map plan.cells) (htypes : ∀ name ∈ names, u.typeOf name = some .string) :
    recordsOf (batchOf u (typed u names)) = rows.map (plan.record names) := by
  have hcolumns : ∀ i : Nat, (batchOf u (typed u names)).names.zip
      ((batchOf u (typed u names)).columns.map fun a => (a.values[i]?).join) =
      names.map fun name => (name, (rows[i]?).bind fun row =>
        cell store .string name (plan.cells row)) := by
    intro i
    have hnames : (batchOf u (typed u names)).names = names.map id := by
      rw [RecordBatch.names, batchOf, schemaOf, typed, List.map_map, List.map_map]
      rfl
    rw [hnames, batchOf, typed, List.map_map, List.map_map, List.zip_map']
    refine List.map_congr_left fun name hname => ?_
    show (name, ((u.column store name ((u.typeOf name).getD .string))[i]?).join) = _
    rw [htypes name hname, Option.getD_some, RowTable.column, hrows, List.map_map,
      List.getElem?_map]
    cases rows[i]? <;> rfl
  have hcount : (batchOf u (typed u names)).rowCount = rows.length := by
    rw [batchOf, hrows, List.length_map]
  rw [recordsOf, hcount]
  simp only [hcolumns]
  refine List.ext_getElem (by simp) fun i hi hi' => ?_
  simp only [List.getElem_map, List.getElem_range, record]
  rw [List.getElem?_eq_getElem (by simpa using hi')]
  rfl

/-- **The records of the engine**: those of the rows that the filter keeps, with the columns of all rows
that were read; and none at all where no row has a column. -/
theorem HoldsRecords.finish (h : plan.HoldsRecords seen kept b) :
    b.finish.map recordsOf = .ok (plan.exported (plan.columns seen) kept) := by
  obtain ⟨⟨verdict, hplan⟩, -, hunknown, hstrict, t, ht, ho, hrows, hcols⟩ := h
  have hnames := HoldsRecords.names hcols
  have horder : b.columnOrder = plan.columns seen := ho.order.trans hnames
  rw [exported]
  split
  · next hnone =>
    rw [finish_of_no_column hunknown hstrict (horder.trans hnone)]
    rfl
  · next hsome =>
    have hexport : b.exportNames = plan.columns seen := by
      rw [exportNames, hplan]
      exact horder
    have hmem : ∀ n ∈ b.exportNames, n ∈ t.names := fun n hn => by
      rw [hnames, ← hexport]
      exact hn
    -- the fused plan types no field, so every column holds texts
    have htypes : ∀ n ∈ plan.columns seen, t.typeOf n = some .string := by
      intro n hn
      obtain ⟨p, hp, rfl⟩ := List.mem_map.mp (hnames ▸ hn)
      rw [RowTable.typeOf_eq_some.mpr hp, ho.types p hp, hplan]
      rfl
    rw [finish_eq hunknown hstrict (horder ▸ hsome)
      fun n hn => (ht.sound.holds.mem_index n).mpr (hmem n hn)]
    have hupgrade : b.normalize.autoDictUpgrade = b.normalize := by
      rw [autoDictUpgrade, show b.normalize.plan = b.plan from rfl, hplan]
      rfl
    -- text columns are exported even when they are empty
    have hslots := exportSlots_slotsOf ht.normalize.sound.holds hmem
      (hexport ▸ hnames ▸ t.nodup) (.inr fun p hp => by
        obtain ⟨n, hn, rfl⟩ := List.mem_map.mp hp
        rw [htypes n (hexport ▸ hn)]
        trivial)
    rw [hupgrade]
    show ((exportSlots b.normalize.columns (slotsOf b.normalize.fieldIndex b.exportNames)).bind
      fun out => RecordBatch.tryNew out.1 out.2).map recordsOf = _
    rw [hslots, hexport]
    show (RecordBatch.tryNew _ _).map recordsOf = _
    rw [tryNew_arrayOf t (by simpa [typed] using hsome)]
    exact congrArg Except.ok (recordsOf_batchOf hrows htypes)

/-- A run of the engine, in which every row has different output names. -/
theorem HoldsRecords.run {rows : List SourceRow} (h : plan.HoldsRecords seen kept b)
    (hdistinct : ∀ row ∈ rows, ((planValues plan.names row.fields).map Prod.fst).Nodup) :
    plan.HoldsRecords (seen ++ rows) (kept ++ rows.filter (plan.keeps interp))
      (rows.foldl (plan.read interp) b) := by
  induction rows generalizing seen kept b with
  | nil =>
      rw [List.append_nil, List.filter_nil, List.append_nil]
      exact h
  | cons row rows ih =>
      have hread : plan.HoldsRecords (seen ++ [row])
          (kept ++ if plan.keeps interp row then [row] else []) (plan.read interp b row) :=
        h.read (hdistinct row List.mem_cons_self)
      have hrest := ih hread fun r hr => hdistinct r (List.mem_cons_of_mem _ hr)
      rw [List.append_assoc, List.append_assoc] at hrest
      rw [List.foldl_cons, List.filter_cons]
      cases hkeep : plan.keeps interp row <;> rw [hkeep] at hrest <;> exact hrest

/-- **The records of the engine** are those of the rows that the filter keeps, with the columns of all
rows; there is none where no row has a column. -/
theorem records_eq {rows : List SourceRow}
    (hdistinct : ∀ row ∈ rows, ((planValues plan.names row.fields).map Prod.fst).Nodup) :
    plan.records interp rows =
      .ok (plan.exported (plan.columns rows) (rows.filter (plan.keeps interp))) :=
  ((holdsRecords_withPlan plan true).run hdistinct).finish

/-- A record has the cells of its columns and nothing under any other name. -/
theorem get_record (rows : List SourceRow) (row : SourceRow) (name : String) :
    (plan.record (plan.columns rows) row).get name =
      if name ∈ plan.columns rows then cell store .string name (plan.cells row) else none := by
  have hnodup : (plan.columns rows).Nodup := nodup_eraseDups _
  generalize plan.columns rows = columns at hnodup ⊢
  have hfirst : (columns.map fun n => (n, cell store .string n (plan.cells row))).map Prod.fst =
      columns := by
    rw [List.map_map]
    exact List.map_id columns
  have hget : (plan.record columns row).get name =
      (rowOf (columns.map fun n => (n, cell store .string n (plan.cells row))) name).join := by
    rw [Record.get, record, Record.ofPairs, Record.get_putAll (by simp)]
    rfl
  rw [hget]
  split
  · next hmem =>
    have hcell := rowOf_of_mem (hfirst.symm ▸ hnodup) (List.mem_map_of_mem
      (f := fun n => (n, cell store .string n (plan.cells row))) hmem)
    exact congrArg Option.join hcell
  · next hnot =>
    have hnone := (rowOf_isSome (columns.map fun n => (n, cell store .string n (plan.cells row)))
      name).not.mpr (hfirst.symm ▸ hnot)
    rw [Option.not_isSome_iff_eq_none.mp hnone]
    rfl

/-- No row has a column. -/
theorem columns_eq_nil {rows : List SourceRow} :
    plan.columns rows = [] ↔ ∀ row ∈ rows, planValues plan.names row.fields = [] := by
  have herase : ∀ names : List String, names.eraseDups = [] ↔ names = [] := by
    intro names
    rw [List.eq_nil_iff_forall_not_mem, List.eq_nil_iff_forall_not_mem]
    exact forall_congr' fun n => not_congr List.mem_eraseDups
  rw [columns, herase, List.flatMap_eq_nil_iff]
  simp only [List.map_eq_nil_iff]

/-- A cell is of a column of the rows. -/
theorem mem_columns {rows : List SourceRow} {row : SourceRow} (hrow : row ∈ rows) {name : String}
    (hsome : (plan.cells row name).isSome) : name ∈ plan.columns rows := by
  rw [columns, List.mem_eraseDups, List.mem_flatMap]
  exact ⟨row, hrow, (rowOf_isSome _ name).mp hsome⟩

/-- **A compiled filter**: a builder with a filter of its own that has the same verdicts, and reads the
rows alike in every mode, exports the same records. -/
theorem records_of_filter {rows : List SourceRow} {f : FilterPredicate} {batch : RecordBatch}
    (hdistinct : ∀ row ∈ rows, ((planValues plan.names row.fields).map Prod.fst).Nodup)
    (halike : ∀ row ∈ rows, ReadsAlike { plan.names with filter := some f }
      ⟨.putField, false, row.fields⟩)
    (hverdicts : ∀ row ∈ rows, passes { plan.names with filter := some f }
      ⟨.putField, false, row.fields⟩ = plan.keeps interp row)
    (hok : ((withPlan { plan.names with filter := some f }).feed (rows.map SourceRow.puts)).finish =
      .ok batch) :
    ∃ records, plan.records interp rows = .ok records ∧ batch.rowCount = records.length ∧
      ∀ name, batch.cells name = records.map (·.get name) := by
  generalize hp : ({ plan.names with filter := some f } : ExecutionPlan) = p
    at halike hverdicts hok
  have hvalues : ∀ fields, planValues p fields = planValues plan.names fields := fun fields => hp ▸ rfl
  -- the records sent one by one are the rows fed through `put_field`
  have hsend : (start p none).sendAll (rows.map fun row => ⟨.putField, false, row.fields⟩) =
      (withPlan p).feed (rows.map SourceRow.puts) := by
    have hrow : (fun b row => send b ⟨.putField, false, SourceRow.fields row⟩) =
        fun b row => TableBuilder.row b (SourceRow.puts row) := by
      funext b row
      rw [← puts_eq b.plan]
      exact congrArg TableBuilder.endRow (sendFields_putField b.beginRow row.fields)
    rw [sendAll, feed, List.foldl_map, List.foldl_map, hrow]
    rfl
  rw [← hsend] at hok
  obtain ⟨hempty, hshows⟩ := export_sendAll (loose_none p) (List.forall_mem_map.mpr halike) hok
  -- no record shows a column exactly when the plan has none
  have hnone : NoColumn p none (rows.map fun row => ⟨.putField, false, row.fields⟩) ↔
      plan.columns rows = [] := by
    rw [columns_eq_nil, NoColumn, List.forall_mem_map]
    simp only [hvalues]
    exact and_iff_right ⟨hp ▸ rfl, fun schema hs => absurd hs (Option.not_mem_none schema)⟩
  -- and the rows kept are those that the interpretation keeps
  have hkept : keptRows p (rows.map fun row => ⟨.putField, false, row.fields⟩) =
      (rows.filter (plan.keeps interp)).map plan.cells := by
    rw [keptRows, List.filter_map, List.map_map]
    have hfilter : rows.filter (passes p ∘ fun row => ⟨.putField, false, row.fields⟩) =
        rows.filter (plan.keeps interp) := List.filter_congr hverdicts
    rw [hfilter]
    refine List.map_congr_left fun row _ => ?_
    exact congrArg rowOf (hvalues row.fields)
  refine ⟨_, records_eq hdistinct, ?_⟩
  rw [exported]
  by_cases hcolumns : plan.columns rows = []
  · rw [if_pos hcolumns, hempty (hnone.mpr hcolumns)]
    exact ⟨rfl, fun name => rfl⟩
  · obtain ⟨hcount, hname⟩ := (hshows (mt hnone.mp hcolumns)).singleton
    rw [if_neg hcolumns, hcount, hkept, List.length_map, List.length_map]
    refine ⟨rfl, fun name => ?_⟩
    rw [hname name (.inl (hp ▸ rfl)), hkept, List.map_map, List.map_map]
    refine List.map_congr_left fun row hrow => ?_
    have hrow := (List.mem_filter.mp hrow).1
    show cell store (p.columnType name) name (plan.cells row) = _
    have htype : p.columnType name = .string := hp ▸ rfl
    rw [Function.comp_apply, get_record, htype]
    split
    · rfl
    · next hnot =>
      rw [cell, Option.not_isSome_iff_eq_none.mp fun hsome => hnot (mem_columns hrow hsome)]
      rfl

/-! ## The rows of the source -/

end FusedPlan

/-- The columns of a source, in the order in which its rows name them. -/
def sourceColumns (rows : List SourceRow) : List String :=
  (rows.flatMap fun row => row.fields.map Prod.fst).eraseDups

/-- A row of a source as a record of its columns. -/
def SourceRow.record (row : SourceRow) (columns : List String) : Record TypedValue :=
  .ofPairs (columns.map fun name => (name, cell store .string name (rowOf row.fields)))

namespace FusedPlan

section Source

variable {interp : T → List (Option TypedValue) → Bool} {plan : FusedPlan T}
  {rows : List SourceRow}

@[simp] theorem planValues_bare (fields : List (String × Value)) :
    planValues (bare : FusedPlan T).names fields = fields := List.filterMap_some

/-- Without renames and drops the columns are those of the source. -/
theorem columns_bare : (bare : FusedPlan T).columns rows = sourceColumns rows := by
  rw [columns, sourceColumns]
  simp only [planValues_bare]

/-- The records of a source that is read without a pipeline: those of its rows over all columns of
the source, or none if no row has a field. -/
theorem records_bare : (bare : FusedPlan T).records interp rows =
    .ok (if sourceColumns rows = [] then []
      else rows.map fun row => row.record (sourceColumns rows)) := by
  rw [records_eq fun row _ => by rw [planValues_bare]; exact row.nodup, exported, columns_bare]
  have hall : rows.filter ((bare : FusedPlan T).keeps interp) = rows :=
    List.filter_eq_self.mpr fun row _ => rfl
  have hrecord : ∀ columns, (bare : FusedPlan T).record columns =
      fun row => SourceRow.record row columns := by
    intro columns
    funext row
    rw [record, SourceRow.record, cells, fieldsRow, planValues_bare]
  simp only [hall, hrecord]

/-- Every field of a row of the source is a column of the source. -/
theorem mem_sourceColumns {row : SourceRow} (hrow : row ∈ rows) {raw : String}
    (hraw : raw ∈ row.fields.map Prod.fst) : raw ∈ sourceColumns rows := by
  rw [sourceColumns, List.mem_eraseDups, List.mem_flatMap]
  exact ⟨row, hrow, hraw⟩

/-- The plan gives different names to the columns of the source that it keeps. -/
def Injective (plan : FusedPlan T) (rows : List SourceRow) : Prop :=
  ∀ x ∈ sourceColumns rows, ∀ y ∈ sourceColumns rows, ∀ name,
    plan.names.resolveField x = some name → plan.names.resolveField y = some name → x = y

/-- The names that fields have under a plan are the names their raw names resolve to. -/
theorem map_planValues (p : ExecutionPlan) (fields : List (String × Value)) :
    (planValues p fields).map Prod.fst = (fields.map Prod.fst).filterMap p.resolveField := by
  rw [planValues, List.map_filterMap, List.filterMap_map]
  refine List.filterMap_congr fun q _ => ?_
  rw [Function.comp_apply, Option.map_map]
  exact Option.map_id' (x := p.resolveField q.1)

variable (hinj : plan.Injective rows)
include hinj

/-- Every row has different names under the plan. -/
theorem Injective.distinct {row : SourceRow} (hrow : row ∈ rows) :
    ((planValues plan.names row.fields).map Prod.fst).Nodup := by
  have herase : ((row.fields.map Prod.fst).filterMap plan.names.resolveField).eraseDups =
      (row.fields.map Prod.fst).filterMap plan.names.resolveField := by
    rw [eraseDups_filterMap _ fun x hx y hy => hinj x (mem_sourceColumns hrow hx) y
      (mem_sourceColumns hrow hy), eraseDups_of_nodup row.nodup]
  rw [map_planValues, ← herase]
  exact nodup_eraseDups _

/-- The columns of the engine are those of the source, under their names. -/
theorem Injective.columns :
    plan.columns rows = (sourceColumns rows).filterMap plan.names.resolveField := by
  have hnames : (rows.flatMap fun row => (planValues plan.names row.fields).map Prod.fst) =
      (rows.flatMap fun row => row.fields.map Prod.fst).filterMap plan.names.resolveField := by
    rw [List.filterMap_flatMap]
    refine List.flatMap_congr fun row _ => ?_
    rw [map_planValues]
  rw [FusedPlan.columns, hnames, eraseDups_filterMap _ fun x hx y hy => hinj x
    (List.mem_eraseDups.mpr hx) y (List.mem_eraseDups.mpr hy), sourceColumns]

/-- A row has under the name of a field the value of the field. The renaming is injective on the
columns of the source, so no other field has been put there. -/
theorem Injective.cells {row : SourceRow} (hrow : row ∈ rows) {raw name : String}
    (hraw : raw ∈ sourceColumns rows) (hname : plan.names.resolveField raw = some name) :
    plan.cells row name = rowOf row.fields raw := by
  by_cases hmem : raw ∈ row.fields.map Prod.fst
  · obtain ⟨q, hq, rfl⟩ := List.mem_map.mp hmem
    rw [rowOf_of_mem row.nodup hq]
    have hvalue : (name, q.2) ∈ planValues plan.names row.fields :=
      List.mem_filterMap.mpr ⟨q, hq, by rw [hname]; rfl⟩
    exact rowOf_of_mem (hinj.distinct hrow) hvalue
  · rw [Option.not_isSome_iff_eq_none.mp ((rowOf_isSome row.fields raw).not.mpr hmem),
      ← Option.not_isSome_iff_eq_none]
    refine (rowOf_isSome (planValues plan.names row.fields) name).not.mpr fun hvalue => ?_
    rw [map_planValues] at hvalue
    obtain ⟨raw', hraw', hname'⟩ := List.mem_filterMap.mp hvalue
    exact hmem (hinj raw' (mem_sourceColumns hrow hraw') raw hraw name hname' hname ▸ hraw')

/-- The record of the engine has the cells of the record of the source, under their names. -/
theorem Injective.record {row : SourceRow} (hrow : row ∈ rows) :
    plan.record (plan.columns rows) row =
      .ofPairs ((row.record (sourceColumns rows)).fields.filterMap
        fun q => (plan.names.resolveField q.1).map fun name => (name, q.2)) := by
  have hfields : (row.record (sourceColumns rows)).fields =
      (sourceColumns rows).map fun raw => (raw, cell store .string raw (rowOf row.fields)) := by
    refine Record.putAll_of_nodup (l := []) ?_
    rw [List.nil_append, List.map_map]
    exact (List.map_id _).symm ▸ nodup_eraseDups _
  rw [FusedPlan.record, hinj.columns, hfields, List.map_filterMap, List.filterMap_map]
  congr 1
  refine List.filterMap_congr fun raw hraw => ?_
  rw [Function.comp_apply]
  cases hname : plan.names.resolveField raw with
  | none => rfl
  | some name =>
      rw [Option.map_some, Option.map_some, cell, cell, hinj.cells hrow hraw hname]

end Source

end FusedPlan

end Rypipe.Pipeline
