import Rypipe.Engine.RowMode

/-! # Whole rows, and the operations between rows

A row as the adapters feed it, `begin_row`, the puts, `end_row`, takes a builder between rows to a
builder between rows. So do the other operations of the engine that run between rows: `with_plan`
and `ensure_schema`, which declare columns, and `split_off`, which cuts the table. -/

namespace Rypipe

variable [Platform]

namespace TableBuilder

/-- Run a list of puts. -/
def putAll (b : TableBuilder) (puts : List Put) : TableBuilder := puts.foldl put b

/-- Read one row: `begin_row`, the puts in order, `end_row`. -/
def row (b : TableBuilder) (puts : List Put) : TableBuilder := (b.beginRow.putAll puts).endRow

/-- Read a list of rows. -/
def feed (b : TableBuilder) (rows : List (List Put)) : TableBuilder := rows.foldl row b

/-- The values a list of puts assigns: those of the fields the plan keeps and the layout admits. -/
def assignments (b : TableBuilder) (puts : List Put) : List (String × Value) :=
  puts.filterMap fun p => (p.target b.plan).bind fun name =>
    if (b.exactWithout name).isSome then none else some (name, p.value)

/-- Every put is one the builder keeps when it comes. -/
def KeepsAll (b : TableBuilder) : List Put → Prop
  | [] => True
  | p :: puts => b.Keeps p ∧ (b.put p).KeepsAll puts

/-- The table after a list of puts. -/
def declarePuts (b : TableBuilder) (t : Table) : List Put → Table
  | [] => t
  | p :: puts => (b.put p).declarePuts (b.declarePut t p) puts

@[simp] theorem rows_declarePuts (b : TableBuilder) (t : Table) (puts : List Put) :
    (b.declarePuts t puts).rows = t.rows := by
  induction puts generalizing b t with
  | nil => rfl
  | cons p puts ih => rw [declarePuts, ih, rows_declarePut]

/-- A name is known to the index exactly when it is a column. -/
theorem RowMode.mem_index {b : TableBuilder} {t : Table} {cur : CurrentRow} (h : b.RowMode t cur)
    (name : String) : name ∈ b.fieldIndex ↔ name ∈ t.names := by
  cases h with
  | columns h => exact h.sound.holds.mem_index name
  | buffered buf h => exact h.sound.holds.mem_index name
  | drained buf h => exact h.sound.holds.mem_index name

/-- A put does not change which names an exact layout withholds. -/
theorem RowMode.exactWithout_put {b : TableBuilder} {t : Table} {cur : CurrentRow} {p : Put}
    (h : b.RowMode t cur) (h' : (b.put p).RowMode (b.declarePut t p) (b.assignPut cur p))
    (hsame : b.SamePlan (b.put p)) (name : String) :
    (b.put p).exactWithout name = b.exactWithout name := by
  rw [exactWithout, exactWithout, hsame.frozen]
  cases hexact : b.frozen.filter (·.exact) with
  | none => rw [ite_self, ite_self]
  | some frozen =>
      -- under an exact layout a put only declares columns that exist
      have hdeclare : b.declarePut t p = t := by
        rw [declarePut]
        split
        · next target _ =>
          by_cases hmem : target ∈ b.fieldIndex
          · rw [declareFor_of_none (exactWithout_of_mem hmem)]
            exact RowTable.declare_of_mem ((h.mem_index target).mp hmem) _
          · have hnone : b.exactWithout target = some frozen := by
              rw [exactWithout, if_neg hmem, hexact]
            rw [declareFor_of_some hnone]
        · rfl
      have hiff : name ∈ (b.put p).fieldIndex ↔ name ∈ b.fieldIndex := by
        rw [h'.mem_index, hdeclare, h.mem_index]
      simp only [hiff]

/-- The puts of a row assign the values the plan and the layout admit, the last one of each column
winning. -/
theorem RowMode.putAll {b : TableBuilder} {t : Table} {cur : CurrentRow} (h : b.RowMode t cur)
    {puts : List Put} (hk : b.KeepsAll puts) :
    (b.putAll puts).RowMode (b.declarePuts t puts)
        (assignAll cur (b.assignments puts)) ∧
      b.SamePlan (b.putAll puts) := by
  induction puts generalizing b t cur with
  | nil => exact ⟨h, .refl b⟩
  | cons p puts ih =>
      obtain ⟨h', hsame⟩ := h.put hk.1
      obtain ⟨hrun, hsame'⟩ := ih h' hk.2
      refine ⟨?_, hsame.trans hsame'⟩
      have hrest : (b.put p).assignments puts = b.assignments puts := by
        simp only [assignments, hsame.plan, h.exactWithout_put h' hsame]
      have hcur : assignAll cur (b.assignments (p :: puts)) =
          assignAll (b.assignPut cur p) (b.assignments puts) := by
        rw [assignments, List.filterMap_cons, assignPut]
        cases htarget : p.target b.plan with
        | none => rfl
        | some name =>
            cases hexact : b.exactWithout name with
            | none =>
                simp only [Option.bind_some, hexact, Option.isSome_none, Bool.false_eq_true,
                  ↓reduceIte, assignFor_of_none hexact]
                rfl
            | some frozen =>
                simp only [Option.bind_some, hexact, Option.isSome_some, ↓reduceIte,
                  assignFor_of_some hexact]
                rfl
      rw [hcur, ← hrest]
      exact hrun

/-- The row a list of puts leaves in the builder. -/
def rowPut (b : TableBuilder) (puts : List Put) : CurrentRow := rowOf (b.assignments puts)

/-- Beginning a row does not change what the puts assign. -/
theorem assignments_beginRow (b : TableBuilder) (puts : List Put) :
    b.beginRow.assignments puts = b.assignments puts := rfl

/-- A row commits what its puts assign when the builder accepts it, and leaves no trace when it
does not. -/
theorem Between.row {b : TableBuilder} {t : Table} (h : b.Between t) {puts : List Put}
    (hk : b.beginRow.KeepsAll puts) :
    ∃ t', (b.row puts).Between t' ∧ b.SamePlan (b.row puts) ∧
      t'.cols = (b.beginRow.declarePuts t puts).cols ∧
      t'.rows = if b.rowCount < (b.row puts).rowCount then t.rows ++ [b.rowPut puts]
        else t.rows := by
  obtain ⟨hbegin, hframe, -, -⟩ := h.beginRow
  obtain ⟨hrun, hsame⟩ := hbegin.putAll hk
  obtain ⟨hend, hsame'⟩ := hrun.endRow
  refine ⟨_, hend, hframe.samePlan.trans (hsame.trans hsame'), ?_, ?_⟩
  · rw [endTable]
    split <;> rfl
  have hcount : (b.row puts).rowCount = _ := hend.rowCount
  rw [hcount, h.rowCount, endTable]
  cases (b.beginRow.putAll puts).keepsRow with
  | true =>
      have hlt : t.rows.length < ((b.beginRow.declarePuts t puts).commit _ hrun.within).rows.length := by
        show _ < (((b.beginRow.declarePuts t puts).rows) ++ [_]).length
        rw [List.length_append, rows_declarePuts]
        exact Nat.lt_succ_self _
      rw [if_pos rfl, if_pos hlt]
      show (b.beginRow.declarePuts t puts).rows ++ [_] = _
      rw [rows_declarePuts]
      rfl
  | false =>
      rw [if_neg Bool.false_ne_true, rows_declarePuts, if_neg (lt_irrefl _)]

/-- A direct row keeps every put. -/
theorem Direct.keepsAll {b : TableBuilder} {t : Table} {cur : CurrentRow} (h : b.Direct t cur)
    (puts : List Put) : b.KeepsAll puts := by
  induction puts generalizing b t cur with
  | nil => trivial
  | cons p puts ih =>
      refine ⟨⟨fun hdirect => ?_, fun _ hbuffering => ?_⟩, ih (h.put p).1⟩
      · cases h.direct.symm.trans hdirect
      · cases h.buffering.symm.trans hbuffering

section NoFilter

/-- The columns the puts of a row declare. -/
def planColumns (plan : ExecutionPlan) (puts : List Put) : List (String × FieldType) :=
  (puts.filterMap fun p => p.target plan).map fun name => (name, plan.columnType name)

/-- The row the puts leave under a plan, the last value of each column winning. -/
def planRow (plan : ExecutionPlan) (puts : List Put) : CurrentRow :=
  rowOf (puts.filterMap fun p => (p.target plan).map fun name => (name, p.value))

theorem exactWithout_of_frozen {b : TableBuilder} (h : b.frozen = none) (name : String) :
    b.exactWithout name = none := by
  rw [exactWithout, h]
  split <;> rfl

/-- Without a frozen layout a row leaves what its plan says: the last value put for each output
name. -/
theorem rowPut_eq_planRow {b : TableBuilder} (h : b.frozen = none) (puts : List Put) :
    b.rowPut puts = planRow b.plan puts := by
  have hput : ∀ p : Put, ((p.target b.plan).bind fun name =>
      if (b.exactWithout name).isSome then none else some (name, p.value)) =
      (p.target b.plan).map fun name => (name, p.value) := by
    intro p
    cases p.target b.plan with
    | none => rfl
    | some name => rw [Option.bind_some, exactWithout_of_frozen h]; rfl
  rw [rowPut, planRow, assignments]
  simp only [hput]

/-- Without a frozen layout the puts declare the columns of the plan. -/
theorem RowMode.declarePuts_eq {b : TableBuilder} {t : Table} {cur : CurrentRow}
    (h : b.RowMode t cur) (hfrozen : b.frozen = none) {puts : List Put} (hk : b.KeepsAll puts) :
    b.declarePuts t puts = t.declareAll (planColumns b.plan puts) := by
  induction puts generalizing b t cur with
  | nil => rfl
  | cons p puts ih =>
      obtain ⟨h', hsame⟩ := h.put hk.1
      rw [declarePuts, ih h' (hsame.frozen.trans hfrozen) hk.2, hsame.plan, planColumns,
        planColumns, List.filterMap_cons, declarePut]
      cases p.target b.plan with
      | none => rfl
      | some name =>
          dsimp only
          rw [declareFor_of_none (exactWithout_of_frozen hfrozen name)]
          rfl

/-- Without a filter `begin_row` starts a direct row, whatever the rows before were. -/
theorem Between.beginRow_direct {b : TableBuilder} {t : Table} (h : b.Between t)
    (hfilter : b.plan.filter = none) : b.beginRow.Direct t noRow := by
  have hnone : b.rowBuf = none := by
    have hsome := h.sound.rowBuf
    rw [hfilter] at hsome
    exact Option.isNone_iff_eq_none.mp (Option.isSome_eq_false_iff.mp hsome)
  obtain ⟨hmode, -, -, -⟩ := h.beginRow
  have hbuf : b.beginRow.rowBuf = none := by
    show b.rowBuf.map _ = none
    rw [hnone]
    rfl
  cases hmode with
  | columns h' => exact h'
  | buffered buf h' => cases hbuf.symm.trans h'.rowBuf
  | drained buf h' => cases hbuf.symm.trans h'.rowBuf

/-- Without a filter and a frozen layout every row is committed. -/
theorem Between.row_of_no_filter {b : TableBuilder} {t : Table} (h : b.Between t)
    (hfilter : b.plan.filter = none) (hfrozen : b.frozen = none) (puts : List Put) :
    ∃ t', (b.row puts).Between t' ∧ b.SamePlan (b.row puts) ∧
      t'.cols = (t.declareAll (planColumns b.plan puts)).cols ∧
      t'.rows = t.rows ++ [planRow b.plan puts] := by
  have hdirect := h.beginRow_direct hfilter
  obtain ⟨t', ht', hsame, hcols, hrows⟩ := h.row (hdirect.keepsAll puts)
  refine ⟨t', ht', hsame, ?_, ?_⟩
  · rw [hcols, RowMode.declarePuts_eq (.columns hdirect) hfrozen (hdirect.keepsAll puts)]
    rfl
  · obtain ⟨hrun, hsame'⟩ := RowMode.putAll (.columns hdirect) (hdirect.keepsAll puts)
    have hkeeps : (b.beginRow.putAll puts).keepsRow = true := by
      have hplan : (b.beginRow.putAll puts).plan.filter = none := by
        rw [hsame'.plan]
        exact hfilter
      rw [keepsRow, buffering, hplan]
      rfl
    have hcount : (b.row puts).rowCount = t.rows.length + 1 := by
      have hend := hrun.endRow.1.rowCount
      rw [endTable, if_pos hkeeps] at hend
      refine Eq.trans hend ?_
      show ((b.beginRow.declarePuts t puts).rows ++ [_]).length = _
      rw [rows_declarePuts, List.length_append, List.length_singleton]
    rw [hrows, if_pos (by rw [hcount, h.rowCount]; exact Nat.lt_succ_self _),
      rowPut_eq_planRow hfrozen]

/-- Without a filter and a frozen layout every row of a list is committed. -/
theorem Between.feed_of_no_filter {b : TableBuilder} {t : Table} (h : b.Between t)
    (hfilter : b.plan.filter = none) (hfrozen : b.frozen = none) (rows : List (List Put)) :
    ∃ t', (b.feed rows).Between t' ∧ b.SamePlan (b.feed rows) ∧
      t'.cols = (t.declareAll (rows.flatMap (planColumns b.plan))).cols ∧
      t'.rows = t.rows ++ rows.map (planRow b.plan) := by
  induction rows generalizing b t with
  | nil => exact ⟨t, h, .refl b, rfl, by simp⟩
  | cons puts rows ih =>
      obtain ⟨t₁, h₁, hsame₁, hcols₁, hrows₁⟩ := h.row_of_no_filter hfilter hfrozen puts
      obtain ⟨t₂, h₂, hsame₂, hcols₂, hrows₂⟩ := ih h₁ (by rw [hsame₁.plan]; exact hfilter)
        (hsame₁.frozen.trans hfrozen)
      refine ⟨t₂, h₂, hsame₁.trans hsame₂, ?_, ?_⟩
      · rw [hcols₂, hsame₁.plan, List.flatMap_cons, RowTable.declareAll_append]
        exact RowTable.cols_declareAll_congr hcols₁ _
      · rw [hrows₂, hrows₁, hsame₁.plan, List.append_assoc]
        rfl

end NoFilter

section Declare

/-- Declaring columns before any row declares them in the table. The dirty mask is only brought up
to size at the end, so the layout is stated for one that is large enough. -/
theorem declareColumns_layout {b : TableBuilder} {t : Table} {dirty : WordSet 64}
    (h : Layout b.columns b.fieldIndex dirty t noRow) (horder : b.columnOrder.Perm t.names)
    (hrows : t.rows = []) (ps : List (String × FieldType))
    (hroom : b.columns.length + ps.length ≤ dirty.capacity) :
    Layout (ps.foldl (fun b p => b.declareColumn p.1 p.2) b).columns
        (ps.foldl (fun b p => b.declareColumn p.1 p.2) b).fieldIndex dirty (t.declareAll ps)
        noRow ∧
      (ps.foldl (fun b p => b.declareColumn p.1 p.2) b).columnOrder.Perm (t.declareAll ps).names := by
  induction ps generalizing b t with
  | nil => exact ⟨h, horder⟩
  | cons p ps ih =>
      rw [List.length_cons] at hroom
      rw [List.foldl_cons, RowTable.declareAll, List.foldl_cons, ← RowTable.declareAll]
      -- a column that exists keeps its type
      by_cases hmem : p.1 ∈ b.fieldIndex
      · have hp := RowTable.declare_of_mem ((h.mem_index p.1).mp hmem) p.2
        rw [declareColumn, if_pos hmem, hp]
        exact ih h horder hrows (by omega)
      · have hname : p.1 ∉ t.names := fun hn => hmem ((h.mem_index p.1).mpr hn)
        rw [declareColumn, if_neg hmem]
        have hst : (ColumnBuilder.ofType p.2).Stores p.2 (List.replicate t.rows.length none) := by
          rw [hrows]
          exact ColumnBuilder.ofType_stores p.2
        refine ih (h.appendColumn hname hst (fun _ => rfl) (by omega)) ?_
          ((RowTable.rows_declare t _ _).trans hrows) ?_
        · show (b.columnOrder.insertIdx _ p.1).Perm _
          rw [RowTable.names, RowTable.cols_declare_of_notMem hname, List.map_append]
          refine (List.perm_insertIdx p.1 b.columnOrder le_rfl).trans ?_
          exact (List.Perm.cons p.1 horder).trans (List.perm_append_singleton p.1 t.names).symm
        · show (b.columns ++ [_]).length + ps.length ≤ _
          rw [List.length_append, List.length_singleton]
          omega

/-- Declaring columns changes nothing else than the columns, their index and the export order. -/
theorem declareColumns_eq (b : TableBuilder) (ps : List (String × FieldType)) :
    ∃ columns fieldIndex columnOrder, ps.foldl (fun b p => b.declareColumn p.1 p.2) b =
      { b with columns, fieldIndex, columnOrder } := by
  induction ps generalizing b with
  | nil => exact ⟨_, _, _, rfl⟩
  | cons p ps ih =>
      obtain ⟨columns, fieldIndex, columnOrder, hrest⟩ := ih (b.declareColumn p.1 p.2)
      refine ⟨columns, fieldIndex, columnOrder, ?_⟩
      rw [List.foldl_cons, hrest, declareColumn]
      split <;> rfl

/-- What declaring columns leaves alone. -/
theorem declareColumns_frame (b : TableBuilder) (ps : List (String × FieldType)) :
    let b' := ps.foldl (fun b p => b.declareColumn p.1 p.2) b
    b'.rowCount = b.rowCount ∧ b'.plan = b.plan ∧ b'.frozen = b.frozen ∧ b'.rowBuf = b.rowBuf ∧
      b'.rowDirty = b.rowDirty ∧ b'.unknownError = b.unknownError ∧
      b'.strictError = b.strictError := by
  obtain ⟨columns, fieldIndex, columnOrder, h⟩ := b.declareColumns_eq ps
  rw [h]
  exact ⟨rfl, rfl, rfl, rfl, rfl, rfl, rfl⟩

/-- Declaring columns before any row, with the dirty mask brought up to size. -/
theorem Between.declareColumns {b : TableBuilder} {t : Table} (h : b.Between t)
    (hrows : t.rows = []) (ps : List (String × FieldType)) :
    let b' := ps.foldl (fun b p => b.declareColumn p.1 p.2) b
    ({ b' with rowDirty := b'.rowDirty.resizeFor b'.columns.length } : TableBuilder).Between
      (t.declareAll ps) := by
  obtain ⟨hrow, hplan, hfrozen, hbuf, hdirty, -, -⟩ := b.declareColumns_frame ps
  have hempty := h.sound.holds.clean
  have hlarge : b.columns.length + ps.length ≤
      (b.rowDirty.growFor (b.columns.length + ps.length)).capacity :=
    WordSet.capacity_growFor (by decide) _ _
  have hgrow : Layout b.columns b.fieldIndex
      (b.rowDirty.growFor (b.columns.length + ps.length)) t noRow :=
    h.sound.holds.congr_dirty (fun i => WordSet.test_growFor _ _ i)
      (le_trans (Nat.le_add_right _ _) hlarge)
  obtain ⟨hlayout, horder⟩ := declareColumns_layout hgrow h.sound.order hrows ps hlarge
  refine ⟨⟨hlayout.congr_dirty (fun i => ?_) (WordSet.capacity_resizeFor (by decide) _ _), horder,
    ?_, ?_⟩, ?_⟩
  · rw [WordSet.test_growFor, hempty]
    refine WordSet.test_resize_of_empty (fun i => ?_) _ _
    rw [hdirty, hempty]
  · intro frozen hf name hn
    rw [RowTable.mem_names_declareAll]
    exact Or.inl (h.sound.known frozen (hfrozen.symm.trans hf) name hn)
  · exact (congrArg Option.isSome hbuf).trans (h.sound.rowBuf.trans (by rw [← hplan]))
  · exact hrow.trans (h.rowCount.trans (by rw [RowTable.rows_declareAll]))

/-- The builder with no column is between rows, with the empty table. -/
theorem between_empty (plan : ExecutionPlan) :
    ({ plan, rowBuf := plan.filter.map fun _ => {} } : TableBuilder).Between .empty := by
  refine ⟨⟨⟨rfl, ?_, ?_, ?_, fun i _ => WordSet.test_empty i, Nat.zero_le _, ?_⟩, .refl [], ?_, ?_⟩,
    rfl⟩
  · intro name i
    simp [RowTable.names, RowTable.empty]
  · intro i p hp
    cases hp
  · intro i p hp
    cases hp
  · intro name hn
    simp [noRow] at hn
  · intro frozen hf
    cases hf
  · exact Option.isSome_map

/-- The columns a plan declares, with their types. -/
def predeclared (plan : ExecutionPlan) : List (String × FieldType) :=
  if plan.schemaOrder.isEmpty then []
  else (predeclaredNames plan).map fun name => (name, plan.columnType name)

/-- Declaring names with the types of the builder's plan, which no declaration changes. -/
theorem foldl_declareColumn {plan : ExecutionPlan} {b : TableBuilder} (h : b.plan = plan)
    (names : List String) :
    names.foldl (fun b name => b.declareColumn name (b.plan.columnType name)) b =
      (names.map fun name => (name, plan.columnType name)).foldl
        (fun b p => b.declareColumn p.1 p.2) b := by
  induction names generalizing b with
  | nil => rfl
  | cons name names ih =>
      have hplan : (b.declareColumn name (b.plan.columnType name)).plan = plan := by
        rw [declareColumn]
        split <;> exact h
      rw [List.foldl_cons, ih hplan, List.map_cons, List.foldl_cons, h]

/-- `with_plan` starts a table with the columns the plan declares and no row. -/
theorem between_withPlan (plan : ExecutionPlan) :
    (withPlan plan).Between (RowTable.empty.declareAll (predeclared plan)) := by
  have h := between_empty plan
  rw [withPlan, predeclared]
  by_cases horder : plan.schemaOrder.isEmpty = true
  · simp only [predeclareSchemaColumns, horder, ↓reduceIte]
    exact ⟨⟨h.sound.holds, h.sound.order, h.sound.known, h.sound.rowBuf⟩, h.rowCount⟩
  · have hall := h.declareColumns rfl
      ((predeclaredNames plan).map fun name => (name, plan.columnType name))
    simp only [predeclareSchemaColumns, horder, Bool.false_eq_true, ↓reduceIte]
    rw [foldl_declareColumn rfl]
    exact ⟨⟨hall.sound.holds, hall.sound.order, hall.sound.known, hall.sound.rowBuf⟩,
      hall.rowCount⟩

/-- `with_plan` only declares columns, and the masks for them; everything else has its default. -/
theorem withPlan_eq (plan : ExecutionPlan) :
    ∃ columns fieldIndex columnOrder rowDirty cachedWantedMask, withPlan plan =
      { plan, rowBuf := plan.filter.map fun _ => {}, columns, fieldIndex, columnOrder, rowDirty,
        cachedWantedMask } := by
  rw [withPlan]
  simp only [predeclareSchemaColumns]
  split
  · exact ⟨_, _, _, _, _, rfl⟩
  · rw [foldl_declareColumn rfl]
    obtain ⟨columns, fieldIndex, columnOrder, h⟩ := declareColumns_eq
      ({ plan, rowBuf := plan.filter.map fun _ => {} } : TableBuilder)
      ((predeclaredNames plan).map fun name => (name, plan.columnType name))
    rw [h]
    exact ⟨_, _, _, _, _, rfl⟩

theorem withPlan_fields (plan : ExecutionPlan) :
    (withPlan plan).plan = plan ∧ (withPlan plan).frozen = none ∧
      (withPlan plan).unknownError = none ∧ (withPlan plan).strictError = none := by
  obtain ⟨columns, fieldIndex, columnOrder, rowDirty, mask, h⟩ := withPlan_eq plan
  rw [h]
  exact ⟨rfl, rfl, rfl, rfl⟩

/-- A new builder has its plan and no frozen layout. -/
theorem withPlan_frame (plan : ExecutionPlan) :
    (withPlan plan).plan = plan ∧ (withPlan plan).frozen = none :=
  ⟨(withPlan_fields plan).1, (withPlan_fields plan).2.1⟩

/-- A new builder has met no unknown field. -/
theorem unknownError_withPlan (plan : ExecutionPlan) : (withPlan plan).unknownError = none :=
  (withPlan_fields plan).2.2.1

/-- A new builder has met no value that does not parse. -/
theorem strictError_withPlan (plan : ExecutionPlan) : (withPlan plan).strictError = none :=
  (withPlan_fields plan).2.2.2

/-- `ensure_schema` before any row declares the columns of the layout. -/
theorem Between.ensureSchema {b : TableBuilder} {t : Table} (h : b.Between t)
    (hrows : t.rows = []) (schema : FrozenSchema) :
    (b.ensureSchema schema).Between (t.declareAll schema.columns) := by
  have hall := h.declareColumns hrows schema.columns
  refine ⟨⟨hall.sound.holds, hall.sound.order, ?_, hall.sound.rowBuf⟩, hall.rowCount⟩
  intro frozen hf name hn
  obtain rfl : schema = frozen := Option.some.inj hf
  rw [RowTable.mem_names_declareAll]
  exact Or.inr hn

/-- `ensure_schema` with a layout whose columns all exist only freezes it. -/
theorem Between.ensureSchema_of_mem {b : TableBuilder} {t : Table} (h : b.Between t)
    (schema : FrozenSchema) (hmem : ∀ name ∈ schema.names, name ∈ b.fieldIndex) :
    (b.ensureSchema schema).Between t := by
  have hfold : ∀ ps : List (String × FieldType), (∀ p ∈ ps, p.1 ∈ b.fieldIndex) →
      ps.foldl (fun b p => b.declareColumn p.1 p.2) b = b := by
    intro ps hps
    induction ps with
    | nil => rfl
    | cons p ps ih =>
        rw [List.foldl_cons, declareColumn, if_pos (hps p List.mem_cons_self)]
        exact ih fun q hq => hps q (List.mem_cons_of_mem _ hq)
  have hnames : ∀ p ∈ schema.columns, p.1 ∈ b.fieldIndex := fun p hp =>
    hmem p.1 (List.mem_map_of_mem hp)
  rw [TableBuilder.ensureSchema, hfold schema.columns hnames]
  refine ⟨⟨h.sound.holds.congr_dirty (fun i => ?_) (WordSet.capacity_resizeFor (by decide) _ _),
    h.sound.order, ?_, h.sound.rowBuf⟩, h.rowCount⟩
  · rw [h.sound.holds.clean i]
    exact WordSet.test_resize_of_empty h.sound.holds.clean _ _
  · intro frozen hf name hn
    obtain rfl : schema = frozen := Option.some.inj hf
    exact (h.sound.holds.mem_index name).mp (hmem name hn)

end Declare

section Cut

/-- The two parts of `split_off`: the first `n` rows, and the rest. -/
theorem Between.splitOff {b : TableBuilder} {t : Table} (h : b.Between t) {n : Nat}
    (hn : n ≤ b.rowCount) :
    (b.splitOff n).1.Between (t.take n) ∧ (b.splitOff n).2.Between (t.drop n) := by
  have hempty : ∀ k i, ((WordSet.empty : WordSet 64).resize k).test i = false := fun k i =>
    WordSet.test_resize_of_empty WordSet.test_empty k i
  have hcap : b.columns.length ≤
      ((WordSet.empty : WordSet 64).resize ((b.columns.length + 63) / 64)).capacity :=
    WordSet.capacity_resizeFor (by decide) .empty b.columns.length
  have hlen := h.rowCount
  constructor
  · have hlayout := h.sound.holds.mapColumns (show (t.take n).cols = t.cols from rfl)
      (fun p _ c hc => by
        rw [pending_noRow, List.append_nil] at hc
        rw [RowTable.column_take]
        exact hc.takeRows n) (hempty _) hcap
    refine ⟨⟨hlayout, h.sound.order, h.sound.known, ?_⟩, ?_⟩
    · exact Option.isSome_map
    · show n = (t.rows.take n).length
      rw [List.length_take]
      omega
  · have hlayout := h.sound.holds.mapColumns (show (t.drop n).cols = t.cols from rfl)
      (fun p _ c hc => by
        rw [pending_noRow, List.append_nil] at hc
        rw [RowTable.column_drop]
        exact hc.dropRows n) (hempty _) hcap
    refine ⟨⟨hlayout, h.sound.order, h.sound.known, h.sound.rowBuf⟩, ?_⟩
    show b.rowCount - n = (t.rows.drop n).length
    rw [List.length_drop, hlen]

/-- `normalize` changes nothing between rows, when every column has the row count for its length. -/
theorem Between.normalize {b : TableBuilder} {t : Table} (h : b.Between t) :
    b.normalize.Between t := by
  refine ⟨⟨h.sound.holds.mapColumns rfl ?_ (fun i => WordSet.test_clear _ i) ?_, h.sound.order,
    h.sound.known, h.sound.rowBuf⟩, h.rowCount⟩
  · intro p _ c hc
    rw [pending_noRow, List.append_nil] at hc
    have hpop := hc.popTo b.rowCount
    rwa [List.take_of_length_le (by rw [RowTable.length_column, h.rowCount])] at hpop
  · show _ ≤ b.rowDirty.clear.capacity
    rw [WordSet.capacity_clear]
    exact h.sound.holds.room

end Cut

end TableBuilder

end Rypipe
