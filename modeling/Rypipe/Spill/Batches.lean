import Rypipe.Spill.Consumer
import Rypipe.Spill.Accounting

/-! # The rows of a spilled run

Without a row filter, the batches that a spilling sink has handed to a collecting consumer, aligned,
have the rows of the table that one builder makes of the same rows: unless a batch was cut before the
builder had a column, since a batch without columns has no rows in it. -/

namespace Rypipe

section Spill

variable [Platform]

namespace TableBuilder

/-! ## A builder after a cut -/

/-- A builder between rows that has seen some rows under a plan, and still holds the last of them. -/
structure HoldsRows (plan : ExecutionPlan) (seen rows : List (List Put)) (b : TableBuilder) :
    Prop where
  samePlan : b.plan = plan
  frozen : b.frozen = none
  table : ∃ t, b.Between t ∧ t.rows = rows.map (planRow plan) ∧
    t.cols = ((RowTable.empty : Table).declareAll (planTyped plan (outputNames plan seen))).cols

variable {plan : ExecutionPlan} {seen rows : List (List Put)} {b : TableBuilder}

/-- A new builder has seen nothing. -/
theorem holdsRows_withPlan (plan : ExecutionPlan) : HoldsRows plan [] [] (withPlan plan) := by
  obtain ⟨hplan, hfrozen⟩ := withPlan_frame plan
  refine ⟨hplan, hfrozen, _, between_withPlan plan, RowTable.rows_declareAll _ _, ?_⟩
  rw [outputNames, List.flatMap_nil, List.append_nil, planTyped, List.map_map, predeclared]
  split
  · rfl
  · rw [List.map_map]
    rfl

/-- A row is seen and held. Without a filter every row is accepted, and a row that has no field is
one too. -/
theorem HoldsRows.row (h : HoldsRows plan seen rows b) (hfilter : plan.filter = none)
    (puts : List Put) : HoldsRows plan (seen ++ [puts]) (rows ++ [puts]) (b.row puts) := by
  obtain ⟨t, ht, hrows, hcols⟩ := h.table
  obtain ⟨t', ht', hsame, hcols', hrows'⟩ :=
    ht.row_of_no_filter (by rw [h.samePlan]; exact hfilter) h.frozen puts
  rw [h.samePlan] at hcols' hrows'
  refine ⟨hsame.plan.trans h.samePlan, hsame.frozen.trans h.frozen, t', ht', ?_, ?_⟩
  · rw [hrows', hrows, List.map_append]
    rfl
  · have hnames : outputNames plan (seen ++ [puts]) =
        outputNames plan seen ++ puts.filterMap fun p => p.target plan := by
      rw [outputNames, outputNames, List.flatMap_append, List.append_assoc, List.flatMap_singleton]
    have htyped : planTyped plan (outputNames plan (seen ++ [puts])) =
        planTyped plan (outputNames plan seen) ++ planColumns plan puts := by
      rw [hnames, planTyped, List.map_append]
      rfl
    rw [hcols', RowTable.cols_declareAll_congr hcols, htyped, RowTable.declareAll_append]

/-- A builder that was fed rows holds them, in order, after those that it held before. -/
theorem HoldsRows.feed (h : HoldsRows plan seen rows b) (hfilter : plan.filter = none)
    (more : List (List Put)) : HoldsRows plan (seen ++ more) (rows ++ more) (b.feed more) := by
  induction more generalizing seen rows b with
  | nil =>
      rw [List.append_nil, List.append_nil]
      exact h
  | cons puts more ih =>
      have hrest := ih (h.row hfilter puts)
      rw [List.append_assoc, List.append_assoc] at hrest
      exact hrest

/-- The rows that are cut off, and the builder that is left. The latter holds no row, and still has
the columns of all rows that it has seen. -/
theorem HoldsRows.splitOff (h : HoldsRows plan seen rows b) :
    HoldsRows plan seen rows (b.splitOff b.rowCount).1 ∧
      HoldsRows plan seen [] (b.splitOff b.rowCount).2 := by
  obtain ⟨t, ht, hrows, hcols⟩ := h.table
  obtain ⟨hpart, hrest⟩ := ht.splitOff le_rfl
  refine ⟨⟨h.samePlan, h.frozen, _, hpart, ?_, hcols⟩, h.samePlan, h.frozen, _, hrest, ?_, hcols⟩
  · show t.rows.take b.rowCount = _
    rw [ht.rowCount, List.take_length, hrows]
  · show t.rows.drop b.rowCount = _
    rw [ht.rowCount, List.drop_length]
    rfl

/-- The reports to the observer are not part of the rows. -/
theorem HoldsRows.withEvents (h : HoldsRows plan seen rows b) (events : List Event) :
    HoldsRows plan seen rows { b with events } := by
  obtain ⟨t, ht, hrows, hcols⟩ := h.table
  exact ⟨h.samePlan, h.frozen, t,
    ⟨⟨ht.sound.holds, ht.sound.order, ht.sound.known, ht.sound.rowBuf⟩, ht.rowCount⟩, hrows, hcols⟩

/-- The row count is the number of rows that are still held. -/
theorem HoldsRows.rowCount (h : HoldsRows plan seen rows b) : b.rowCount = rows.length := by
  obtain ⟨t, ht, hrows, -⟩ := h.table
  rw [ht.rowCount, hrows, List.length_map]

/-- The columns are the output names of the rows seen. -/
theorem HoldsRows.mem_columnOrder (h : HoldsRows plan seen rows b) (n : String) :
    n ∈ b.columnOrder ↔ n ∈ outputNames plan seen := by
  obtain ⟨t, ht, -, hcols⟩ := h.table
  rw [ht.sound.order.mem_iff, RowTable.names, hcols, ← RowTable.names,
    names_declareAll_planTyped, List.mem_eraseDups]

/-- There is no column exactly if no row has had a field that the plan keeps. -/
theorem HoldsRows.columnOrder_eq_nil (h : HoldsRows plan seen rows b) :
    b.columnOrder = [] ↔ outputNames plan seen = [] := by
  rw [List.eq_nil_iff_forall_not_mem, List.eq_nil_iff_forall_not_mem]
  exact forall_congr' fun n => not_congr (h.mem_columnOrder n)

/-- The type of a column is that of the plan. -/
theorem HoldsRows.typeOf {t : Table} (hcols : t.cols =
    ((RowTable.empty : Table).declareAll (planTyped plan (outputNames plan seen))).cols) (n : String) :
    (t.typeOf n).getD (plan.columnType n) = plan.columnType n := by
  cases htype : t.typeOf n with
  | none => rfl
  | some ty =>
      rw [RowTable.typeOf, hcols, ← RowTable.typeOf] at htype
      exact ((typeOf_declareAll_planTyped plan _ n ty).mp htype).2

/-! ## The batch of a cut -/

/-- The names a builder exports once it has seen some rows. -/
def Visible (plan : ExecutionPlan) (seen : List (List Put)) (n : String) : Prop :=
  if plan.schemaOrder.isEmpty then n ∈ outputNames plan seen
  else n ∈ plan.schemaOrder ∧ n ∉ plan.dropFields

/-- The exported names are the visible ones: under a projection those of the projection, else those
of the rows seen. -/
theorem HoldsRows.mem_exportNames (h : HoldsRows plan seen rows b) (n : String) :
    n ∈ b.exportNames ↔ Visible plan seen n := by
  rw [exportNames, Visible, h.samePlan]
  split
  · exact h.mem_columnOrder n
  · simp

/-- A batch with some rows under a plan, for the names that are visible after the rows seen. -/
structure Shows (plan : ExecutionPlan) (seen rows : List (List Put)) (batch : RecordBatch) :
    Prop where
  of : ∃ (names : List String) (types : String → FieldType), (∀ n, n ∈ names ↔ Visible plan seen n) ∧
    (∀ n ∈ names, (plan.columnType n).UpgradesTo (types n)) ∧
    batch = rowsBatch plan (names.map fun n => (n, types n)) rows

/-- What a cut exports: nothing without a column, and the rows otherwise. -/
theorem HoldsRows.finish (h : HoldsRows plan seen rows b) (hne : rows ≠ []) {batch : RecordBatch}
    (hok : b.finish = .ok batch) :
    outputNames plan seen = [] ∧ batch = .newEmpty [] ∨
      outputNames plan seen ≠ [] ∧ Shows plan seen rows batch := by
  obtain ⟨t, ht, hrows, hcols⟩ := h.table
  rcases ht.finish_cases hok with ⟨hnone, hbatch⟩ | hexport
  · exact .inl ⟨h.columnOrder_eq_nil.mp hnone, hbatch⟩
  · refine .inr ⟨fun hnil => hexport.hasColumns (h.columnOrder_eq_nil.mpr hnil), ?_⟩
    obtain ⟨u, hupgrade, hnames, rfl⟩ := hexport.batch fun hnil => hne (by
      rw [hrows] at hnil
      exact List.map_eq_nil_iff.mp hnil)
    refine ⟨b.exportNames, fun n => (u.typeOf n).getD .string, h.mem_exportNames, fun n hn => ?_, ?_⟩
    · obtain ⟨p, hp, rfl⟩ := List.mem_map.mp (hnames n hn)
      have htype : u.typeOf p.1 = some p.2 := RowTable.typeOf_eq_some.mpr hp
      have hup := hupgrade.types p.1 p.2 htype
      rw [h.samePlan, HoldsRows.typeOf hcols] at hup
      show (plan.columnType p.1).UpgradesTo ((u.typeOf p.1).getD .string)
      rw [htype]
      exact hup
    · exact batchOf_eq_rowsBatch (hupgrade.rows.trans hrows) _

/-- The number of rows of a whole table, whether it has rows or not. -/
theorem HoldsRows.rowCount_finish (h : HoldsRows plan seen rows b) {batch : RecordBatch}
    (hok : b.finish = .ok batch) (hcolumns : batch.schema ≠ []) :
    outputNames plan seen ≠ [] ∧ batch.rowCount = rows.length ∧
      ∀ n, (batch.cells n).length = rows.length := by
  obtain ⟨t, ht, hrows, -⟩ := h.table
  rcases ht.finish_cases hok with ⟨-, rfl⟩ | hexport
  · exact absurd rfl hcolumns
  · have hcount : batch.rowCount = rows.length := by
      rw [hexport.rowCount, hrows, List.length_map]
    refine ⟨fun hnil => hexport.hasColumns (h.columnOrder_eq_nil.mpr hnil), hcount, fun n => ?_⟩
    obtain ⟨_, _, _, _, _, _, -, -, -, -, hnew⟩ := hexport.exported
    rw [(RecordBatch.madeOf_of_tryNew hnew).length_cells, hcount]

namespace Shows

variable {batch : RecordBatch}

/-- The batch has a row for each row it shows. -/
theorem rowCount (h : Shows plan seen rows batch) : batch.rowCount = rows.length := by
  obtain ⟨names, types, -, -, rfl⟩ := h.of
  rfl

/-- Its columns are the names that are visible after the rows seen. -/
theorem mem_names (h : Shows plan seen rows batch) (n : String) :
    n ∈ batch.names ↔ Visible plan seen n := by
  obtain ⟨names, types, hnames, -, rfl⟩ := h.of
  rw [← hnames, RecordBatch.names, rowsBatch, schemaOf, List.map_map, List.map_map, List.map_id'']
  exact fun m => rfl

/-- The columns of the batch, by name. A name of the list has the cells of all the rows, and another
one has no column. -/
theorem columnByName {names : List String} {types : String → FieldType} (n : String) :
    (n ∈ names → (rowsBatch plan (names.map fun n => (n, types n)) rows).columnByName n =
      some ⟨(types n).arrowType, rows.map fun puts => cell store (types n) n (planRow plan puts)⟩) ∧
    (n ∉ names → (rowsBatch plan (names.map fun n => (n, types n)) rows).columnByName n = none) := by
  obtain ⟨hfound, hnone⟩ := find?_typed types names n
  rw [rowsBatch, schemaOf, RecordBatch.columnByName_map]
  constructor
  · intro hn
    rw [hfound hn]
    rfl
  · intro hn
    rw [hnone hn]
    rfl

/-- The cells under a visible name. -/
theorem cells (h : Shows plan seen rows batch) {n : String} (hn : Visible plan seen n) :
    batch.cells n =
      rows.map fun puts => cell store (plan.columnType n) n (planRow plan puts) := by
  obtain ⟨names, types, hnames, hup, rfl⟩ := h.of
  have hmem := (hnames n).mpr hn
  rw [RecordBatch.cells, (columnByName n).1 hmem]
  refine List.map_congr_left fun puts _ => ?_
  rw [cell, cell, (hup n hmem).store_eq]

/-- The type under a name is that of the plan, up to the upgrade. -/
theorem types (h : Shows plan seen rows batch) {p : String × DataType} (hp : p ∈ batch.schema) :
    ∃ ty, (plan.columnType p.1).UpgradesTo ty ∧ p.2 = ty.arrowType := by
  obtain ⟨names, types, -, hup, rfl⟩ := h.of
  rw [rowsBatch, schemaOf, List.map_map] at hp
  obtain ⟨n, hn, rfl⟩ := List.mem_map.mp hp
  exact ⟨types n, hup n hn, rfl⟩

/-- Only a dictionary column is exported as one, with its texts. -/
theorem texts_of_dictionary {ty : FieldType} (h : ty.arrowType = .dictionary) (n : String) :
    (rows.map fun puts => cell store ty n (planRow plan puts)).map
      (fun v => v.map fun v => .str (castUtf8 v)) =
        rows.map fun puts => cell store ty n (planRow plan puts) := by
  obtain rfl : ty = .dictionary := by
    cases ty with
    | dictionary => rfl
    | _ => cases h
  rw [List.map_map]
  refine List.map_congr_left fun puts _ => ?_
  rw [Function.comp_apply, cell]
  cases planRow plan puts n with
  | none => rfl
  | some value =>
      rw [Option.bind_some, store]
      cases valueText value <;> rfl

/-- Its columns have distinct names, and each has a cell for every row. -/
theorem regular (h : Shows plan seen rows batch) : batch.Regular := by
  obtain ⟨names, types, -, -, rfl⟩ := h.of
  have hcolumn : ∀ n a, (rowsBatch plan (names.map fun n => (n, types n)) rows).columnByName n =
      some a → n ∈ names ∧ a = ⟨(types n).arrowType,
        rows.map fun puts => cell store (types n) n (planRow plan puts)⟩ := by
    intro n a ha
    by_cases hn : n ∈ names
    · rw [(columnByName n).1 hn] at ha
      exact ⟨hn, (Option.some.inj ha).symm⟩
    · rw [(columnByName n).2 hn] at ha
      cases ha
  refine ⟨fun p hp => ?_, fun n a ha => ?_, fun n a ha => ?_, fun n a ha htype => ?_⟩
  · rw [rowsBatch, schemaOf, List.map_map] at hp
    obtain ⟨n, hn, rfl⟩ := List.mem_map.mp hp
    exact ⟨_, (columnByName n).1 hn, rfl⟩
  · obtain ⟨hn, -⟩ := hcolumn n a ha
    rw [RecordBatch.names, rowsBatch, schemaOf, List.map_map, List.map_map, List.map_id'']
    · exact hn
    · exact fun m => rfl
  · obtain ⟨-, rfl⟩ := hcolumn n a ha
    exact List.length_map _
  · obtain ⟨-, rfl⟩ := hcolumn n a ha
    exact texts_of_dictionary htype n

/-- Batches of one plan are compatible. The type of a column comes from the plan, up to the upgrade
of a text column. -/
theorem compatible {batches : List RecordBatch}
    (h : ∀ b ∈ batches, ∃ seen rows, Shows plan seen rows b) : RecordBatch.Compatible batches := by
  intro b hb b' hb' p hp p' hp' hname
  obtain ⟨_, _, hshows⟩ := h b hb
  obtain ⟨_, _, hshows'⟩ := h b' hb'
  obtain ⟨ty, hup, hty⟩ := hshows.types hp
  obtain ⟨ty', hup', hty'⟩ := hshows'.types hp'
  rw [← hname] at hup'
  rw [hty, hty']
  rcases hup with rfl | ⟨hstring, rfl⟩
  · rcases hup' with rfl | ⟨hstring, rfl⟩
    · exact .inl rfl
    · rw [hstring]
      exact .inr ⟨rfl, rfl⟩
  · rcases hup' with rfl | ⟨-, rfl⟩
    · rw [hstring]
      exact .inr ⟨rfl, rfl⟩
    · exact .inl rfl

end Shows

/-! ## Rows cut off one after the other -/

/-- What a cut hands over: a batch without columns while the builder has none, and the rows
otherwise. -/
def Delivers (plan : ExecutionPlan) (seen rows : List (List Put)) (batch : RecordBatch) : Prop :=
  outputNames plan seen = [] ∧ batch = .newEmpty [] ∨
    outputNames plan seen ≠ [] ∧ Shows plan seen rows batch

/-- The rows seen and the batches handed over, when all rows have been cut off. -/
inductive Cuts (plan : ExecutionPlan) : List (List Put) → List RecordBatch → Prop
  | nil : Cuts plan [] []
  | cut {seen rows : List (List Put)} {batches : List RecordBatch} {batch : RecordBatch} :
      Cuts plan seen batches → rows ≠ [] → Delivers plan (seen ++ rows) rows batch →
      Cuts plan (seen ++ rows) (batches ++ [batch])

/-- Some batch has lost its rows. -/
def SomeEmpty (batches : List RecordBatch) : Prop := ∃ batch ∈ batches, batch.rowCount = 0

/-- A batch more is either one that has lost its rows or not. -/
theorem someEmpty_concat (batches : List RecordBatch) (batch : RecordBatch) :
    SomeEmpty (batches ++ [batch]) ↔ SomeEmpty batches ∨ batch.rowCount = 0 := by
  simp only [SomeEmpty, List.mem_append, List.mem_singleton, or_and_right, exists_or, exists_eq_left]

section Delivers

variable {batch : RecordBatch}

/-- A batch of rows loses them exactly if there is no column yet. -/
theorem Delivers.rowCount_eq_zero (h : Delivers plan seen rows batch) (hne : rows ≠ []) :
    batch.rowCount = 0 ↔ outputNames plan seen = [] := by
  rcases h with ⟨hnil, rfl⟩ | ⟨hcols, hshows⟩
  · exact ⟨fun _ => hnil, fun _ => rfl⟩
  · rw [hshows.rowCount, List.length_eq_zero_iff]
    exact ⟨fun h => absurd h hne, fun h => absurd h hcols⟩

/-- A batch with rows shows the rows that were cut off. -/
theorem Delivers.shows (h : Delivers plan seen rows batch) (hrows : batch.rowCount ≠ 0) :
    Shows plan seen rows batch := by
  rcases h with ⟨-, rfl⟩ | ⟨-, hshows⟩
  · exact absurd rfl hrows
  · exact hshows

/-- A field that no row has had is null in a row. The names given out are those of the fields that
some row had. -/
theorem planRow_of_notMem {n : String} (hn : n ∉ outputNames plan rows) {puts : List Put}
    (hputs : puts ∈ rows) : planRow plan puts n = none := by
  rw [← Option.not_isSome_iff_eq_none, planRow, rowOf_isSome]
  intro hmem
  obtain ⟨⟨m, value⟩, hpair, rfl⟩ := List.mem_map.mp hmem
  obtain ⟨p, hp, hpair⟩ := List.mem_filterMap.mp hpair
  obtain ⟨m', htarget, heq⟩ := Option.map_eq_some_iff.mp hpair
  obtain ⟨rfl, rfl⟩ := Prod.mk.inj heq
  refine hn (List.mem_append_right _ (List.mem_flatMap.mpr ⟨puts, hputs, ?_⟩))
  exact List.mem_filterMap.mpr ⟨p, hp, htarget⟩

/-- A name that is visible at some point is visible before, or no row had it before. -/
theorem Visible.before {later : List (List Put)} {n : String} (h : Visible plan later n)
    (seen : List (List Put)) : Visible plan seen n ∨ n ∉ outputNames plan seen := by
  rw [Visible] at h ⊢
  split
  · exact em _
  · next hschema =>
    rw [if_neg hschema] at h
    exact .inl h

/-- A name that is visible stays visible when more rows are seen. -/
theorem Visible.mono {n : String} (h : Visible plan seen n) (rows : List (List Put)) :
    Visible plan (seen ++ rows) n := by
  rw [Visible] at h ⊢
  split
  · next hschema =>
    rw [if_pos hschema] at h
    exact (mem_outputNames_append plan seen rows n).mpr (.inl h)
  · next hschema => rwa [if_neg hschema] at h

/-- The cells of a batch under a name that is visible at the end. -/
theorem Shows.cells_later (h : Shows plan (seen ++ rows) rows batch) {later : List (List Put)}
    {n : String} (hn : Visible plan later n) :
    batch.cells n =
      rows.map fun puts => cell store (plan.columnType n) n (planRow plan puts) := by
  rcases hn.before (seen ++ rows) with hvisible | hnone
  · exact h.cells hvisible
  by_cases hvisible : Visible plan (seen ++ rows) n
  · exact h.cells hvisible
  · rw [h.regular.cells_of_notMem fun hmem => hvisible ((h.mem_names n).mp hmem), h.rowCount,
      ← List.map_const']
    refine List.map_congr_left fun puts hputs => ?_
    rw [cell, planRow_of_notMem hnone (List.mem_append_right _ hputs)]
    rfl

end Delivers

namespace Cuts

variable {batches : List RecordBatch}

/-- Nothing was seen exactly if nothing was handed over, since a cut takes at least one row. -/
theorem eq_nil_iff (h : Cuts plan seen batches) : seen = [] ↔ batches = [] := by
  cases h with
  | nil => exact ⟨fun _ => rfl, fun _ => rfl⟩
  | cut _ hne _ =>
      refine ⟨fun hnil => absurd hnil (List.append_ne_nil_of_right_ne_nil _ hne), fun hnil => ?_⟩
      exact absurd hnil (List.append_ne_nil_of_right_ne_nil _ (List.cons_ne_nil _ _))

/-- No row comes twice, and all rows come when no batch has lost its rows. -/
theorem sum_rowCount (h : Cuts plan seen batches) :
    (batches.map RecordBatch.rowCount).sum ≤ seen.length ∧
      ((batches.map RecordBatch.rowCount).sum = seen.length ↔ ¬ SomeEmpty batches) := by
  induction h with
  | nil => exact ⟨le_rfl, fun _ => by simp [SomeEmpty], fun _ => rfl⟩
  | @cut seen rows batches batch _ hne hdelivers ih =>
      obtain ⟨hle, hiff⟩ := ih
      rw [List.map_append, List.map_singleton, List.sum_append, List.sum_singleton,
        List.length_append, someEmpty_concat, not_or, ← hiff]
      by_cases hzero : batch.rowCount = 0
      · have hpos := List.length_pos_iff.mpr hne
        rw [hzero]
        exact ⟨by omega, by omega⟩
      · have hcount := (hdelivers.shows hzero).rowCount
        exact ⟨by omega, by omega⟩

/-- The batches that have rows show them. Each was cut off with the columns of the rows seen until
then, and has the rows since the cut before. -/
theorem shown (h : Cuts plan seen batches) (hfull : ¬ SomeEmpty batches) :
    ∀ batch ∈ batches, ∃ seen rows, Shows plan seen rows batch := by
  induction h with
  | nil => exact fun batch hb => absurd hb List.not_mem_nil
  | cut _ _ hdelivers ih =>
      rw [someEmpty_concat, not_or] at hfull
      intro batch hb
      rcases List.mem_append.mp hb with hb | hb
      · exact ih hfull.1 batch hb
      · obtain rfl := List.mem_singleton.mp hb
        exact ⟨_, _, hdelivers.shows hfull.2⟩

/-- The last batch has all names, as a column stays when its rows are handed over. So the batches
together have those that are visible after all rows seen. -/
theorem mem_names (h : Cuts plan seen batches) (hfull : ¬ SomeEmpty batches) (hne : batches ≠ [])
    (n : String) : n ∈ batches.flatMap RecordBatch.names ↔ Visible plan seen n := by
  induction h with
  | nil => exact absurd rfl hne
  | @cut seen rows batches batch _ _ hdelivers ih =>
      rw [someEmpty_concat, not_or] at hfull
      rw [List.flatMap_append, List.mem_append, List.flatMap_singleton,
        (hdelivers.shows hfull.2).mem_names]
      refine ⟨fun hn => hn.elim (fun hbefore => ?_) id, .inr⟩
      by_cases hbatches : batches = []
      · rw [hbatches] at hbefore
        exact absurd hbefore List.not_mem_nil
      · exact ((ih hfull.1 hbatches).mp hbefore).mono rows

/-- The batches have the cells of all rows, in order. A batch from before a column was there counts
with nulls for it, which is what its rows have. -/
theorem flatMap_cells (h : Cuts plan seen batches) (hfull : ¬ SomeEmpty batches)
    {later : List (List Put)} {n : String} (hn : Visible plan later n) :
    (batches.flatMap fun batch => batch.cells n) =
      seen.map fun puts => cell store (plan.columnType n) n (planRow plan puts) := by
  induction h with
  | nil => rfl
  | cut _ _ hdelivers ih =>
      rw [someEmpty_concat, not_or] at hfull
      rw [List.flatMap_append, List.flatMap_singleton, List.map_append, ih hfull.1,
        (hdelivers.shows hfull.2).cells_later hn]

end Cuts

end TableBuilder

end Spill

end Rypipe
