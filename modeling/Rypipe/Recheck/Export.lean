import Rypipe.Recheck
import Rypipe.ParallelExport

/-! # Where the accepted batches come from

The two callers of `apply_compare_filter` give it batches of accepted rows: the batch that `finish`
makes of the merged builder, and the batch of one builder in `engines_to_record_batches`. The cells of
both are those of the columns on which `check` decided. -/

namespace Rypipe

variable [Platform]

/-- The cells of a column have its Arrow type. -/
theorem ColumnBuilder.hasType_of_mem_cells {c : ColumnBuilder} {x : TypedValue}
    (h : some x ∈ c.cells) : x.HasType c.arrowDatatype := by
  unfold cells at h
  split at h
  all_goals
    obtain ⟨v, -, hv⟩ := List.mem_map.mp h
    obtain ⟨_, -, rfl⟩ := Option.map_eq_some_iff.mp hv
    trivial

/-- A column of a type keeps values of its Arrow type. -/
theorem hasType_store {ty : FieldType} {value : Value} {x : TypedValue}
    (h : store ty value = some x) : x.HasType ty.arrowType := by
  have hpushed := (ColumnBuilder.ofType_stores ty).pushValue value
  rw [List.nil_append, h] at hpushed
  rw [← hpushed.kind, ← ColumnBuilder.arrowDatatype_eq]
  apply ColumnBuilder.hasType_of_mem_cells
  rw [hpushed.cells]
  exact List.mem_singleton_self _

/-! ## The merged builder -/

/-- The batch of a table is one as Arrow makes it. -/
theorem typed_batchOf (u : Table) (cols : List (String × FieldType)) :
    (batchOf u cols).Typed := by
  refine ⟨fun a ha => ?_, fun a ha x hx => ?_⟩
  · obtain ⟨p, -, rfl⟩ := List.mem_map.mp ha
    exact length_arrayOf u p
  · obtain ⟨p, -, rfl⟩ := List.mem_map.mp ha
    obtain ⟨row, -, hrow⟩ := List.mem_map.mp hx
    obtain ⟨value, -, hvalue⟩ := Option.bind_eq_some_iff.mp hrow
    exact hasType_store hvalue

/-- A batch without rows is one as Arrow makes it. -/
theorem RecordBatch.MadeOf.typed_of_no_rows {batch : RecordBatch} {fields : Schema}
    {arrays : List ArrayRef} (h : batch.MadeOf fields arrays) (hrows : batch.rowCount = 0) :
    batch.Typed := by
  refine ⟨fun a ha => h.rows a (h.columns ▸ ha), fun a ha x hx => ?_⟩
  have hlength := h.rows a (h.columns ▸ ha)
  rw [hrows, List.length_eq_zero_iff] at hlength
  rw [hlength] at hx
  exact absurd hx List.not_mem_nil

namespace TableBuilder

section Finish

variable {b : TableBuilder} {t : Table} {batch : RecordBatch}

/-- The batch of `finish` is one as Arrow makes it. Its columns are as long as the batch and each
holds values of its own type. -/
theorem Between.typed_finish (h : b.Between t) (hok : b.finish = .ok batch) : batch.Typed := by
  rcases h.finish_cases hok with ⟨-, rfl⟩ | hexport
  · exact ⟨fun a ha => absurd ha List.not_mem_nil, fun a ha => absurd ha List.not_mem_nil⟩
  by_cases hrows : t.rows = []
  · have hcount := hexport.rowCount
    obtain ⟨_, _, _, _, _, _, -, -, -, -, hnew⟩ := hexport.exported
    apply (RecordBatch.madeOf_of_tryNew hnew).typed_of_no_rows
    rw [hcount, hrows]
    rfl
  · obtain ⟨u, -, -, rfl⟩ := hexport.batch hrows
    exact typed_batchOf u _

/-- The stored cell of a name, in the table. A name that is no column has no cell, on either
side. -/
theorem Between.getTypedValue (h : b.Between t) (n : String) (i : Nat) :
    (FilterPredicate.getColumn b.columns b.fieldIndex n).bind (·.getTypedValue i) =
      at? (t.column store n ((t.typeOf n).getD (b.plan.columnType n))) i := by
  rw [FilterPredicate.getColumn]
  rcases htype : t.typeOf n with _ | ty
  · have hn := RowTable.typeOf_eq_none.mp htype
    rw [(h.sound.holds.lookup_eq_none n).mpr hn, RowTable.column_of_notMem store hn, at?]
    simp [List.getElem?_replicate]
    split <;> rfl
  · obtain ⟨j, hj⟩ := List.mem_iff_getElem?.mp (RowTable.typeOf_eq_some.mp htype)
    obtain ⟨c, hc, hst⟩ := h.sound.holds.stored j _ hj
    rw [pending_noRow, List.append_nil] at hst
    rw [h.sound.holds.lookup_of_cols hj, Option.bind_some, hc, Option.bind_some,
      ColumnBuilder.getTypedValue, hst.cells]
    rfl

/-- **The batch of a finished builder is accepted** when the check passes on its rows. -/
theorem Between.accepted_finish (h : b.Between t) (hok : b.finish = .ok batch) {plan : ExecutionPlan}
    {p : FilterPredicate} (hcheck : ∀ i < batch.rowCount,
      p.check b.columns b.fieldIndex i plan = true) : batch.Accepted plan p := by
  refine ⟨h.typed_finish hok, fun i hi => ⟨b.columns, b.fieldIndex, i, hcheck i hi, fun n hn => ?_⟩⟩
  rw [h.getTypedValue]
  rcases h.finish_cases hok with ⟨-, rfl⟩ | hexport
  · exact absurd hi (Nat.not_lt_zero i)
  have hrows : t.rows ≠ [] := by
    intro hnil
    rw [hexport.rowCount, hnil] at hi
    exact Nat.not_lt_zero i hi
  obtain ⟨u, hupgrade, hnames, rfl⟩ := hexport.batch hrows
  obtain ⟨hfound, hnone⟩ := columnByName_batchOf u b.exportNames n
  have hmem : n ∈ b.exportNames := by
    by_contra hno
    rw [hnone hno] at hn
    exact Bool.noConfusion hn
  obtain ⟨q, hq, rfl⟩ := List.mem_map.mp (hnames n hmem)
  have htype : u.typeOf q.1 = some q.2 := RowTable.typeOf_eq_some.mpr hq
  -- the upgrade keeps the same of every value
  have hstore := (hupgrade.types q.1 q.2 htype).store_eq
  rw [RecordBatch.cell, hfound hmem, Option.bind_some, arrayOf, RowTable.column, RowTable.column,
    hupgrade.rows, htype]
  show at? (t.rows.map (cell store q.2 q.1)) i = _
  congr 2
  funext row
  rw [cell, cell, hstore]

end Finish

/-! ## The builders of the chunks -/

section Engine

variable {e : TableBuilder} {schema : Schema} {arrays : List ArrayRef} {batch : RecordBatch}

/-- An array of one builder: the cells of its column, or nulls. -/
def ExportsCells (e : TableBuilder) (p : String × DataType) (a : ArrayRef) : Prop :=
  (∀ c, e.getColumn p.1 = some c → a.values = c.cells ∧
    (c.cells ≠ [] → a.datatype = c.arrowDatatype)) ∧
  (e.getColumn p.1 = none → a.values = List.replicate e.rowCount none)

/-- The arrays that are exported over a schema with distinct names. For each name the array is that
of the builder's own column, or one of nulls if the builder has none. -/
theorem Slotted.exportEngine_cells (h : e.Slotted) (hnodup : (schema.map Prod.fst).Nodup)
    (hok : Rypipe.exportEngine e schema = .ok arrays) :
    List.Forall₂ (ExportsCells e) schema arrays := by
  induction schema generalizing e arrays with
  | nil =>
      obtain rfl := Except.ok.inj hok
      exact .nil
  | cons p schema ih =>
      obtain ⟨hp, hnodup'⟩ := List.nodup_cons.mp hnodup
      unfold Rypipe.exportEngine at hok
      rcases hc : e.getColumn p.1 with _ | c
      · rcases hrest : Rypipe.exportEngine e schema with err | rest
        · simp [hc, hrest, bind, Except.bind] at hok
        simp only [hc, hrest, bind, Except.bind, pure, Except.pure] at hok
        obtain rfl := Except.ok.inj hok
        refine .cons ⟨fun c hsome => ?_, fun _ => rfl⟩ (ih h hnodup' hrest)
        rw [hc] at hsome
        cases hsome
      · rcases harray : c.toArrowArray with err | ⟨array, left⟩
        · simp [hc, harray, bind, Except.bind] at hok
        rcases hrest : Rypipe.exportEngine (e.setColumn p.1 left) schema with err | rest
        · simp [hc, harray, hrest, bind, Except.bind] at hok
        simp only [hc, harray, hrest, bind, Except.bind, pure, Except.pure] at hok
        obtain rfl := Except.ok.inj hok
        obtain ⟨hvalues, htype, -⟩ := ColumnBuilder.toArrowArray_left harray
        obtain ⟨hslotted, hrows, hget⟩ := h.setColumn p.1 left
        refine .cons ⟨fun c' hsome => ?_, fun hnone => ?_⟩ ?_
        · obtain rfl := Option.some.inj (hc.symm.trans hsome)
          exact ⟨hvalues, htype⟩
        · rw [hc] at hnone
          cases hnone
        · -- the columns of the other names are as before
          refine List.forall₂_iff_zip.mpr ?_
          obtain ⟨hlength, hall⟩ := List.forall₂_iff_zip.mp (ih hslotted hnodup' hrest)
          refine ⟨hlength, fun {q a} hqa => ?_⟩
          have hqp : q.1 ≠ p.1 := by
            intro heq
            apply hp
            rw [← heq]
            exact List.mem_map_of_mem (List.of_mem_zip hqa).1
          have hq := hall hqa
          rw [ExportsCells, hget q.1 hqp, hrows] at hq
          exact hq

/-- A column of the batch of one builder. It is found by its name and has the cells that the builder
holds under this name. -/
theorem exportsCells_of_columnByName (hmade : batch.MadeOf schema arrays)
    (h : List.Forall₂ (ExportsCells e) schema arrays) {n : String} {a : ArrayRef}
    (hcol : batch.columnByName n = some a) : ∃ datatype, ExportsCells e (n, datatype) a := by
  obtain ⟨i, hi, ha⟩ := Option.bind_eq_some_iff.mp hcol
  rw [hmade.schema] at hi
  rw [hmade.columns] at ha
  obtain ⟨hlt, hname, -⟩ := List.findIdx?_eq_some_iff_getElem.mp hi
  have hrel := rel_getElem? h i
  rw [ha, List.getElem?_eq_getElem hlt] at hrel
  generalize schema[i] = p at hname hrel
  obtain rfl := eq_of_beq hname
  exact ⟨p.2, Option.rel_some_some.mp hrel⟩

/-- The batch of one builder is one as Arrow makes it. A column of the schema that the builder has
not is exported as nulls of its type. -/
theorem Slotted.typed_exportEngine (h : e.Slotted) (hnodup : (schema.map Prod.fst).Nodup)
    (harrays : Rypipe.exportEngine e schema = .ok arrays)
    (hnew : RecordBatch.tryNew schema arrays = .ok batch) : batch.Typed := by
  have hmade := RecordBatch.madeOf_of_tryNew hnew
  refine ⟨fun a ha => hmade.rows a (hmade.columns ▸ ha), fun a ha x hx => ?_⟩
  rw [hmade.columns] at ha
  obtain ⟨p, hcells⟩ : ∃ p, ExportsCells e p a := by
    obtain ⟨i, hi⟩ := List.mem_iff_getElem?.mp ha
    have hrel := rel_getElem? (h.exportEngine_cells hnodup harrays) i
    rw [hi] at hrel
    generalize schema[i]? = found at hrel
    cases hrel with
    | some hcells => exact ⟨_, hcells⟩
  rcases hc : e.getColumn p.1 with _ | c
  · rw [hcells.2 hc] at hx
    exact absurd (List.eq_of_mem_replicate hx) (Option.some_ne_none x)
  · obtain ⟨hvalues, htype⟩ := hcells.1 c hc
    rw [hvalues] at hx
    rw [htype (List.ne_nil_of_mem hx)]
    exact ColumnBuilder.hasType_of_mem_cells hx

/-- **The batch of one builder is accepted** when the check passes on its rows. -/
theorem Slotted.accepted_exportEngine (h : e.Slotted) (hnodup : (schema.map Prod.fst).Nodup)
    (harrays : Rypipe.exportEngine e schema = .ok arrays)
    (hnew : RecordBatch.tryNew schema arrays = .ok batch) {plan : ExecutionPlan}
    {p : FilterPredicate} (hcheck : ∀ i < batch.rowCount,
      p.check e.columns e.fieldIndex i plan = true) : batch.Accepted plan p := by
  refine ⟨h.typed_exportEngine hnodup harrays hnew, fun i hi =>
    ⟨e.columns, e.fieldIndex, i, hcheck i hi, fun n hn => ?_⟩⟩
  obtain ⟨a, ha⟩ := Option.isSome_iff_exists.mp hn
  obtain ⟨datatype, hcells⟩ := exportsCells_of_columnByName (RecordBatch.madeOf_of_tryNew hnew)
    (h.exportEngine_cells hnodup harrays) ha
  rw [RecordBatch.cell, ha, Option.bind_some]
  show at? a.values i = (e.getColumn n).bind (·.getTypedValue i)
  rcases hc : e.getColumn n with _ | c
  · rw [hcells.2 hc, at?, List.getElem?_replicate]
    split
    · rfl
    · rfl
  · rw [(hcells.1 c hc).1]
    rfl

end Engine

end TableBuilder

end Rypipe
