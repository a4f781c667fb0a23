import Rypipe.Engine.EntryPoints
import Mathlib.Algebra.BigOperators.Group.List.Basic

/-! # The table a filtered run builds

What `finish` exports after a run, by the records that pass the filter of the plan; and so that the
adapters build one table of the same records. Without a filter all records pass. -/

namespace Rypipe

open TableBuilder

section Runs

variable [Platform] {plan : ExecutionPlan} {layout : Option FrozenSchema} {rows rows' : List Sent}

/-- The rows a run keeps. -/
def keptRows (plan : ExecutionPlan) (rows : List Sent) : List CurrentRow :=
  (rows.filter (passes plan)).map fun r => fieldsRow plan r.fields

/-- The run has no column: neither the plan nor the layout declares one, and no record has a field that
is kept. -/
def NoColumn (plan : ExecutionPlan) (layout : Option FrozenSchema) (rows : List Sent) : Prop :=
  (predeclared plan = [] ∧ ∀ schema ∈ layout, schema.columns = []) ∧
    ∀ r ∈ rows, planValues plan r.fields = []

/-- A run that keeps a row has a column. -/
def HasColumn (plan : ExecutionPlan) (layout : Option FrozenSchema) (rows : List Sent) : Prop :=
  NoColumn plan layout rows → keptRows plan rows = []

/-- A layout that admits other columns than its own, and has the types of the plan. -/
def Loose (plan : ExecutionPlan) (layout : Option FrozenSchema) : Prop :=
  ∀ schema ∈ layout, schema.exact = false ∧ ∀ p ∈ schema.columns, p.2 = plan.columnType p.1

/-- The name is exported: without a projection, or as a name of it. -/
def Exported (plan : ExecutionPlan) (name : String) : Prop :=
  plan.schemaOrder = [] ∨ name ∈ plan.schemaOrder

namespace TableBuilder

variable {b : TableBuilder} {t : Table} {batch : RecordBatch}

/-- The cells of an exported name are those of the rows of the table. A name with a column has its
array, read with a type that stores the same; a name of the projection without one has nulls, as the
rows have no value for it. -/
theorem ExportOf.cells_eq (h : b.ExportOf t batch) (hb : b.Between t) (ho : b.InOrder t)
    {name : String} (hname : Exported b.plan name)
    (hdropped : name ∈ b.plan.dropFields → ∀ row ∈ t.rows, row name = none) :
    batch.cells name = t.rows.map (cell store (b.plan.columnType name) name) := by
  by_cases hrows : t.rows = []
  · -- Arrow has checked that the cells are as many as the rows
    obtain ⟨_, _, _, _, schema, arrays, -, -, -, -, hnew⟩ := h.exported
    have hlength := (RecordBatch.madeOf_of_tryNew hnew).length_cells name
    rw [h.rowCount, hrows] at hlength
    rw [hrows]
    exact List.length_eq_zero_iff.mp hlength
  · have hcount := h.rowCount
    obtain ⟨u, hupgrade, hnames, rfl⟩ := h.batch hrows
    obtain ⟨hfound, hmissing⟩ := columnByName_batchOf u b.exportNames name
    rw [RecordBatch.cells]
    by_cases hmem : name ∈ b.exportNames
    · rw [hfound hmem]
      obtain ⟨ty, hty⟩ : ∃ ty, u.typeOf name = some ty := by
        rw [← Option.ne_none_iff_exists', Ne, RowTable.typeOf_eq_none, not_not]
        exact hnames name hmem
      have htype : (t.typeOf name).getD (b.plan.columnType name) = b.plan.columnType name := by
        cases hold : t.typeOf name with
        | none => rfl
        | some ty' => exact ho.types (name, ty') (RowTable.typeOf_eq_some.mp hold)
      have hstore := (hupgrade.types name ty hty).store_eq
      rw [htype] at hstore
      show u.rows.map (cell store ((u.typeOf name).getD .string) name) = _
      rw [hty, Option.getD_some, hupgrade.rows]
      refine List.map_congr_left fun row _ => ?_
      rw [cell, cell, hstore]
    · rw [hmissing hmem, hcount]
      have hnone : ∀ row ∈ t.rows, row name = none := by
        rw [exportNames] at hmem
        rcases hname with hempty | hin
        · rw [hempty, List.isEmpty_nil, if_pos rfl, hb.sound.order.mem_iff] at hmem
          intro row hrow
          by_contra hsome
          exact hmem (t.within row hrow name (Option.isSome_iff_ne_none.mpr hsome))
        · have hne : ¬ b.plan.schemaOrder.isEmpty = true := by
            rw [List.isEmpty_iff]
            rintro heq
            rw [heq] at hin
            cases hin
          rw [if_neg hne, List.mem_filter, not_and] at hmem
          exact hdropped (by simpa using hmem hin)
      rw [← List.map_const]
      refine List.map_congr_left fun row hrow => ?_
      rw [cell, hnone row hrow]
      rfl

end TableBuilder

/-- The run starts with the columns that the plan and the layout declare. -/
theorem columnOrder_start_eq_nil (plan : ExecutionPlan) (layout : Option FrozenSchema) :
    (start plan layout).columnOrder = [] ↔
      predeclared plan = [] ∧ ∀ schema ∈ layout, schema.columns = [] := by
  have hwith := between_withPlan plan
  simp only [List.eq_nil_iff_forall_not_mem (l := (start plan layout).columnOrder)]
  cases layout with
  | none =>
      simp only [start, hwith.sound.order.mem_iff, RowTable.names_declareAll, List.mem_eraseDups]
      rw [← List.eq_nil_iff_forall_not_mem, List.map_eq_nil_iff]
      exact (and_iff_left fun schema hs => absurd hs (Option.not_mem_none schema)).symm
  | some schema =>
      have hlaid := hwith.ensureSchema (RowTable.rows_declareAll _ _) schema
      simp only [start, hlaid.sound.order.mem_iff, RowTable.mem_names_declareAll,
        RowTable.names_declareAll, List.mem_eraseDups, not_or, forall_and]
      rw [← List.eq_nil_iff_forall_not_mem, ← List.eq_nil_iff_forall_not_mem, List.map_eq_nil_iff,
        List.map_eq_nil_iff]
      exact and_congr_right fun _ => by simp

/-- No field is unknown to a builder with a layout that is not exact. -/
theorem Loose.admitsAll (h : Loose plan layout) : (start plan layout).AdmitsAll := by
  cases layout with
  | none =>
      rw [AdmitsAll, start, (withPlan_frame plan).2]
      rfl
  | some schema =>
      show (some schema).filter (·.exact) = none
      rw [Option.filter_some, (h schema rfl).1]
      rfl

/-- A run without a layout. -/
theorem loose_none (plan : ExecutionPlan) : Loose plan none :=
  fun schema hs => absurd hs (Option.not_mem_none schema)

/-! ## The rows of a builder -/

/-- The rows that are kept of two lists are those of the first and then those of the second. -/
theorem keptRows_append (plan : ExecutionPlan) (rows rows' : List Sent) :
    keptRows plan (rows ++ rows') = keptRows plan rows ++ keptRows plan rows' := by
  rw [keptRows, List.filter_append, List.map_append]
  rfl

/-- The batches have the rows that pass, in order. -/
structure ShowsKept (plan : ExecutionPlan) (rows : List Sent) (batches : List RecordBatch) : Prop where
  rowCount : (batches.map RecordBatch.rowCount).sum = (keptRows plan rows).length
  cells : ∀ name, Exported plan name → batches.flatMap (·.cells name) =
    (keptRows plan rows).map (cell store (plan.columnType name) name)

/-- No batch is needed for no rows. -/
theorem ShowsKept.nil (plan : ExecutionPlan) : ShowsKept plan [] [] :=
  ⟨rfl, fun _ _ => rfl⟩

/-- The batches of two lists of rows, put one after the other, show the rows of both. -/
theorem ShowsKept.append {batches batches' : List RecordBatch} (h : ShowsKept plan rows batches)
    (h' : ShowsKept plan rows' batches') : ShowsKept plan (rows ++ rows') (batches ++ batches') := by
  refine ⟨?_, fun name hname => ?_⟩
  · rw [List.map_append, List.sum_append, h.rowCount, h'.rowCount, keptRows_append,
      List.length_append]
  · rw [List.flatMap_append, h.cells name hname, h'.cells name hname, keptRows_append,
      List.map_append]

/-- A builder between rows that has seen some records, and holds those of the last `rows` that pass. -/
structure HoldsKept (plan : ExecutionPlan) (layout : Option FrozenSchema)
    (seen rows : List Sent) (b : TableBuilder) : Prop where
  samePlan : b.plan = plan
  admits : b.AdmitsAll
  table : ∃ t, b.Between t ∧ b.InOrder t ∧ t.rows = keptRows plan rows ∧
    (t.names = [] ↔ NoColumn plan layout seen)

section Holds

variable {seen : List Sent} {b : TableBuilder} {batch : RecordBatch}

/-- A builder at the start of a run holds no row. -/
theorem holdsKept_start (hlayout : Loose plan layout) :
    HoldsKept plan layout [] [] (start plan layout) := by
  obtain ⟨t, h, ho, hplan, hrows⟩ := inOrder_start fun schema hs => (hlayout schema hs).2
  refine ⟨hplan, hlayout.admitsAll, t, h, ho, hrows, ?_⟩
  rw [← ho.order, columnOrder_start_eq_nil]
  exact (and_iff_left fun r hr => absurd hr List.not_mem_nil).symm

/-- The records are seen, and those that pass are held; a column may come from a record that does
not pass. -/
theorem HoldsKept.sendAll (h : HoldsKept plan layout seen rows b) {more : List Sent}
    (hmore : ∀ r ∈ more, ReadsAlike plan r) :
    HoldsKept plan layout (seen ++ more) (rows ++ more) (b.sendAll more) := by
  obtain ⟨hplan, hadmits, t, ht, ho, hrows, hnames⟩ := h
  subst hplan
  obtain ⟨t', ht', ho', hsame, hrows', hnames'⟩ := ht.sendAll ho hadmits hmore
  refine ⟨hsame.plan, hadmits.congr hsame.frozen, t', ht', ho', ?_, ?_⟩
  · rw [hrows', hrows, keptRows_append]
    rfl
  · rw [hnames', hnames, NoColumn, NoColumn, and_assoc, List.forall_mem_append]

/-- The rows that are cut off, and the builder that is left: it has the columns and none of the
rows. -/
theorem HoldsKept.splitOff (h : HoldsKept plan layout seen rows b) :
    HoldsKept plan layout seen rows (b.splitOff b.rowCount).1 ∧
      HoldsKept plan layout seen [] (b.splitOff b.rowCount).2 := by
  obtain ⟨hplan, hadmits, t, ht, ho, hrows, hnames⟩ := h
  obtain ⟨hpart, hrest⟩ := ht.splitOff le_rfl
  refine ⟨⟨hplan, hadmits, _, hpart, ⟨ho.order, ho.types, ho.projected⟩, ?_, hnames⟩,
    hplan, hadmits, _, hrest, ⟨ho.order, ho.types, ho.projected⟩, ?_, hnames⟩
  · show t.rows.take b.rowCount = _
    rw [ht.rowCount, List.take_length, hrows]
  · show t.rows.drop b.rowCount = _
    rw [ht.rowCount, List.drop_length]
    rfl

/-- The builder has counted the rows that pass, and no others. -/
theorem HoldsKept.rowCount (h : HoldsKept plan layout seen rows b) :
    b.rowCount = (keptRows plan rows).length := by
  obtain ⟨-, -, t, ht, -, hrows, -⟩ := h
  rw [ht.rowCount, hrows]

/-- What the builder exports: the empty batch if it has no column, and otherwise the rows it
holds. -/
theorem HoldsKept.finish (h : HoldsKept plan layout seen rows b) (hok : b.finish = .ok batch) :
    (NoColumn plan layout seen → batch = .newEmpty []) ∧
      (¬ NoColumn plan layout seen → ShowsKept plan rows [batch]) := by
  obtain ⟨rfl, -, t, ht, ho, hrows, hnames⟩ := h
  rw [← ho.order] at hnames
  rcases ht.finish_cases hok with ⟨hempty, rfl⟩ | hexport
  · exact ⟨fun _ => rfl, fun hcolumn => absurd (hnames.mp hempty) hcolumn⟩
  · refine ⟨fun hnone => absurd (hnames.mpr hnone) hexport.hasColumns,
      fun _ => ⟨?_, fun name hname => ?_⟩⟩
    · rw [List.map_singleton, List.sum_singleton, hexport.rowCount, hrows]
    · rw [List.flatMap_singleton, hexport.cells_eq ht ho hname fun hdrop row hrow => ?_, hrows]
      rw [hrows] at hrow
      obtain ⟨r, -, rfl⟩ := List.mem_map.mp hrow
      exact fieldsRow_of_dropped hdrop r.fields

end Holds

/-- The batch of a run. -/
theorem export_sendAll (hlayout : Loose plan layout) (hrows : ∀ r ∈ rows, ReadsAlike plan r)
    {batch : RecordBatch}
    (hok : ((start plan layout).sendAll rows).finish = .ok batch) :
    (NoColumn plan layout rows → batch = .newEmpty []) ∧
      (¬ NoColumn plan layout rows → ShowsKept plan rows [batch]) :=
  ((holdsKept_start hlayout).sendAll hrows).finish hok

/-- The cells of one batch. -/
theorem ShowsKept.singleton {batch : RecordBatch} (h : ShowsKept plan rows [batch]) :
    batch.rowCount = (keptRows plan rows).length ∧ ∀ name, Exported plan name →
      batch.cells name = (keptRows plan rows).map (cell store (plan.columnType name) name) := by
  refine ⟨?_, fun name hname => ?_⟩
  · rw [← h.rowCount, List.map_singleton, List.sum_singleton]
  · rw [← h.cells name hname, List.flatMap_singleton]

/-- Batches that have the rows that pass are the table that one builder makes of the records. -/
theorem ShowsKept.eq_table {batches : List RecordBatch} {table : RecordBatch}
    (h : ShowsKept plan rows batches) (hlayout : Loose plan layout) (hrows : ∀ r ∈ rows, ReadsAlike plan r)
    (htable : ((start plan layout).sendAll rows).finish = .ok table) (hschema : table.schema ≠ []) :
    (batches.map RecordBatch.rowCount).sum = table.rowCount ∧
      ∀ name, Exported plan name → batches.flatMap (·.cells name) = table.cells name := by
  obtain ⟨hempty, hshows⟩ := export_sendAll hlayout hrows htable
  obtain ⟨hcount, hcells⟩ := (hshows fun hnone => hschema (by rw [hempty hnone]; rfl)).singleton
  refine ⟨h.rowCount.trans hcount.symm, fun name hname => ?_⟩
  rw [h.cells name hname, hcells name hname]

/-- A filter of tests of texts that wait for their field. -/
def FilterPredicate.Waits : FilterPredicate → Prop
  | .and a b | .or a b => a.Waits ∧ b.Waits
  | .not inner => inner.Waits
  | .always _ => True
  | leaf => ∃ l, textLeaf leaf = some l ∧ l.early = .undecided

/-- Such a filter reads a record of texts alike. Tests of texts agree in every column, and a leaf
that waits for its field decides nothing on a part of the record, so that nothing it decides can be
wrong later. -/
theorem readsAlike_of_texts {r : Sent} (hwaits : ∀ f ∈ plan.filter, f.Waits)
    (htexts : ∀ field ∈ r.fields, ∃ s, field.2 = .str s)
    (hdistinct : ((planValues plan r.fields).map Prod.fst).Nodup) : ReadsAlike plan r := by
  intro f hmem
  have hf := hwaits f hmem
  clear hwaits hmem
  -- every value of the row is one of its fields, and so a text
  have htext : ∀ name value, fieldsRow plan r.fields name = some value → ∃ s, value = .str s := by
    intro name value hvalue
    have hmem : name ∈ (planValues plan r.fields).map Prod.fst := by
      rw [← rowOf_isSome]
      exact Option.isSome_iff_exists.mpr ⟨value, hvalue⟩
    obtain ⟨p, hp, rfl⟩ := List.mem_map.mp hmem
    obtain rfl := Option.some.inj ((rowOf_of_mem hdistinct hp).symm.trans hvalue)
    obtain ⟨field, hfield, hres⟩ := List.mem_filterMap.mp hp
    obtain ⟨n, -, rfl⟩ := Option.map_eq_some_iff.mp hres
    exact htexts field hfield
  -- a text is read the same from the buffer and from its column
  have hagrees : ∀ (l : TextLeaf) (ty : FieldType) (s : String), TextAgrees l ty (.str s) := by
    intro l ty s
    cases ty <;> trivial
  refine ⟨hdistinct, ?_, fun fields _ => ?_⟩
  · induction f with
    | and a b iha ihb => exact ⟨iha hf.1, ihb hf.2⟩
    | or a b iha ihb => exact ⟨iha hf.1, ihb hf.2⟩
    | not inner ih => exact ih hf
    | compare a op b =>
        obtain ⟨l, hl, -⟩ := hf
        cases hl
    | compareLiteral field op literal =>
        obtain ⟨l, hl, -⟩ := hf
        cases hl
    | arithmeticCompare field arithOp arithValue cmpOp cmpValue =>
        obtain ⟨l, hl, -⟩ := hf
        cases hl
    | isType field ft =>
        obtain ⟨l, hl, -⟩ := hf
        cases hl
    | _ =>
        intro l hl value hvalue
        obtain ⟨s, rfl⟩ := htext _ _ hvalue
        exact hagrees l _ s
  · induction f with
    | and a b iha ihb => exact ⟨iha hf.1, ihb hf.2⟩
    | or a b iha ihb => exact ⟨iha hf.1, ihb hf.2⟩
    | not inner ih => exact ih hf
    | always keep => exact fun l hl => by cases hl
    | isType field ft =>
        obtain ⟨l, hl, -⟩ := hf
        cases hl
    | _ =>
        intro l hl hdecided
        obtain ⟨l', hl', hearly⟩ := hf
        obtain rfl := Option.some.inj (hl'.symm.trans hl)
        exact absurd hearly hdecided

end Runs

section Evaluators

variable [Platform] {b : TableBuilder} {t : Table} {cur : CurrentRow} {f : FilterPredicate}

/-- **The two evaluators of a filter.** At the end of a row whose values went to the columns, the check of
the columns is the verdict that the buffered values would have given, where the leaves of the filter
agree on the row (`FilterAgrees`); for a filter of one leaf, nowhere else. -/
theorem evaluators_agree (h : b.Direct t cur) (ho : b.InOrder t) (hf : b.plan.filter = some f)
    (hdrop : ∀ name ∈ b.plan.dropFields, cur name = none) :
    (FilterAgrees b.plan cur f → evalPredicateWithNull b.plan (rowGet b.plan cur) f =
        .ofBool (f.check b.nullFill.columns b.fieldIndex b.rowCount b.plan)) ∧
      (f.IsLeaf → evalPredicateWithNull b.plan (rowGet b.plan cur) f =
        .ofBool (f.check b.nullFill.columns b.fieldIndex b.rowCount b.plan) →
        FilterAgrees b.plan cur f) := by
  have hshows := h.showsRow ho
  have hfinds : ∀ field ∈ f.fields, Finds b.plan cur field := fun field hfield =>
    finds_of_filter hf hdrop hfield
  exact ⟨hshows.agrees hfinds, fun hleaf => (hshows.leaf_iff hleaf hfinds).mp⟩

end Evaluators

section Examples

attribute [local instance] integerPlatform

/-- The filter `k = "1"`. -/
def onePlan : ExecutionPlan := { filter := some (.equal "k" "1") }

/-- A record that passes, sent by `put_field`, and one that `row_rejected` reports. -/
def twoRecords : List Sent :=
  [⟨.putField, false, [("a", .str "x"), ("k", .str "1")]⟩,
    ⟨.resolveAndPut, true, [("k", .str "2"), ("a", .str "y")]⟩]

/-- The filter waits for its field: a text that is not there decides nothing. -/
theorem waits_onePlan : ∀ f ∈ onePlan.filter, f.Waits := by
  intro f hf
  obtain rfl : FilterPredicate.equal "k" "1" = f := Option.some.inj hf
  exact ⟨_, rfl, rfl⟩

/-- The filter reads both records alike, since they have texts only and no name twice. -/
theorem readsAlike_twoRecords : ∀ r ∈ twoRecords, ReadsAlike onePlan r := by
  have htexts : ∀ r ∈ twoRecords, ∀ field ∈ r.fields, ∃ s, field.2 = .str s := by
    rw [twoRecords, List.forall_mem_cons, List.forall_mem_singleton]
    exact ⟨List.forall_mem_cons.mpr ⟨⟨_, rfl⟩, List.forall_mem_singleton.mpr ⟨_, rfl⟩⟩,
      List.forall_mem_cons.mpr ⟨⟨_, rfl⟩, List.forall_mem_singleton.mpr ⟨_, rfl⟩⟩⟩
  have hdistinct : ∀ r ∈ twoRecords, ((planValues onePlan r.fields).map Prod.fst).Nodup := by
    rw [twoRecords, List.forall_mem_cons, List.forall_mem_singleton]
    exact ⟨by decide, by decide⟩
  exact fun r hr => readsAlike_of_texts waits_onePlan (htexts r hr) (hdistinct r hr)

/-- A builder that has stopped buffering. -/
def unbuffered : TableBuilder := { withPlan onePlan with rowBuf := some { bufferWorthwhile := false } }

/-- The value `k = "1"`. -/
def putOne : Put := .field "k" (.str "1")

/-- Its row `k = "1"` passes either way, by the buffered text and by the stored one. -/
theorem evaluators_agree_one : evalPredicateWithNull onePlan
      (rowGet onePlan (unbuffered.assignPut noRow putOne)) (.equal "k" "1") =
    .ofBool ((FilterPredicate.equal "k" "1").check (unbuffered.put putOne).nullFill.columns
      (unbuffered.put putOne).fieldIndex (unbuffered.put putOne).rowCount onePlan) := by
  obtain ⟨t, h, ho, -, -⟩ := @inOrder_start _ onePlan none nofun
  have hdirect : unbuffered.Direct t noRow :=
    ⟨⟨h.sound.holds, h.sound.order, h.sound.known, rfl⟩, h.rowCount, rfl, rfl⟩
  have ho' : unbuffered.InOrder t := ho.congr rfl rfl
  have hput := (hdirect.put putOne).1
  have hmode : unbuffered.WriteMode t noRow False := .named (.columns hdirect)
  have horder := ho'.put hmode (p := putOne) rfl rfl List.not_mem_nil
  refine (evaluators_agree hput horder rfl fun _ hname => absurd hname List.not_mem_nil).1 ?_
  intro l hl value hvalue
  cases hl
  obtain rfl : Value.str "1" = value := Option.some.inj hvalue
  trivial

end Examples

end Rypipe
