import Rypipe.Parallel
import Rypipe.ParallelExport
import Rypipe.Engine.FilteredRun

/-! # The rows of a parallel parse

`ParallelExecutor::parse` without `auto_dict`. Under a filter the columns of a chunk depend on the rows
that were rejected, and on how its builder read them; but the type of a column goes by its name, so that
the chunks are exported over one schema. A filter that is not made of comparisons of columns alone is not
checked again on the batches. -/

namespace Rypipe

section Typed

variable [Platform]

/-- The batch of the rows, under names with their types. -/
def typedBatch (types : String → FieldType) (names : List String) (rows : List CurrentRow) :
    RecordBatch :=
  ⟨schemaOf (names.map fun n => (n, types n)), (names.map fun n => (n, types n)).map fun p =>
    ⟨p.2.arrowType, rows.map (cell store p.2 p.1)⟩, rows.length⟩

/-- Its cells are those of the rows, when no row has another column. -/
theorem cells_typedBatch {types : String → FieldType} {names : List String} {rows : List CurrentRow}
    {n : String} (h : ∀ row ∈ rows, row n ≠ none → n ∈ names) :
    (typedBatch types names rows).cells n = rows.map (cell store (types n) n) := by
  obtain ⟨hfound, hmissing⟩ := find?_typed types names n
  rw [RecordBatch.cells, typedBatch, schemaOf, RecordBatch.columnByName_map]
  dsimp only
  by_cases hn : n ∈ names
  · rw [hfound hn]
    rfl
  · rw [hmissing hn, Option.map_none]
    show List.replicate rows.length none = _
    rw [← List.map_const']
    refine List.map_congr_left fun row hrow => ?_
    have hnone : row n = none := by
      by_contra hsome
      exact hn (h row hrow hsome)
    rw [cell, hnone]
    rfl

namespace TableBuilder

/-- A builder between rows that holds the rows, in columns whose types go by their names. -/
def HoldsTyped (types : String → FieldType) (rows : List CurrentRow) (b : TableBuilder) : Prop :=
  ∃ t, b.Between t ∧ t.rows = rows ∧ ∀ p ∈ t.cols, p.2 = types p.1

section Builder

variable {types : String → FieldType} {rows : List CurrentRow} {b : TableBuilder}

/-- The column of a name stores the cells that the kept rows have under it, and where the builder
has no such column none of these rows has a value for it. -/
theorem HoldsTyped.getColumn (h : HoldsTyped types rows b) (n : String) :
    (n ∈ b.columnOrder → ∃ c, b.getColumn n = some c ∧
      c.Stores (types n) (rows.map (cell store (types n) n))) ∧
    (n ∉ b.columnOrder → b.getColumn n = none ∧ ∀ row ∈ rows, row n = none) := by
  obtain ⟨t, ht, rfl, htypes⟩ := h
  rw [ht.sound.order.mem_iff]
  constructor
  · intro hn
    obtain ⟨p, hp, rfl⟩ := List.mem_map.mp hn
    obtain ⟨i, hi⟩ := List.mem_iff_getElem?.mp hp
    obtain ⟨c, hc, hst⟩ := ht.sound.holds.stored i _ hi
    rw [pending_noRow, List.append_nil, htypes p hp] at hst
    refine ⟨c, ?_, hst⟩
    rw [TableBuilder.getColumn, ht.sound.holds.lookup_of_cols hi]
    exact hc
  · intro hn
    refine ⟨?_, fun row hrow => ?_⟩
    · rw [TableBuilder.getColumn, (ht.sound.holds.lookup_eq_none n).mpr hn]
      rfl
    · by_contra hsome
      exact hn (t.within row hrow n (Option.isSome_iff_ne_none.mpr hsome))

theorem HoldsTyped.rowCount (h : HoldsTyped types rows b) : b.rowCount = rows.length := by
  obtain ⟨t, ht, rfl, -⟩ := h
  exact ht.rowCount

/-- `prepare_finish` keeps the rows and the columns. -/
theorem HoldsTyped.prepareFinish (h : HoldsTyped types rows b) {b' : TableBuilder}
    (hok : b.prepareFinish = .ok b') : HoldsTyped types rows b' ∧ b'.columnOrder = b.columnOrder := by
  obtain ⟨t, ht, hrows, htypes⟩ := h
  obtain ⟨hunknown, hstrict⟩ := errors_of_prepareFinish hok
  obtain ⟨b₁, hb₁, ht₁, horder, -⟩ := ht.prepareFinish hunknown hstrict
  obtain rfl := Except.ok.inj (hb₁.symm.trans hok)
  exact ⟨⟨t, ht₁, hrows, htypes⟩, horder⟩

/-- The sightings of a builder are its columns with the keys of their types. -/
theorem HoldsTyped.sightings (h : HoldsTyped types rows b) :
    sightings b = keyed types b.columnOrder := by
  rw [Rypipe.sightings, keyed, ← List.filterMap_eq_map]
  refine List.filterMap_congr fun n hn => ?_
  obtain ⟨c, hc, hst⟩ := (h.getColumn n).1 hn
  rw [hc, Option.map_some, ColumnBuilder.variantKey_eq, hst.kind]
  rfl

/-- Columns that have the common variants already are not promoted. -/
theorem HoldsTyped.promoteColumns (h : HoldsTyped types rows b) (names : List String) :
    promoteColumns (keyed types names) b = .ok b := by
  refine foldlM_eq_self (fun name => ?_) b.columnOrder
  rw [lookup_keyed]
  by_cases hname : name ∈ names
  · rw [if_pos hname]
    cases hc : b.getColumn name with
    | none => rfl
    | some c =>
        have hn : name ∈ b.columnOrder := by
          by_contra hn
          rw [((h.getColumn name).2 hn).1] at hc
          cases hc
        obtain ⟨c', hc', hst⟩ := (h.getColumn name).1 hn
        obtain rfl := Option.some.inj (hc.symm.trans hc')
        have hkey : c.variantKey = (types name).variantKey := by
          rw [ColumnBuilder.variantKey_eq, hst.kind]
        have hset : b.setColumn name c = b := by
          obtain ⟨i, hi, hci⟩ := Option.bind_eq_some_iff.mp hc
          rw [setColumn, hi]
          dsimp only
          obtain ⟨hlt, hget⟩ := List.getElem?_eq_some_iff.mp hci
          rw [← hget, List.set_getElem_self]
        simp [ColumnBuilder.promoteToVariant, hkey, hset, bind, Except.bind, pure, Except.pure]
  · rw [if_neg hname]

/-- The batch of a chunk over the columns of all chunks. A column that the chunk lacks is exported
as nulls, which is what its kept rows have there. -/
theorem HoldsTyped.exportEngine (h : HoldsTyped types rows b) (hne : rows ≠ []) {names : List String}
    (hnodup : names.Nodup) (hnames : names ≠ []) :
    (Rypipe.exportEngine b (schemaOf (names.map fun n => (n, types n))) >>=
      RecordBatch.tryNew (schemaOf (names.map fun n => (n, types n)))) =
        .ok (typedBatch types names rows) := by
  obtain ⟨t, ht, hrows, htypes⟩ := h
  have hfst : (names.map fun n => (n, types n)).map Prod.fst = names := by
    rw [List.map_map, List.map_id'']
    exact fun n => rfl
  have harrays := ht.sound.slotted.exportEngine (hfst.symm ▸ hnodup)
    (fun p => rows.map (cell store p.2 p.1)) fun p hp => by
      obtain ⟨n, -, rfl⟩ := List.mem_map.mp hp
      obtain ⟨hfound, hmissing⟩ := HoldsTyped.getColumn ⟨t, ht, hrows, htypes⟩ n
      -- a column that the chunk lacks is exported as nulls, which is what its rows have there
      by_cases hn : n ∈ b.columnOrder
      · obtain ⟨c, hc, hst⟩ := hfound hn
        exact .inl ⟨c, hc, hst, by simpa using hne⟩
      · obtain ⟨hnone, hnull⟩ := hmissing hn
        refine .inr ⟨hnone, ?_⟩
        rw [ht.rowCount, hrows, ← List.map_const']
        refine List.map_congr_left fun row hrow => ?_
        rw [cell, hnull row hrow]
        rfl
  have hcols : (names.map fun n => (n, types n)) ≠ [] := by simpa using hnames
  have hnew := tryNew_arrayOf t hcols
  have hcolumns : (names.map fun n => (n, types n)).map (arrayOf t) =
      (names.map fun n => (n, types n)).map fun p =>
        ⟨p.2.arrowType, rows.map (cell store p.2 p.1)⟩ := by
    rw [← hrows]
    rfl
  have hbatch : batchOf t (names.map fun n => (n, types n)) = typedBatch types names rows := by
    rw [batchOf, hcolumns, hrows]
    rfl
  rw [harrays]
  rw [hcolumns, hbatch] at hnew
  exact hnew

end Builder

/-! ## The chunks together -/

section Chunks

variable {types : String → FieldType} {chunks : List (List CurrentRow)} {engines : List TableBuilder}
  {plan : ExecutionPlan} {batches : List RecordBatch}

/-- The builders of the chunks, prepared for the export, hold the same rows and count as many. -/
theorem prepared_chunks (h : List.Forall₂ (HoldsTyped types) chunks engines)
    {prepared : List TableBuilder} (hok : engines.mapM prepareFinish = .ok prepared) :
    List.Forall₂ (HoldsTyped types) chunks prepared ∧
      List.Forall₂ (fun e e' => e'.rowCount = e.rowCount ∧ e'.columnOrder = e.columnOrder)
        engines prepared := by
  have hall := forall₂_of_mapM hok
  clear hok
  induction h generalizing prepared with
  | nil =>
      cases hall
      exact ⟨.nil, .nil⟩
  | cons he _ ih =>
      cases hall with
      | cons hprepare hall =>
          obtain ⟨hchunks, hsame⟩ := ih hall
          obtain ⟨hholds, horder⟩ := he.prepareFinish hprepare
          exact ⟨.cons hholds hchunks,
            .cons ⟨hholds.rowCount.trans he.rowCount.symm, horder⟩ hsame⟩

/-- Builders without rows are left out, and so are the chunks of which they have kept no row. -/
theorem typed_filter (h : List.Forall₂ (HoldsTyped types) chunks engines) :
    List.Forall₂ (HoldsTyped types) (chunks.filter fun rows => !rows.isEmpty)
      (engines.filter fun e => decide (0 < e.rowCount)) := by
  induction h with
  | nil => exact .nil
  | @cons rows e chunks engines he _ ih =>
      have hcount := he.rowCount
      cases rows with
      | nil =>
          rw [List.filter_cons_of_neg (by simp), List.filter_cons_of_neg (by simp [hcount])]
          exact ih
      | cons row rows =>
          rw [List.filter_cons_of_pos (by simp), List.filter_cons_of_pos (by simp [hcount])]
          exact .cons he ih

/-- The names the chunks have. -/
def engineNames (engines : List TableBuilder) : List String :=
  engines.flatMap TableBuilder.columnOrder

theorem sightings_engines (h : List.Forall₂ (HoldsTyped types) chunks engines) :
    engines.flatMap sightings = keyed types (engineNames engines) := by
  induction h with
  | nil => rfl
  | cons he _ ih =>
      rw [List.flatMap_cons, ih, he.sightings]
      exact List.map_append.symm

/-- The Arrow type of a name that some chunk has is that of its one type, whichever chunk is the
first to have it. -/
theorem firstDatatype_engines (h : List.Forall₂ (HoldsTyped types) chunks engines) {n : String}
    (hn : n ∈ engineNames engines) : firstDatatype engines n = some (types n).arrowType := by
  induction h with
  | nil => cases hn
  | @cons rows e chunks engines he _ ih =>
      rw [firstDatatype, List.findSome?_cons]
      by_cases hmem : n ∈ e.columnOrder
      · obtain ⟨c, hc, hst⟩ := (he.getColumn n).1 hmem
        rw [if_pos hmem, hc, Option.map_some, c.arrowDatatype_eq, hst.kind]
      · rw [if_neg hmem]
        refine ih ?_
        rw [engineNames, List.flatMap_cons, List.mem_append] at hn
        exact hn.resolve_left hmem

/-- The columns of a row that was kept are among the names of the chunks, so the export has a column
for each of its values. -/
theorem mem_engineNames (h : List.Forall₂ (HoldsTyped types) chunks engines)
    {rows : List CurrentRow} (hrows : rows ∈ chunks) {row : CurrentRow} (hrow : row ∈ rows)
    {n : String} (hn : row n ≠ none) : n ∈ engineNames engines := by
  induction h with
  | nil => cases hrows
  | @cons rows' e chunks engines he _ ih =>
      rw [engineNames, List.flatMap_cons, List.mem_append]
      rcases List.mem_cons.mp hrows with rfl | hrows
      · left
        by_contra hnot
        exact hn (((he.getColumn n).2 hnot).2 row hrow)
      · exact .inr (ih hrows)

/-- The end of `engines_to_record_batches`: what it makes of the common variants. -/
def exportTargets (plan : ExecutionPlan) (targets : Targets) (engines : List TableBuilder) :
    Except Error (List RecordBatch) := do
  if targets.isEmpty then return []
  let engines ← engines.mapM (Rypipe.promoteColumns targets)
  let schema : Schema := targets.filterMap fun p =>
    (firstDatatype engines p.1).map fun datatype => (p.1, datatype)
  let batches ← engines.mapM fun e => do RecordBatch.tryNew schema (← Rypipe.exportEngine e schema)
  match plan.filter with
  | some filter => batches.mapM fun batch => applyCompareFilter batch filter
  | none => return batches

/-- Where the types go by the names, it exports the chunks as they are. -/
theorem exportTargets_typed (h : List.Forall₂ (HoldsTyped types) chunks engines)
    (hrows : ∀ rows ∈ chunks, rows ≠ [])
    (hrecheck : ∀ filter, plan.filter = some filter → isPureCompareTree filter = false)
    {names : List String} (hnodup : names.Nodup) (hnames : names ≠ [])
    (hmem : ∀ n ∈ names, n ∈ engineNames engines) :
    exportTargets plan (keyed types names) engines = .ok (chunks.map (typedBatch types names)) := by
  have htargets : (keyed types names).isEmpty = false := by
    rw [List.isEmpty_eq_false_iff]
    exact fun hnil => hnames (List.map_eq_nil_iff.mp hnil)
  have hpromoted : engines.mapM (Rypipe.promoteColumns (keyed types names)) = .ok engines :=
    mapM_eq_self h fun rows e he => he.promoteColumns names
  have hcolumns : (keyed types names).filterMap (fun p =>
      (firstDatatype engines p.1).map fun datatype => (p.1, datatype)) =
        schemaOf (names.map fun n => (n, types n)) := by
    rw [keyed, List.filterMap_map, schemaOf, List.map_map, ← List.filterMap_eq_map]
    refine List.filterMap_congr fun n hn => ?_
    simp only [Function.comp_apply, firstDatatype_engines h (hmem n hn), Option.map_some]
  have hexported := mapM_eq_map h fun rows hrows' e he =>
    he.exportEngine (hrows rows hrows') hnodup hnames
  rw [exportTargets, htargets, if_neg Bool.false_ne_true, hpromoted]
  simp only [bind, Except.bind, hcolumns] at hexported ⊢
  rw [hexported]
  cases hfilter : plan.filter with
  | none => rfl
  | some filter =>
      -- the batches are not filtered again
      have hself : ∀ batch : RecordBatch, applyCompareFilter batch filter = .ok batch := by
        intro batch
        rw [applyCompareFilter, hrecheck filter hfilter]
        rfl
      dsimp only
      exact mapM_eq_self (List.forall₂_same.mpr fun _ _ => trivial)
        fun (_ batch : RecordBatch) (_ : True) => hself batch

/-- **The chunks are exported over one schema**: whenever the export succeeds, each chunk with rows is a
batch of them, under the same names, and no cell is lost; if every chunk with rows has a column, and the
batches are not filtered again. -/
theorem export_typed (h : List.Forall₂ (HoldsTyped types) chunks engines)
    (hcolumns : ∀ e ∈ engines, 0 < e.rowCount → e.columnOrder ≠ [])
    (hrecheck : ∀ filter, plan.filter = some filter → isPureCompareTree filter = false)
    (hok : enginesToRecordBatches engines plan = .ok batches) :
    ∃ names : List String,
      batches = (chunks.filter fun rows => !rows.isEmpty).map (typedBatch types names) ∧
      ∀ rows ∈ chunks, ∀ row ∈ rows, ∀ n, row n ≠ none → n ∈ names := by
  rw [enginesToRecordBatches] at hok
  cases hprepare : engines.mapM prepareFinish with
  | error err =>
      rw [hprepare] at hok
      cases hok
  | ok prepared =>
  obtain ⟨hprepared, hsame⟩ := prepared_chunks h hprepare
  have hlive := typed_filter hprepared
  have hlive_columns : ∀ e ∈ prepared.filter (fun e => decide (0 < e.rowCount)), e.columnOrder ≠ [] := by
    intro e he
    obtain ⟨hmem, hrows⟩ := List.mem_filter.mp he
    obtain ⟨e₀, he₀, hcount, horder⟩ := exists_of_mem_right hsame hmem
    rw [horder]
    exact hcolumns e₀ he₀ (hcount ▸ of_decide_eq_true hrows)
  have hrest : (unifyTargets (prepared.filter fun e => decide (0 < e.rowCount)) >>= fun targets =>
      exportTargets plan targets (prepared.filter fun e => decide (0 < e.rowCount))) = .ok batches := by
    rw [hprepare] at hok
    exact hok
  generalize prepared.filter (fun e => decide (0 < e.rowCount)) = live at hlive hlive_columns hrest
  generalize hparts : chunks.filter (fun rows => !rows.isEmpty) = parts at hlive ⊢
  refine ⟨(engineNames live).eraseDups, ?_, fun rows hrows row hrow n hn => ?_⟩
  · have hunify := foldlM_noteVariant types [] (engineNames live) List.nodup_nil
    rw [List.nil_append, ← sightings_engines hlive, List.eraseDups_nil] at hunify
    split at hunify
    · have htargets : unifyTargets live = .ok (keyed types (engineNames live).eraseDups) := hunify
      rw [htargets] at hrest
      by_cases hnames : (engineNames live).eraseDups = []
      · -- there is no column, and so no chunk with rows
        have hnone : live = [] := by
          rw [List.eq_nil_iff_forall_not_mem]
          intro e he
          obtain ⟨n, hn⟩ := List.exists_mem_of_ne_nil _ (hlive_columns e he)
          have hmem : n ∈ (engineNames live).eraseDups :=
            List.mem_eraseDups.mpr (List.mem_flatMap.mpr ⟨e, he, hn⟩)
          rw [hnames] at hmem
          cases hmem
        rw [hnames] at hrest
        subst hnone
        cases hlive
        cases hrest
        rfl
      · have hnonempty : ∀ rows ∈ parts, rows ≠ [] := by
          intro rows hmem hnil
          rw [← hparts, List.mem_filter, hnil] at hmem
          exact absurd hmem.2 (by simp)
        have hexported := exportTargets_typed hlive hnonempty hrecheck (nodup_eraseDups _) hnames
          fun n hn => List.mem_eraseDups.mp hn
        exact Except.ok.inj (hrest.symm.trans hexported)
    · obtain ⟨err, herr⟩ := hunify
      have herror : unifyTargets live = .error err := herr
      rw [herror] at hrest
      cases hrest
  · rw [List.mem_eraseDups]
    have hpart : rows ∈ parts := by
      rw [← hparts, List.mem_filter]
      refine ⟨hrows, ?_⟩
      rw [Bool.not_eq_true', List.isEmpty_eq_false_iff]
      exact List.ne_nil_of_mem hrow
    exact mem_engineNames hlive hpart hrow hn

/-- The batches have the rows of the chunks, one chunk after the other. -/
theorem cells_export_typed (h : List.Forall₂ (HoldsTyped types) chunks engines)
    (hcolumns : ∀ e ∈ engines, 0 < e.rowCount → e.columnOrder ≠ [])
    (hrecheck : ∀ filter, plan.filter = some filter → isPureCompareTree filter = false)
    (hok : enginesToRecordBatches engines plan = .ok batches) :
    (batches.map RecordBatch.rowCount).sum = chunks.flatten.length ∧
      ∀ n, batches.flatMap (·.cells n) = chunks.flatten.map (cell store (types n) n) := by
  obtain ⟨names, rfl, hnames⟩ := export_typed h hcolumns hrecheck hok
  clear hok hcolumns h
  induction chunks with
  | nil => exact ⟨rfl, fun n => rfl⟩
  | cons rows chunks ih =>
      obtain ⟨hcount, hcells⟩ := ih fun rows hrows => hnames rows (List.mem_cons_of_mem _ hrows)
      cases hrows : rows with
      | nil =>
          rw [List.filter_cons_of_neg (by simp), List.flatten_cons, List.nil_append]
          exact ⟨hcount, hcells⟩
      | cons row rest =>
          rw [← hrows, List.filter_cons_of_pos (by simp [hrows]), List.map_cons, List.map_cons,
            List.sum_cons, List.flatten_cons, List.length_append]
          refine ⟨congrArg _ hcount, fun n => ?_⟩
          rw [List.flatMap_cons, hcells, List.map_append,
            cells_typedBatch fun row hrow => hnames rows List.mem_cons_self row hrow n]

/-- Under one plan the chunks have consistent schemas: a name has the same type in every chunk that
has a column for it. -/
theorem schemasConsistent_of_typed (h : List.Forall₂ (HoldsTyped types) chunks engines) :
    schemasConsistent engines = true := by
  have hkey : ∀ e ∈ engines, ∀ n c, e.getColumn n = some c → c.variantKey = (types n).variantKey := by
    intro e he n c hc
    obtain ⟨rows, -, hrows⟩ := exists_of_mem_right h he
    by_cases hn : n ∈ e.columnOrder
    · obtain ⟨c', hc', hst⟩ := (hrows.getColumn n).1 hn
      obtain rfl := Option.some.inj (hc.symm.trans hc')
      rw [ColumnBuilder.variantKey_eq, hst.kind]
    · rw [((hrows.getColumn n).2 hn).1] at hc
      cases hc
  cases engines with
  | nil => rfl
  | cons first rest =>
      rw [schemasConsistent, List.all_eq_true]
      intro e he
      rw [List.all_eq_true]
      intro entry hentry
      split
      · next c c' hc hc' =>
        have hlook : e.fieldIndex.lookup entry.1 = some entry.2 := by
          exact AList.mem_lookup_iff.mpr hentry
        have hget : e.getColumn entry.1 = some c' := by
          rw [TableBuilder.getColumn, hlook]
          exact hc'
        rw [beq_iff_eq, hkey first List.mem_cons_self _ c hc,
          hkey e (List.mem_cons_of_mem _ he) _ c' hget]
      · rfl

end Chunks

/-! ## Filtered chunks -/

section Filtered

variable {plan : ExecutionPlan} {chunks : List (List Sent)}

/-- The builder of a chunk holds the rows that pass, under the types of the plan. -/
theorem holdsTyped_sendAll {rows : List Sent} (hrows : ∀ r ∈ rows, ReadsAlike plan r) :
    HoldsTyped plan.columnType (keptRows plan rows) ((withPlan plan).sendAll rows) ∧
      (((withPlan plan).sendAll rows).columnOrder = [] ↔ NoColumn plan none rows) := by
  obtain ⟨hplan, -, t, ht, ho, hkept, hnames⟩ :=
    (holdsKept_start (loose_none plan)).sendAll hrows
  have htypes := ho.types
  rw [hplan] at htypes
  rw [← ho.order] at hnames
  exact ⟨⟨t, ht, hkept, htypes⟩, hnames⟩

end Filtered

end TableBuilder

end Typed

section Examples

attribute [local instance] integerPlatform

namespace TableBuilder

/-- A chunk of the two records, and one whose record is left out. -/
def twoChunks : List (List Sent) := [twoRecords, [⟨.putField, false, [("k", .str "3")]⟩]]

end TableBuilder

end Examples

end Rypipe
