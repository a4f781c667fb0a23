import Rypipe.ParallelExport
import Rypipe.Stream.OneSchema

/-! # The projection of the exported batches

Under a plan with a `schema_order`, `finish` exports the projected columns whatever was read.
`engines_to_record_batches` exports every column of the builders, so also the columns that only the
filter reads: its batches have the projected columns exactly when the filter reads no other. -/

namespace Rypipe

section Projection

variable [Platform]

namespace ExecutionPlan

/-- The projected columns: the names of `schema_order` that are not dropped. -/
def projection (plan : ExecutionPlan) : List String :=
  plan.schemaOrder.filter fun n => !(n ∈ plan.dropFields : Bool)

/-- The output names the filter reads. -/
def filterColumns (plan : ExecutionPlan) : List String :=
  ((plan.filter.map (collectPredicateFieldNames plan)).getD []).filter
    fun n => !(n ∈ plan.dropFields : Bool)

/-- Every column the filter reads is projected. -/
def FilterProjected (plan : ExecutionPlan) : Prop := ∀ n ∈ plan.filterColumns, n ∈ plan.projection

instance (plan : ExecutionPlan) : Decidable plan.FilterProjected :=
  inferInstanceAs (Decidable (∀ n ∈ plan.filterColumns, n ∈ plan.projection))

variable {plan : ExecutionPlan}

/-- A name the plan resolves a field to is projected or read by the filter. -/
theorem mem_predeclared_of_resolve (hschema : plan.schemaOrder ≠ []) {raw name : String}
    (h : plan.resolveField raw = some name) : name ∈ plan.projection ++ plan.filterColumns := by
  obtain ⟨hname, hdrop⟩ := resolveField_eq_some h
  have hkeep : (!(name ∈ plan.dropFields : Bool)) = true := by simpa using hdrop
  by_cases hmem : name ∈ plan.schemaOrder
  · exact List.mem_append_left _ (List.mem_filter.mpr ⟨hmem, hkeep⟩)
  · refine List.mem_append_right _ (List.mem_filter.mpr ⟨?_, hkeep⟩)
    have href : plan.filterReferences name = true := by
      by_contra hnot
      rw [resolveField] at h
      simp [← hname, hdrop, hmem, hschema, hnot] at h
    cases hfilter : plan.filter with
    | none => simp [filterReferences, hfilter] at href
    | some f =>
        simp only [filterReferences, hfilter, List.any_eq_true, beq_iff_eq] at href
        obtain ⟨field, hfield, hrename⟩ := href
        refine List.mem_map.mpr ⟨field, hfield, ?_⟩
        rw [filterName, resolveField_of_mem_fields hfilter hfield, hrename, if_neg hdrop]
        rfl

/-- Declaring the projection and what the filter reads declares the projection alone exactly when
the filter reads no other column. -/
theorem eraseDups_predeclared (hnodup : plan.schemaOrder.Nodup) :
    (plan.projection ++ plan.filterColumns).eraseDups = plan.projection ↔
      plan.FilterProjected := by
  have hprojection : plan.projection.eraseDups = plan.projection :=
    eraseDups_of_nodup (hnodup.filter _)
  rw [eraseDups_append_eq, hprojection, FilterProjected]
  constructor
  · intro h n hn
    have hnil := List.filter_eq_nil_iff.mp (List.append_right_eq_self.mp h)
    simpa using hnil n (List.mem_eraseDups.mpr hn)
  · intro h
    rw [List.filter_eq_nil_iff.mpr, List.append_nil]
    intro n hn
    simpa using h n (List.mem_eraseDups.mp hn)

end ExecutionPlan

/-! ## The columns of the builders -/

namespace TableBuilder

/-- The builder has the columns of the given names, in that order. -/
def Laid (names : List String) (b : TableBuilder) : Prop :=
  b.columnOrder = names ∧ ∀ n ∈ names, (b.getColumn n).isSome

section Laid

variable {names : List String} {b b' : TableBuilder}

/-- Only the slots decide whether a column exists. -/
theorem isSome_getColumn (b : TableBuilder) (n : String) :
    (b.getColumn n).isSome ↔ ∃ i, b.fieldIndex.lookup n = some i ∧ i < b.columns.length := by
  rw [getColumn, Option.isSome_bind, Option.any_eq_true]
  refine exists_congr fun i => and_congr_right fun _ => ?_
  simp

/-- The layout speaks of the index, the export order and the number of columns. -/
theorem Laid.congr (h : b.Laid names) (hindex : b'.fieldIndex = b.fieldIndex)
    (horder : b'.columnOrder = b.columnOrder) (hlength : b'.columns.length = b.columns.length) :
    b'.Laid names := by
  refine ⟨horder.trans h.1, fun n hn => ?_⟩
  rw [isSome_getColumn, hindex, hlength, ← isSome_getColumn]
  exact h.2 n hn

/-- Replacing a column keeps the layout. -/
theorem Laid.setColumn (h : b.Laid names) (n : String) (c : ColumnBuilder) :
    (b.setColumn n c).Laid names := by
  rw [TableBuilder.setColumn]
  split
  · exact h.congr rfl rfl List.length_set
  · exact h

/-- Normalizing the columns keeps the layout. -/
theorem Laid.prepareFinish (h : b.Laid names) (hok : b.prepareFinish = .ok b') :
    b'.Laid names := by
  obtain ⟨hunknown, hstrict⟩ := errors_of_prepareFinish hok
  rw [TableBuilder.prepareFinish, hunknown, hstrict] at hok
  obtain rfl := Except.ok.inj hok
  exact h.congr rfl rfl (List.length_map _)

omit [Platform] in
/-- A fold of steps that keep a property keeps it. The fold stops at the first error, and then there
is nothing to show. -/
theorem foldlM_keeps {α β ε : Type} {P : β → Prop} {f : β → α → Except ε β}
    (h : ∀ b a b', P b → f b a = .ok b' → P b') {xs : List α} {b b' : β} (hb : P b)
    (hok : xs.foldlM f b = .ok b') : P b' := by
  induction xs generalizing b with
  | nil => exact Except.ok.inj hok ▸ hb
  | cons a xs ih =>
      rw [List.foldlM_cons] at hok
      cases ha : f b a with
      | error err => simp [ha, bind, Except.bind] at hok
      | ok b₁ =>
          simp only [ha, bind, Except.bind] at hok
          exact ih (h b a b₁ hb ha) hok

/-- Promoting columns to shared variants keeps the layout. Only the variant of a column changes,
never its name or its place. -/
theorem Laid.promoteColumns {targets : Targets} (h : b.Laid names)
    (hok : promoteColumns targets b = .ok b') : b'.Laid names := by
  refine foldlM_keeps (P := Laid names) (fun b n b' hb hstep => ?_) h hok
  split at hstep
  · next target c _ _ =>
    cases hc : c.promoteToVariant target with
    | error err => simp [hc, bind, Except.bind] at hstep
    | ok c' =>
        simp only [hc, bind, Except.bind, pure, Except.pure, Except.ok.injEq] at hstep
        exact hstep ▸ hb.setColumn n c'
  · exact Except.ok.inj hstep ▸ hb

/-- The sightings of a builder are of its columns. -/
theorem Laid.sightings (h : b.Laid names) : (sightings b).map Prod.fst = names := by
  rw [Rypipe.sightings, h.1, List.map_filterMap]
  conv_rhs => rw [← List.filterMap_some (l := names)]
  refine List.filterMap_congr fun n hn => ?_
  obtain ⟨c, hc⟩ := Option.isSome_iff_exists.mp (h.2 n hn)
  rw [hc]
  rfl

end Laid

end TableBuilder

/-! ## The columns of the batches -/

open TableBuilder

omit [Platform] in
/-- A sighting adds its name to the targets, once. A name that is there keeps its place, also when
the sighting changes its key. -/
theorem names_noteVariant {targets out : Targets} {name key : String}
    (hok : noteVariant targets name key = .ok out) :
    out.map Prod.fst = if name ∈ targets.map Prod.fst then targets.map Prod.fst
      else targets.map Prod.fst ++ [name] := by
  rw [noteVariant] at hok
  cases hlook : targets.lookup name with
  | none =>
      rw [hlook] at hok
      have hnot : name ∉ targets.map Prod.fst := by
        intro hmem
        obtain ⟨p, hp, hname⟩ := List.mem_map.mp hmem
        have hne := List.lookup_eq_none_iff.mp hlook p hp
        simp [hname] at hne
      rw [if_neg hnot, ← Except.ok.inj hok, List.map_append]
      rfl
  | some t =>
      have hmem : name ∈ targets.map Prod.fst := by
        obtain ⟨l₁, l₂, hsplit, -⟩ := List.lookup_eq_some_iff.mp hlook
        rw [hsplit]
        simp
      simp only [hlook] at hok
      split at hok
      · next u _ =>
        rw [if_pos hmem, ← Except.ok.inj hok, List.map_map]
        refine List.map_congr_left fun p _ => ?_
        by_cases hp : p.1 = name
        · simp [hp]
        · simp [hp]
      · cases hok

/-- The targets are the names seen, in order of first appearance. -/
theorem names_unifyTargets {engines : List TableBuilder} {targets : Targets}
    (hok : unifyTargets engines = .ok targets) :
    targets.map Prod.fst = ((engines.flatMap sightings).map Prod.fst).eraseDups := by
  have hfold : ∀ (ps : List (String × String)) (seen : List String) {start out : Targets},
      start.map Prod.fst = seen.eraseDups →
      ps.foldlM (fun targets p => noteVariant targets p.1 p.2) start = .ok out →
      out.map Prod.fst = (seen ++ ps.map Prod.fst).eraseDups := by
    intro ps
    induction ps with
    | nil =>
        intro seen start out hstart hok
        rw [List.map_nil, List.append_nil, ← hstart, ← Except.ok.inj hok]
    | cons p ps ih =>
        intro seen start out hstart hok
        rw [List.foldlM_cons] at hok
        cases hp : noteVariant start p.1 p.2 with
        | error err => simp [hp, bind, Except.bind] at hok
        | ok next =>
            simp only [hp, bind, Except.bind] at hok
            have hnext := names_noteVariant hp
            rw [hstart] at hnext
            simp only [List.mem_eraseDups] at hnext
            rw [← eraseDups_concat] at hnext
            rw [ih _ hnext hok, List.append_assoc]
            rfl
  exact hfold (engines.flatMap sightings) [] rfl hok

section Merged

variable {names : List String} {plan : ExecutionPlan}

/-- Builders with the same columns are merged under their names. -/
theorem names_unifyTargets_of_laid (hnodup : names.Nodup) {engines : List TableBuilder}
    (hlaid : ∀ e ∈ engines, e.Laid names) (hne : engines ≠ []) {targets : Targets}
    (hok : unifyTargets engines = .ok targets) : targets.map Prod.fst = names := by
  rw [names_unifyTargets hok]
  cases engines with
  | nil => exact absurd rfl hne
  | cons e engines =>
      have hrest : ∀ n ∈ (engines.flatMap sightings).map Prod.fst, n ∈ names := by
        intro n hn
        rw [List.map_flatMap] at hn
        obtain ⟨e', he', hn⟩ := List.mem_flatMap.mp hn
        rwa [(hlaid e' (List.mem_cons_of_mem _ he')).sightings] at hn
      rw [List.flatMap_cons, List.map_append, (hlaid e List.mem_cons_self).sightings,
        eraseDups_append_eq, eraseDups_of_nodup hnodup, List.filter_eq_nil_iff.mpr,
        List.append_nil]
      intro n hn
      simpa using hrest n (List.mem_eraseDups.mp hn)

/-- Every column of some builder has an Arrow type. -/
theorem isSome_firstDatatype {engines : List TableBuilder} (hlaid : ∀ e ∈ engines, e.Laid names)
    (hne : engines ≠ []) {n : String} (hn : n ∈ names) : (firstDatatype engines n).isSome := by
  obtain ⟨e, he⟩ := List.exists_mem_of_ne_nil engines hne
  rw [firstDatatype, List.findSome?_isSome_iff]
  refine ⟨e, he, ?_⟩
  rw [(hlaid e he).1, if_pos hn, Option.isSome_map]
  exact (hlaid e he).2 n hn

/-- The recheck of the filter keeps the schema. It drops rows or returns the batch as it was, and
does not touch the fields. -/
theorem applyCompareFilter_schema {batch batch' : RecordBatch} {predicate : FilterPredicate}
    (hok : applyCompareFilter batch predicate = .ok batch') : batch'.schema = batch.schema := by
  rw [applyCompareFilter] at hok
  split at hok
  · exact Except.ok.inj hok ▸ rfl
  · cases hmask : compareMask batch predicate with
    | error err => simp [hmask, bind, Except.bind] at hok
    | ok mask =>
        simp only [hmask, bind, Except.bind] at hok
        cases mask with
        | none => exact Except.ok.inj hok ▸ rfl
        | some mask => exact Except.ok.inj hok ▸ rfl

/-- **The batches of builders with the same columns have those columns.** Promotion to shared
variants changes types, not names, and each builder's batch is made over the fields of the first
sighting of each name. -/
theorem names_enginesToRecordBatches (hnodup : names.Nodup) {engines : List TableBuilder}
    (hlaid : ∀ e ∈ engines, e.Laid names) {batches : List RecordBatch}
    (hok : enginesToRecordBatches engines plan = .ok batches) :
    ∀ batch ∈ batches, batch.names = names := by
  rw [enginesToRecordBatches] at hok
  cases hprepared : engines.mapM TableBuilder.prepareFinish with
  | error err => simp [hprepared, bind, Except.bind] at hok
  | ok prepared =>
  have hlive : ∀ e ∈ prepared.filter (fun e => decide (0 < e.rowCount)), e.Laid names := by
    intro e he
    obtain ⟨e', he', hfinish⟩ := (Stream.mem_of_mapM hprepared).2 e (List.mem_filter.mp he).1
    exact (hlaid e' he').prepareFinish hfinish
  simp only [hprepared, bind, Except.bind] at hok
  generalize prepared.filter (fun e => decide (0 < e.rowCount)) = live at hok hlive
  cases hunify : unifyTargets live with
  | error err => simp [hunify] at hok
  | ok targets =>
  simp only [hunify] at hok
  split at hok
  · cases hok
    intro batch hbatch
    cases hbatch
  cases hpromoted : live.mapM (promoteColumns targets) with
  | error err => simp [hpromoted] at hok
  | ok engines' =>
  simp only [hpromoted] at hok
  have hlaid' : ∀ e ∈ engines', e.Laid names := by
    intro e he
    obtain ⟨e', he', hstep⟩ := (Stream.mem_of_mapM hpromoted).2 e he
    exact (hlive e' he').promoteColumns hstep
  split at hok
  · cases hok
  next assembled hassembled =>
  -- a batch comes from a builder, so that there is one to take the columns from
  have hassembled_names : ∀ batch ∈ assembled, batch.names = names := by
    intro batch hbatch
    obtain ⟨e, he, hexport⟩ := (Stream.mem_of_mapM hassembled).2 batch hbatch
    obtain ⟨e', he', -⟩ := (Stream.mem_of_mapM hpromoted).2 e he
    have htargets := names_unifyTargets_of_laid hnodup hlive (List.ne_nil_of_mem he') hunify
    split at hexport
    · cases hexport
    rw [RecordBatch.names, (RecordBatch.madeOf_of_tryNew hexport).schema, List.map_filterMap, ← htargets,
      ← List.filterMap_eq_map]
    refine List.filterMap_congr fun p hp => ?_
    obtain ⟨datatype, hdatatype⟩ := Option.isSome_iff_exists.mp
      (isSome_firstDatatype hlaid' (List.ne_nil_of_mem he)
        (htargets ▸ List.mem_map_of_mem hp : p.1 ∈ names))
    rw [hdatatype]
    rfl
  split at hok
  · intro batch hbatch
    obtain ⟨batch', hbatch', hfilter⟩ := (Stream.mem_of_mapM hok).2 batch hbatch
    rw [RecordBatch.names, applyCompareFilter_schema hfilter]
    exact hassembled_names batch' hbatch'
  · cases hok
    exact hassembled_names

end Merged

/-! ## Chunks under one plan -/

namespace TableBuilder

variable {plan : ExecutionPlan}

/-- The resolved names put are names the plan resolves some field to. -/
def Resolved (plan : ExecutionPlan) (calls : List Call) : Prop :=
  ∀ name value, Call.put (.fieldResolved name value) ∈ calls →
    ∃ raw, plan.resolveField raw = some name

/-- Declaring names keeps their order of first appearance. A name that is declared again has its
column and adds nothing. -/
theorem columnOrder_declareColumns (b : TableBuilder) (seen : List String)
    (hkeys : ∀ n, n ∈ b.fieldIndex ↔ n ∈ seen) (horder : b.columnOrder = seen.eraseDups)
    (ps : List (String × FieldType)) :
    (ps.foldl (fun b p => b.declareColumn p.1 p.2) b).columnOrder =
      (seen ++ ps.map Prod.fst).eraseDups := by
  induction ps generalizing b seen with
  | nil => rw [List.map_nil, List.append_nil]; exact horder
  | cons p ps ih =>
      have hrest := ih (b.declareColumn p.1 p.2) (seen ++ [p.1])
      rw [List.append_assoc] at hrest
      rw [List.foldl_cons, List.map_cons]
      rw [declareColumn] at hrest ⊢
      by_cases hmem : p.1 ∈ b.fieldIndex
      · rw [if_pos hmem] at hrest ⊢
        refine hrest (fun n => ?_) ?_
        · rw [hkeys, List.mem_append, List.mem_singleton]
          exact ⟨Or.inl, fun h => h.elim id fun heq => heq ▸ (hkeys p.1).mp hmem⟩
        · rw [eraseDups_concat, if_pos ((hkeys p.1).mp hmem), horder]
      · rw [if_neg hmem] at hrest ⊢
        refine hrest (fun n => ?_) ?_
        · show n ∈ b.fieldIndex.insert p.1 b.columns.length ↔ _
          rw [AList.mem_insert, hkeys, List.mem_append, List.mem_singleton, or_comm]
        · show b.columnOrder.insertIdx b.columnOrder.length p.1 = _
          rw [List.insertIdx_length_self, eraseDups_concat,
            if_neg fun h => hmem ((hkeys p.1).mpr h), horder]

/-- `with_plan` lays out the projection, and behind it what only the filter reads. -/
theorem laid_withPlan (hschema : plan.schemaOrder ≠ []) :
    (withPlan plan).Laid (plan.projection ++ plan.filterColumns).eraseDups := by
  have horder : (withPlan plan).columnOrder =
      (plan.projection ++ plan.filterColumns).eraseDups := by
    have hempty : plan.schemaOrder.isEmpty = false := by simpa using hschema
    rw [withPlan]
    simp only [predeclareSchemaColumns, hempty, Bool.false_eq_true, ↓reduceIte]
    rw [foldl_declareColumn rfl]
    have hnames := columnOrder_declareColumns
      { plan, rowBuf := plan.filter.map fun _ => {} } [] (fun n => by simp) rfl
      ((predeclaredNames plan).map fun n => (n, plan.columnType n))
    rw [List.map_map] at hnames
    have hpredeclared : predeclaredNames plan = plan.projection ++ plan.filterColumns := rfl
    rw [← hpredeclared]
    simpa [Function.comp_def] using hnames
  refine ⟨horder, fun n hn => ?_⟩
  have hdeclared := declared_withPlan plan
  rw [← horder, hdeclared.order.mem_iff] at hn
  obtain ⟨i, c, hi, hc, -⟩ := hdeclared.column_of_mem hn
  rw [getColumn, hi, Option.bind_some, hc]
  rfl

/-- Calls with resolved names put values only in the columns that exist. -/
theorem sameColumns_of_resolved (hschema : plan.schemaOrder ≠ []) {calls : List Call}
    (hresolved : Resolved plan calls) :
    (withPlan plan).SameColumns ((withPlan plan).callAll calls) := by
  refine sameColumns_callAll_of_mem fun n hn => ?_
  rw [(withPlan_frame plan).1] at hn
  have hfield : ∃ raw, plan.resolveField raw = some n := by
    obtain ⟨c, hc, htarget⟩ := List.mem_filterMap.mp hn
    cases c with
    | put p =>
        cases p with
        | field raw value => exact ⟨raw, htarget⟩
        | fieldResolved name value =>
            obtain rfl := Option.some.inj htarget
            exact hresolved name value hc
        | resolveAndPut raw value => exact ⟨raw, htarget⟩
    | _ => cases htarget
  obtain ⟨raw, hraw⟩ := hfield
  obtain ⟨horder, hcolumns⟩ := laid_withPlan hschema
  have hmem := hcolumns n (List.mem_eraseDups.mpr
    (ExecutionPlan.mem_predeclared_of_resolve hschema hraw))
  obtain ⟨i, hi, -⟩ := (isSome_getColumn _ n).mp hmem
  rw [← AList.lookup_isSome, hi]
  rfl

/-- A builder under the plan exports the projection. Every name that a call can write is one of the
plan, so the builder has no columns but the declared ones. -/
theorem names_finish (hschema : plan.schemaOrder ≠ []) {calls : List Call}
    (hresolved : Resolved plan calls) {batch : RecordBatch}
    (hok : ((withPlan plan).callAll calls).finish = .ok batch) :
    batch.names = plan.projection := by
  have hsame := sameColumns_of_resolved hschema hresolved
  have hplan := hsame.plan.trans (withPlan_frame plan).1
  have hexport : ((withPlan plan).callAll calls).exportNames = plan.projection := by
    rw [exportNames, hplan]
    simp [hschema, ExecutionPlan.projection]
  have hdeclared := (declared_withPlan plan).congr hsame
  have hnames := hdeclared.finish_schema (fun n hn => ?_) hok
  · rw [RecordBatch.names, hnames, List.map_map, hexport]
    exact List.map_id'' (fun n => rfl) _
  · rw [hexport] at hn
    have hlaid := laid_withPlan hschema
    rw [← (declared_withPlan plan).order.mem_iff, hlaid.1, List.mem_eraseDups]
    exact List.mem_append_left _ hn

/-- **The projection is the same in both exports exactly when the filter reads projected columns
alone.** One builder always exports the projection. -/
theorem projection_iff (hschema : plan.schemaOrder ≠ []) (hnodup : plan.schemaOrder.Nodup)
    {chunks : List (List Call)} (hresolved : ∀ calls ∈ chunks, Resolved plan calls)
    {batches : List RecordBatch}
    (hok : enginesToRecordBatches (chunks.map (withPlan plan).callAll) plan = .ok batches)
    (hrows : ∃ batch ∈ batches, 0 < batch.rowCount) :
    ((∀ batch, ((withPlan plan).callAll chunks.flatten).finish = .ok batch →
        0 < batch.rowCount → batch.names = plan.projection) ∧
      ∀ batch ∈ batches, 0 < batch.rowCount → batch.names = plan.projection) ↔
    plan.FilterProjected := by
  have hwhole : Resolved plan chunks.flatten := by
    intro name value hmem
    obtain ⟨calls, hcalls, hput⟩ := List.mem_flatten.mp hmem
    exact hresolved calls hcalls name value hput
  -- every chunk has the columns of the projection and of the filter, and no other one
  have hlaid : ∀ e ∈ chunks.map (withPlan plan).callAll,
      e.Laid (plan.projection ++ plan.filterColumns).eraseDups := by
    intro e he
    obtain ⟨calls, hcalls, rfl⟩ := List.mem_map.mp he
    have hsame := sameColumns_of_resolved hschema (hresolved calls hcalls)
    have hlength := congrArg List.length hsame.kinds
    rw [kinds, kinds, List.length_map, List.length_map] at hlength
    exact (laid_withPlan hschema).congr hsame.index hsame.order hlength
  -- the merge exports all of them, and `finish` only the projection
  have hmerged := names_enginesToRecordBatches (nodup_eraseDups _) hlaid hok
  rw [← ExecutionPlan.eraseDups_predeclared hnodup]
  constructor
  · rintro ⟨-, hbatches⟩
    obtain ⟨batch, hbatch, hcount⟩ := hrows
    rw [← hmerged batch hbatch]
    exact hbatches batch hbatch hcount
  · intro hprojected
    refine ⟨fun batch hfinish _ => names_finish hschema hwhole hfinish, fun batch hbatch _ => ?_⟩
    rw [hmerged batch hbatch, hprojected]

end TableBuilder

end Projection

section Examples

attribute [local instance] integerPlatform

namespace TableBuilder

/-- A projection to `a` under a filter on a column of the name given. -/
def projectedPlan (name : String) : ExecutionPlan :=
  { schemaOrder := ["a"], filter := some (.equal name "1") }

/-- The rows that an adapter sends by `put_field` are resolved by the builder. -/
theorem resolved_rowCalls (plan : ExecutionPlan) (fields : List (String × String)) :
    Resolved plan (Stream.rowCalls fields) := by
  intro name value hmem
  simp [Stream.rowCalls] at hmem

/-- A filter on the projected column. Both chunks are exported with the one column `a`, and the row
of the second does not pass. -/
theorem projection_of_projected_filter :
    (⟨[("a", .utf8)], [⟨.utf8, [some (.str "1")]⟩], 1⟩ : RecordBatch).names =
      (projectedPlan "a").projection := by
  have hok : enginesToRecordBatches
      ([Stream.rowCalls [("a", "1")], Stream.rowCalls [("a", "2")]].map (withPlan (projectedPlan "a")).callAll)
      (projectedPlan "a") = .ok [⟨[("a", .utf8)], [⟨.utf8, [some (.str "1")]⟩], 1⟩] := rfl
  refine ((projection_iff (by decide) (by decide) (fun calls hcalls => ?_) hok
    ⟨_, List.mem_singleton_self _, by decide⟩).mpr (by decide)).2 _ (List.mem_singleton_self _)
    (by decide)
  rcases List.mem_pair.mp hcalls with rfl | rfl <;> exact resolved_rowCalls _ _

/-- A column that only the filter reads is exported with the batches of the chunks. -/
theorem projection_falls :
    ¬ ∀ (plan : ExecutionPlan) (chunks : List (List Call)) (batches : List RecordBatch),
      plan.schemaOrder ≠ [] → plan.schemaOrder.Nodup → (∀ calls ∈ chunks, Resolved plan calls) →
      enginesToRecordBatches (chunks.map (withPlan plan).callAll) plan = .ok batches →
      ∀ batch ∈ batches, 0 < batch.rowCount → batch.names = plan.projection := by
  intro h
  have hok : enginesToRecordBatches
      ([Stream.rowCalls [("a", "1"), ("k", "1")]].map (withPlan (projectedPlan "k")).callAll)
      (projectedPlan "k") =
        .ok [⟨[("a", .utf8), ("k", .utf8)],
          [⟨.utf8, [some (.str "1")]⟩, ⟨.utf8, [some (.str "1")]⟩], 1⟩] := rfl
  have hnames := h (projectedPlan "k") [Stream.rowCalls [("a", "1"), ("k", "1")]] _ (by decide) (by decide)
    (fun calls hcalls => List.mem_singleton.mp hcalls ▸ resolved_rowCalls _ _) hok _
    (List.mem_singleton_self _) (by decide)
  exact absurd hnames (by decide)

end TableBuilder

end Examples

end Rypipe
