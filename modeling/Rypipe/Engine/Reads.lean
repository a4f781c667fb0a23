import Rypipe.Engine.Strict

/-! # Builders that have read rows

What a list of rows, fed to a new builder whose plan has no row filter, leaves in it: a column of the
plan's type for every output name, with the cells of the rows, in the order in which the names come
first; and a strict-types error exactly when some string of the rows does not parse. -/

namespace Rypipe

variable [Platform]

namespace TableBuilder

/-- The output names of the fields of a list of rows, after the predeclared ones. -/
def outputNames (plan : ExecutionPlan) (rows : List (List Put)) : List String :=
  (predeclared plan).map Prod.fst ++ rows.flatMap fun puts => puts.filterMap fun p => p.target plan

/-- The columns a list of names declares are the names in order of first appearance. -/
theorem names_declareAll_planTyped (plan : ExecutionPlan) (names : List String) :
    ((RowTable.empty : Table).declareAll (planTyped plan names)).names = names.eraseDups := by
  rw [RowTable.names_declareAll, planTyped, List.map_map, List.map_id'']
  exact fun n => rfl

/-- Each of them has the type its plan gives it, and there are no others. -/
theorem typeOf_declareAll_planTyped (plan : ExecutionPlan) (names : List String) (n : String)
    (ty : FieldType) :
    ((RowTable.empty : Table).declareAll (planTyped plan names)).typeOf n = some ty ↔
      n ∈ names ∧ ty = plan.columnType n := by
  have htype : ∀ ty', ((RowTable.empty : Table).declareAll (planTyped plan names)).typeOf n =
      some ty' → ty' = plan.columnType n := by
    intro ty' h
    rcases RowTable.typeOf_declareAll h with hold | ⟨-, hmem⟩
    · cases hold
    · obtain ⟨m, -, heq⟩ := List.mem_map.mp hmem
      obtain ⟨rfl, rfl⟩ := Prod.mk.inj heq
      rfl
  have hnone : ((RowTable.empty : Table).declareAll (planTyped plan names)).typeOf n = none ↔
      n ∉ ((RowTable.empty : Table).declareAll (planTyped plan names)).names :=
    RowTable.typeOf_eq_none
  rw [names_declareAll_planTyped, List.mem_eraseDups] at hnone
  constructor
  · intro h
    refine ⟨?_, htype ty h⟩
    by_contra hn
    rw [hnone.mpr hn] at h
    cases h
  · rintro ⟨hn, rfl⟩
    cases h : ((RowTable.empty : Table).declareAll (planTyped plan names)).typeOf n with
    | none => exact absurd hn (hnone.mp h)
    | some ty' => rw [htype ty' h]

/-- The output names of two lists of rows are those of either. -/
theorem mem_outputNames_append (plan : ExecutionPlan) (rows rows' : List (List Put)) (n : String) :
    n ∈ outputNames plan (rows ++ rows') ↔
      n ∈ outputNames plan rows ∨ n ∈ outputNames plan rows' := by
  simp only [outputNames, List.flatMap_append, List.mem_append]
  tauto

/-- A builder between rows that has read a list of rows under a plan. -/
structure Reads (plan : ExecutionPlan) (rows : List (List Put)) (b : TableBuilder) : Prop where
  samePlan : b.plan = plan
  table : ∃ t, b.Between t ∧ t.rows = rows.map (planRow plan) ∧
    ∀ n ty, t.typeOf n = some ty ↔ n ∈ outputNames plan rows ∧ ty = plan.columnType n
  order : plan.schemaOrder = [] → b.columnOrder = (outputNames plan rows).eraseDups

/-- The calls that feed a row. -/
def rowCalls (puts : List Put) : List Call := .beginRow :: (puts.map .put ++ [.endRow])

/-- A row is its calls: `begin_row`, the puts, `end_row`. -/
theorem row_eq_callAll (b : TableBuilder) (puts : List Put) :
    b.row puts = b.callAll (rowCalls puts) := by
  rw [callAll, rowCalls, List.foldl_cons, List.foldl_append, List.foldl_map]
  rfl

/-- A feed is the calls of its rows. -/
theorem feed_eq_callAll (b : TableBuilder) (rows : List (List Put)) :
    b.feed rows = b.callAll (rows.flatMap rowCalls) := by
  induction rows generalizing b with
  | nil => rfl
  | cons puts rows ih =>
      rw [List.flatMap_cons, callAll, List.foldl_append, ← callAll, ← callAll, ← row_eq_callAll]
      exact ih _

/-- A row in progress after a list of rows. -/
theorem inRow_eq_callAll (b : TableBuilder) (rows : List (List Put)) (puts : List Put) :
    (b.feed rows).beginRow.putAll puts =
      b.callAll (rows.flatMap rowCalls ++ .beginRow :: puts.map .put) := by
  rw [feed_eq_callAll, callAll, callAll, List.foldl_append, List.foldl_cons, List.foldl_map]
  rfl

/-- The names that the calls of rows are for are the targets of their puts. -/
theorem callTargets_rowCalls (plan : ExecutionPlan) (rows : List (List Put)) :
    callTargets plan (rows.flatMap rowCalls) =
      rows.flatMap fun puts => puts.filterMap fun p => p.target plan := by
  induction rows with
  | nil => rfl
  | cons puts rows ih =>
      rw [List.flatMap_cons, List.flatMap_cons, ← ih, callTargets, callTargets,
        List.filterMap_append]
      congr 1
      simp [rowCalls, List.filterMap_map]

/-- Feeding rows without a filter reads them. By induction on the rows: each declares its output
names and is committed. -/
theorem reads_feed {plan : ExecutionPlan} (hfilter : plan.filter = none)
    (rows : List (List Put)) : Reads plan rows ((withPlan plan).feed rows) := by
  obtain ⟨hplan, hfrozen⟩ := withPlan_frame plan
  obtain ⟨t, ht, hsame, hcols, hrows⟩ :=
    (between_withPlan plan).feed_of_no_filter (by rw [hplan]; exact hfilter) hfrozen rows
  rw [hplan] at hcols hrows
  -- the projected columns are declared first, with their types in the plan
  have hpre : (RowTable.empty : Table).declareAll (predeclared plan) =
      RowTable.empty.declareAll (planTyped plan ((predeclared plan).map Prod.fst)) := by
    congr 1
    rw [planTyped, List.map_map, predeclared]
    split
    · rfl
    · rw [List.map_map]
      rfl
  have hnames : ((RowTable.empty : Table).declareAll (predeclared plan)).declareAll
      (rows.flatMap (planColumns plan)) =
        RowTable.empty.declareAll (planTyped plan (outputNames plan rows)) := by
    rw [outputNames, planTyped, List.map_append, RowTable.declareAll_append, ← planTyped, ← hpre,
      List.map_flatMap]
    rfl
  refine ⟨hsame.plan.trans hplan, ⟨t, ht, ?_, ?_⟩, ?_⟩
  · rw [hrows, RowTable.rows_declareAll]
    exact List.nil_append _
  · intro n ty
    rw [RowTable.typeOf, hcols, hnames]
    exact typeOf_declareAll_planTyped plan _ n ty
  · intro hschema
    -- no name is unknown without a frozen schema, so all columns are declared in order
    have hunknown := (unknownError_callAll_of_frozen hfrozen (rows.flatMap rowCalls)).trans
      (unknownError_withPlan plan)
    have hdeclared := (declared_withPlan plan).callAll hunknown
    rw [← feed_eq_callAll, hplan, callTargets_rowCalls] at hdeclared
    rw [hdeclared.1.inOrder (by rw [hdeclared.2]; exact hschema), hpre, ← RowTable.declareAll_append, planTyped,
      planTyped, ← List.map_append, ← planTyped, names_declareAll_planTyped]
    rfl

/-! ## Strict types -/

/-- A put whose string parses as the type declared for its column, where the plan asks for it. -/
def Parses (plan : ExecutionPlan) (p : Put) : Prop :=
  plan.strictTypes = true → ∀ name, p.target plan = some name → Checked plan name p.value

section Strict

variable {b : TableBuilder} {t : Table}

/-- The slot of a column that is made sure of has its name, in the export order that is that of the
slots here. -/
theorem Declared.ensureColumnIdx_slot (h : b.Declared t) (hschema : b.plan.schemaOrder = [])
    {name : String} (hexact : b.exactWithout name = none) :
    (b.ensureColumnIdx name).1.columnOrder[(b.ensureColumnIdx name).2]? = some name ∧
      (b.ensureColumnIdx name).1.plan = b.plan ∧
      (b.ensureColumnIdx name).1.strictError = b.strictError := by
  rw [TableBuilder.ensureColumnIdx]
  cases hlook : b.fieldIndex.lookup name with
  | some idx =>
      refine ⟨?_, rfl, rfl⟩
      rw [h.inOrder hschema]
      exact (h.indexed name idx).mp hlook
  | none =>
      simp only [hexact]
      refine ⟨?_, rfl, rfl⟩
      show (b.columnOrder.insertIdx (b.schemaInsertIndex name) name)[b.columns.length]? = some name
      have hlength : b.columnOrder.length = b.columns.length := by
        rw [h.inOrder hschema, h.size, RowTable.names, List.length_map]
      rw [schemaInsertIndex_of_notMem (hschema ▸ List.not_mem_nil), List.insertIdx_length_self,
        ← hlength]
      exact List.getElem?_concat_length

/-- A put leaves no error exactly when its string parses, and no earlier one did not. -/
theorem Declared.strictError_put (h : b.Declared t) (hschema : b.plan.schemaOrder = [])
    (hfrozen : b.frozen = none) (p : Put) :
    (b.put p).strictError = none ↔ b.strictError = none ∧ Parses b.plan p := by
  cases htarget : p.target b.plan with
  | none =>
      rw [put_of_dropped htarget, Parses, htarget]
      exact ⟨fun hnone => ⟨hnone, fun _ name hname => by cases hname⟩, And.left⟩
  | some name =>
      have hexact := exactWithout_of_frozen hfrozen name
      obtain ⟨hslot, hplan, hstrict⟩ := h.ensureColumnIdx_slot hschema hexact
      rw [(quiet_put htarget hexact).strict, admitField,
        strictError_recordStrictViolationAt hslot, hplan, hstrict, Parses, htarget]
      refine and_congr_right fun _ => forall_congr' fun _ => ?_
      exact ⟨fun hchecked n hn => Option.some.inj hn ▸ hchecked, fun hall => hall name rfl⟩

/-- A run of puts leaves no error exactly when all their strings parse. -/
theorem Declared.strictError_callAll (h : b.Declared t) (hschema : b.plan.schemaOrder = [])
    (hfrozen : b.frozen = none) (hunknown : b.unknownError = none) {calls : List Call}
    (hcalls : ∀ c ∈ calls, c = .beginRow ∨ c = .endRow ∨ ∃ p, c = .put p) :
    (b.callAll calls).strictError = none ↔
      b.strictError = none ∧ ∀ p, .put p ∈ calls → Parses b.plan p := by
  induction calls generalizing b t with
  | nil => exact ⟨fun hnone => ⟨hnone, fun p hp => by cases hp⟩, And.left⟩
  | cons c calls ih =>
      obtain ⟨hkept, hlayout⟩ := unknownError_call_of_frozen hfrozen c
      obtain ⟨hcall, hplan, -⟩ := h.call (hkept.trans hunknown)
      have hrest := ih hcall (hplan ▸ hschema) hlayout (hkept.trans hunknown) fun c' hc' =>
        hcalls c' (List.mem_cons_of_mem _ hc')
      rw [hplan] at hrest
      refine hrest.trans ?_
      rcases hcalls c List.mem_cons_self with rfl | rfl | ⟨p, rfl⟩
      · rw [show (b.call .beginRow).strictError = b.strictError from b.quiet_beginRow.strict]
        simp
      · rw [show (b.call .endRow).strictError = b.strictError from b.quiet_endRow.strict]
        simp
      · rw [show (b.call (.put p)).strictError = none ↔ _ from h.strictError_put hschema hfrozen p]
        simp only [List.mem_cons, Call.put.injEq, forall_eq_or_imp, and_assoc]

end Strict

/-- Feeding rows leaves no error exactly when all their strings parse. -/
theorem errors_feed {plan : ExecutionPlan} (hschema : plan.schemaOrder = [])
    (rows : List (List Put)) :
    ((withPlan plan).feed rows).unknownError = none ∧
      (((withPlan plan).feed rows).strictError = none ↔
        ∀ puts ∈ rows, ∀ p ∈ puts, Parses plan p) := by
  obtain ⟨hplan, hfrozen⟩ := withPlan_frame plan
  have hunknown := unknownError_withPlan plan
  have hmem : ∀ c, c ∈ rows.flatMap rowCalls →
      c = .beginRow ∨ c = .endRow ∨ ∃ p, c = .put p := by
    intro c hc
    obtain ⟨puts, -, hc⟩ := List.mem_flatMap.mp hc
    simp only [rowCalls, List.mem_cons, List.mem_append, List.mem_map] at hc
    rcases hc with rfl | ⟨p, -, rfl⟩ | rfl | hc
    · exact Or.inl rfl
    · exact Or.inr (Or.inr ⟨p, rfl⟩)
    · exact Or.inr (Or.inl rfl)
    · cases hc
  have hputs : ∀ p, Call.put p ∈ rows.flatMap rowCalls ↔ ∃ puts ∈ rows, p ∈ puts := by
    intro p
    simp [List.mem_flatMap, rowCalls]
  have hstrict : (withPlan plan).strictError = none := strictError_withPlan plan
  rw [feed_eq_callAll]
  refine ⟨(unknownError_callAll_of_frozen hfrozen _).trans hunknown, ?_⟩
  rw [(declared_withPlan plan).strictError_callAll (by rwa [hplan]) hfrozen hunknown hmem, hplan]
  simp only [hstrict, true_and, hputs]
  exact ⟨fun h puts hrow p hp => h p ⟨puts, hrow, hp⟩, fun h p ⟨puts, hrow, hp⟩ => h puts hrow p hp⟩

end TableBuilder

end Rypipe
