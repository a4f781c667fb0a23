import Rypipe.Engine.Export
import Rypipe.Engine.Quiet
import Rypipe.Merge

/-! # The columns a builder has, after any calls

`Declared b t` says that the columns of a builder are those of the table `t`, whatever they contain:
the same names in the same slots, with the same types. Any list of calls keeps it, declaring the
columns its puts are for, so that the schema `finish` exports is known from the calls alone, up to
the columns the automatic dictionary upgrade encodes. -/

namespace Rypipe

variable [Platform]

namespace TableBuilder

/-- The columns of `b` are the columns of `t`; without a projection they are exported in that
order. -/
structure Declared (b : TableBuilder) (t : Table) : Prop where
  kinds : b.kinds = t.cols.map Prod.snd
  indexed : ∀ name (i : Nat), b.fieldIndex.lookup name = some i ↔ t.names[i]? = some name
  order : b.columnOrder.Perm t.names
  inOrder : b.plan.schemaOrder = [] → b.columnOrder = t.names

section Declared

variable {b b' : TableBuilder} {t : Table}

/-- There are as many columns as the table declares. -/
theorem Declared.size (h : b.Declared t) : b.columns.length = t.cols.length := by
  have hlength := congrArg List.length h.kinds
  rwa [TableBuilder.kinds, List.length_map, List.length_map] at hlength

/-- The index has exactly the names of the table. -/
theorem Declared.mem_index (h : b.Declared t) (name : String) :
    name ∈ b.fieldIndex ↔ name ∈ t.names := by
  rw [← AList.lookup_isSome, Option.isSome_iff_exists, List.mem_iff_getElem?]
  exact exists_congr fun i => h.indexed name i

/-- A step that keeps the columns keeps what is declared. -/
theorem Declared.congr (h : b.Declared t) (hsame : b.SameColumns b') : b'.Declared t := by
  refine ⟨hsame.kinds.trans h.kinds, ?_, ?_, ?_⟩
  · rw [hsame.index]
    exact h.indexed
  · rw [hsame.order]
    exact h.order
  · rw [hsame.plan, hsame.order]
    exact h.inOrder

/-- A builder between rows has the columns of its table, by name, slot and type, listed in the order
of the table where there is no projection. -/
theorem Between.declared (h : b.Between t)
    (hinOrder : b.plan.schemaOrder = [] → b.columnOrder = t.names) : b.Declared t where
  kinds := by
    refine List.ext_getElem? fun i => ?_
    rw [kinds, List.getElem?_map, List.getElem?_map]
    cases hp : t.cols[i]? with
    | none =>
        rw [List.getElem?_eq_none_iff, ← h.sound.holds.size] at hp
        rw [List.getElem?_eq_none hp]
        rfl
    | some p =>
        obtain ⟨c, hc, hst⟩ := h.sound.holds.stored i p hp
        rw [hc]
        exact congrArg some hst.kind
  indexed := h.sound.holds.indexed
  order := h.sound.order
  inOrder := hinOrder

/-- Declaring a new name puts it after the others. -/
theorem names_declare_of_notMem {name : String} (h : name ∉ t.names) (ty : FieldType) :
    (t.declare name ty).names = t.names ++ [name] := by
  rw [RowTable.names, RowTable.cols_declare_of_notMem h, List.map_append]
  rfl

/-- A new column declares its name, when it comes last without a projection. -/
theorem Declared.appendColumn (h : b.Declared t) {name : String} (hname : name ∉ t.names)
    (c : ColumnBuilder) {orderIdx : Nat} (hle : orderIdx ≤ b.columnOrder.length)
    (hlast : b.plan.schemaOrder = [] → orderIdx = b.columnOrder.length) :
    (b.appendColumn name c orderIdx).Declared (t.declare name c.kind) where
  kinds := by
    rw [RowTable.cols_declare_of_notMem hname, List.map_append, ← h.kinds]
    exact List.map_append
  indexed := by
    show ∀ n (i : Nat), (b.fieldIndex.insert name b.columns.length).lookup n = some i ↔ _
    rw [h.size]
    exact indexed_insert h.indexed hname c.kind
  order := by
    rw [names_declare_of_notMem hname]
    refine (List.perm_insertIdx name b.columnOrder hle).trans ?_
    exact (List.Perm.cons name h.order).trans (List.perm_append_singleton name t.names).symm
  inOrder := by
    intro hschema
    have horder : (b.appendColumn name c orderIdx).columnOrder =
        b.columnOrder.insertIdx orderIdx name := rfl
    rw [horder, hlast hschema, List.insertIdx_length_self, names_declare_of_notMem hname,
      h.inOrder hschema]

/-- Making sure of an admitted column declares it, with the type that the plan has for its name; one
that is there already is left as it is. -/
theorem Declared.ensureColumnIdx (h : b.Declared t) {name : String}
    (hexact : b.exactWithout name = none) :
    (b.ensureColumnIdx name).1.Declared (t.declare name (b.plan.columnType name)) := by
  rw [TableBuilder.ensureColumnIdx]
  cases hlook : b.fieldIndex.lookup name with
  | some idx =>
      rw [RowTable.declare_of_mem (List.mem_of_getElem? ((h.indexed name idx).mp hlook))]
      exact h
  | none =>
      have hname : name ∉ t.names := by
        rw [← h.mem_index]
        exact AList.lookup_eq_none.mp hlook
      simp only [hexact]
      have happend := h.appendColumn hname
        ((ColumnBuilder.ofType (b.plan.columnType name)).pushNulls b.backfill)
        (b.schemaInsertIndex_le name) fun hs => schemaInsertIndex_of_notMem (hs ▸ List.not_mem_nil)
      rw [ColumnBuilder.kind_pushNulls, ColumnBuilder.kind_ofType] at happend
      exact happend.congr ⟨rfl, rfl, rfl, rfl, rfl⟩

/-- Declaring a column by name and type declares it, as the builder does for a projection before the
first row. -/
theorem Declared.declareColumn (h : b.Declared t) (name : String) (ty : FieldType) :
    (b.declareColumn name ty).Declared (t.declare name ty) := by
  rw [TableBuilder.declareColumn]
  by_cases hmem : name ∈ b.fieldIndex
  · rw [if_pos hmem, RowTable.declare_of_mem ((h.mem_index name).mp hmem)]
    exact h
  · rw [if_neg hmem]
    have happend := h.appendColumn (fun hn => hmem ((h.mem_index name).mpr hn)) (.ofType ty)
      le_rfl fun _ => rfl
    rwa [ColumnBuilder.kind_ofType] at happend

/-- `ensure_schema` declares the columns of the layout, in its order and after those that are
there. -/
theorem Declared.ensureSchema (h : b.Declared t) (schema : FrozenSchema) :
    (b.ensureSchema schema).Declared (t.declareAll schema.columns) := by
  have hfold : ∀ (ps : List (String × FieldType)) {b : TableBuilder} {t : Table}, b.Declared t →
      (ps.foldl (fun b p => b.declareColumn p.1 p.2) b).Declared (t.declareAll ps) := by
    intro ps
    induction ps with
    | nil => exact fun h => h
    | cons p ps ih => exact fun h => ih (h.declareColumn p.1 p.2)
  obtain ⟨hkinds, hindexed, horder, hinOrder⟩ := hfold schema.columns h
  exact ⟨hkinds, hindexed, horder, hinOrder⟩

/-- A layout does not change the plan, so names go on resolving as before. -/
theorem plan_ensureSchema (b : TableBuilder) (schema : FrozenSchema) :
    (b.ensureSchema schema).plan = b.plan := by
  have hfold : ∀ (ps : List (String × FieldType)) (b : TableBuilder),
      (ps.foldl (fun b p => b.declareColumn p.1 p.2) b).plan = b.plan := by
    intro ps
    induction ps with
    | nil => exact fun b => rfl
    | cons p ps ih =>
        intro b
        rw [List.foldl_cons, ih, TableBuilder.declareColumn]
        split <;> rfl
  exact hfold schema.columns b

/-- `with_plan` declares the columns of the projection. -/
theorem declared_withPlan (plan : ExecutionPlan) :
    (withPlan plan).Declared (RowTable.empty.declareAll (predeclared plan)) := by
  refine (between_withPlan plan).declared fun hschema => ?_
  rw [(withPlan_frame plan).1] at hschema
  simp [withPlan, predeclareSchemaColumns, predeclared, hschema, RowTable.declareAll,
    RowTable.names, RowTable.empty]

/-- Declaring columns with the types of the plan keeps the slots in order. -/
theorem order_declareColumns (h : b.Declared t) (horder : b.columnOrder = t.names)
    (ps : List (String × FieldType)) :
    (ps.foldl (fun b p => b.declareColumn p.1 p.2) b).columnOrder = (t.declareAll ps).names := by
  induction ps generalizing b t with
  | nil => exact horder
  | cons p ps ih =>
      refine ih (h.declareColumn p.1 p.2) ?_
      show (b.declareColumn p.1 p.2).columnOrder = (t.declare p.1 p.2).names
      rw [declareColumn]
      by_cases hmem : p.1 ∈ b.fieldIndex
      · rw [if_pos hmem, RowTable.declare_of_mem ((h.mem_index p.1).mp hmem)]
        exact horder
      · rw [if_neg hmem, names_declare_of_notMem fun hn => hmem ((h.mem_index p.1).mpr hn)]
        show b.columnOrder.insertIdx b.columnOrder.length p.1 = _
        rw [List.insertIdx_length_self, horder]

/-- The predeclared columns are exported in the order of their slots. -/
theorem columnOrder_withPlan (plan : ExecutionPlan) :
    (withPlan plan).columnOrder = (RowTable.empty.declareAll (predeclared plan) : Table).names := by
  have hempty := (between_empty plan).declared fun _ => rfl
  have hall := order_declareColumns hempty rfl (predeclared plan)
  rw [← hall, withPlan, predeclareSchemaColumns]
  by_cases hschema : plan.schemaOrder.isEmpty = true
  · rw [predeclared, if_pos hschema]
    simp only [hschema, ↓reduceIte]
    rfl
  · rw [predeclared, if_neg hschema]
    simp only [hschema, Bool.false_eq_true, ↓reduceIte]
    rw [foldl_declareColumn rfl]

/-- The projected names that are not dropped are predeclared, so a builder under a projection has
their columns from the start. -/
theorem mem_names_predeclared {plan : ExecutionPlan} {name : String}
    (hname : name ∈ plan.schemaOrder) (hdrop : name ∉ plan.dropFields) :
    name ∈ (RowTable.empty.declareAll (predeclared plan) : Table).names := by
  have hschema : ¬ plan.schemaOrder.isEmpty = true := by
    intro hnil
    rw [List.isEmpty_iff.mp hnil] at hname
    cases hname
  rw [RowTable.mem_names_declareAll, predeclared, if_neg hschema, List.map_map]
  refine .inr (List.mem_map.mpr ⟨name, List.mem_append_left _ ?_, rfl⟩)
  simp [hname, hdrop]

/-! ## Calls -/

/-- The output names of the values put, in the order of the calls. -/
def callTargets (plan : ExecutionPlan) (calls : List Call) : List String :=
  calls.filterMap fun
    | .put p => p.target plan
    | _ => none

/-- The names that calls are for are those of the first call and then those of the others. -/
theorem callTargets_cons (plan : ExecutionPlan) (c : Call) (calls : List Call) :
    callTargets plan (c :: calls) = callTargets plan [c] ++ callTargets plan calls := by
  rw [callTargets, callTargets, callTargets, ← List.filterMap_append]
  rfl

/-- The columns a list of names declares under a plan. -/
def planTyped (plan : ExecutionPlan) (names : List String) : List (String × FieldType) :=
  names.map fun name => (name, plan.columnType name)

/-- The strict check sets an error and keeps the columns. -/
theorem sameColumns_recordStrictViolationAt (b : TableBuilder) (idx : Nat) (value : Value) :
    b.SameColumns (b.recordStrictViolationAt idx value) := ⟨rfl, rfl, rfl, rfl, rfl⟩

/-- Values put to a slot change no column and no unknown-field error. -/
theorem sameColumns_putFieldAt (b : TableBuilder) (slot : Nat) (value : Value) :
    b.SameColumns (b.putFieldAt slot value) ∧
      (b.putFieldAt slot value).unknownError = b.unknownError := by
  by_cases h : slot < b.columns.length
  · have hquiet := b.quiet_putFieldAt h value
    exact ⟨(b.sameColumns_recordStrictViolationAt slot value).trans hquiet.toSameColumns,
      hquiet.unknown⟩
  · rw [putFieldAt, if_pos (Nat.le_of_not_lt h)]
    exact ⟨.refl b, rfl⟩

/-- `put_str_at` keeps the columns and raises no unknown field, on the shorter path without a row
buffer as well. -/
theorem sameColumns_putStrAt (b : TableBuilder) (slot : Nat) (value : String) :
    b.SameColumns (b.putStrAt slot value) ∧
      (b.putStrAt slot value).unknownError = b.unknownError := by
  by_cases h : slot < b.columns.length
  · have hquiet := b.quiet_putStrAt h value
    exact ⟨(b.sameColumns_recordStrictViolationAt slot _).trans hquiet.toSameColumns,
      hquiet.unknown⟩
  · rw [putStrAt]
    split
    · exact b.sameColumns_putFieldAt slot _
    · rw [if_pos (Nat.le_of_not_lt h)]
      exact ⟨.refl b, rfl⟩

/-- What a column that is made sure of leaves of the plan and the errors. -/
theorem admitField_frame {name : String} (hexact : b.exactWithout name = none) (value : Value) :
    (b.admitField name value).plan = b.plan ∧ (b.admitField name value).unknownError = b.unknownError ∧
      (b.admitField name value).frozen = b.frozen := by
  rw [admitField, TableBuilder.ensureColumnIdx]
  cases b.fieldIndex.lookup name with
  | some idx => exact ⟨rfl, rfl, rfl⟩
  | none =>
      simp only [hexact]
      exact ⟨rfl, rfl, rfl⟩

/-- A put that is not refused declares its column, whether the value is written or buffered; a put
for a dropped field declares none. -/
theorem Declared.put (h : b.Declared t) {p : Put} (hok : (b.put p).unknownError = none) :
    (b.put p).Declared (t.declareAll (planTyped b.plan (p.target b.plan).toList)) ∧
      (b.put p).plan = b.plan ∧ b.unknownError = none := by
  cases htarget : p.target b.plan with
  | none =>
      rw [put_of_dropped htarget] at hok ⊢
      exact ⟨h, rfl, hok⟩
  | some name =>
      cases hexact : b.exactWithout name with
      | some frozen =>
          have hsome := (put_refused htarget hexact).2
          rw [hok] at hsome
          cases hsome
      | none =>
          have hquiet := quiet_put htarget hexact
          obtain ⟨hplan, hunknown, -⟩ := admitField_frame hexact p.value
          refine ⟨?_, hquiet.plan.trans hplan, ?_⟩
          · exact ((h.ensureColumnIdx hexact).congr
              (sameColumns_recordStrictViolationAt _ _ _)).congr hquiet.toSameColumns
          · rw [← hunknown, ← hquiet.unknown]
            exact hok

/-- A call declares the column of the value it puts. `begin_row`, `end_row` and the puts by slot
declare none. -/
theorem Declared.call (h : b.Declared t) {c : Call} (hok : (b.call c).unknownError = none) :
    (b.call c).Declared (t.declareAll (planTyped b.plan (callTargets b.plan [c]))) ∧
      (b.call c).plan = b.plan ∧ b.unknownError = none := by
  have hquiet : ∀ {b' : TableBuilder}, b.SameColumns b' → b'.unknownError = b.unknownError →
      b'.unknownError = none → b'.Declared t ∧ b'.plan = b.plan ∧ b.unknownError = none :=
    fun hsame hunknown hok => ⟨h.congr hsame, hsame.plan, hunknown ▸ hok⟩
  cases c with
  | beginRow => exact hquiet b.quiet_beginRow.toSameColumns rfl hok
  | put p =>
      have hput := h.put hok
      have htargets : callTargets b.plan [.put p] = (p.target b.plan).toList := by
        cases htarget : p.target b.plan <;> simp [callTargets, htarget]
      rw [htargets]
      exact hput
  | putFieldAt slot value =>
      obtain ⟨hsame, hunknown⟩ := b.sameColumns_putFieldAt slot value
      exact hquiet hsame hunknown hok
  | putStrAt slot value =>
      obtain ⟨hsame, hunknown⟩ := b.sameColumns_putStrAt slot value
      exact hquiet hsame hunknown hok
  | endRow => exact hquiet b.quiet_endRow.toSameColumns b.quiet_endRow.unknown hok

/-- An unknown field is remembered: no call takes the error back, so a builder without it after a
call had none before. -/
theorem unknownError_of_call {c : Call} (hok : (b.call c).unknownError = none) :
    b.unknownError = none := by
  cases c with
  | beginRow => exact hok
  | put p =>
      cases htarget : p.target b.plan with
      | none =>
          have hput : b.call (.put p) = b := put_of_dropped htarget
          rwa [hput] at hok
      | some name =>
          cases hexact : b.exactWithout name with
          | some frozen =>
              have hsome := (put_refused htarget hexact).2
              have hok : (b.put p).unknownError = none := hok
              rw [hok] at hsome
              cases hsome
          | none =>
              rw [← (admitField_frame hexact p.value).2.1, ← (quiet_put htarget hexact).unknown]
              exact hok
  | putFieldAt slot value => exact (b.sameColumns_putFieldAt slot value).2 ▸ hok
  | putStrAt slot value => exact (b.sameColumns_putStrAt slot value).2 ▸ hok
  | endRow => exact b.quiet_endRow.unknown ▸ hok

/-- The error of an unknown field is never taken back, so a run that ends without it has never had
it. -/
theorem unknownError_of_callAll {calls : List Call} (hok : (b.callAll calls).unknownError = none) :
    b.unknownError = none := by
  induction calls generalizing b with
  | nil => exact hok
  | cons c calls ih => exact unknownError_of_call (ih hok)

/-- Without a frozen layout no field is unknown, and no call brings a layout. -/
theorem unknownError_call_of_frozen (hfrozen : b.frozen = none) (c : Call) :
    (b.call c).unknownError = b.unknownError ∧ (b.call c).frozen = none := by
  cases c with
  | beginRow => exact ⟨rfl, hfrozen⟩
  | put p =>
      cases htarget : p.target b.plan with
      | none =>
          have hput : b.call (.put p) = b := put_of_dropped htarget
          rw [hput]
          exact ⟨rfl, hfrozen⟩
      | some name =>
          have hexact := exactWithout_of_frozen hfrozen name
          have hquiet := quiet_put htarget hexact
          obtain ⟨-, hunknown, hlayout⟩ := admitField_frame hexact p.value
          exact ⟨hquiet.unknown.trans hunknown, hquiet.frozen.trans (hlayout.trans hfrozen)⟩
  | putFieldAt slot value =>
      obtain ⟨hsame, hunknown⟩ := b.sameColumns_putFieldAt slot value
      exact ⟨hunknown, hsame.frozen.trans hfrozen⟩
  | putStrAt slot value =>
      obtain ⟨hsame, hunknown⟩ := b.sameColumns_putStrAt slot value
      exact ⟨hunknown, hsame.frozen.trans hfrozen⟩
  | endRow => exact ⟨b.quiet_endRow.unknown, b.quiet_endRow.frozen.trans hfrozen⟩

/-- Without a layout no field is unknown. -/
theorem unknownError_callAll_of_frozen (hfrozen : b.frozen = none) (calls : List Call) :
    (b.callAll calls).unknownError = b.unknownError := by
  induction calls generalizing b with
  | nil => rfl
  | cons c calls ih =>
      obtain ⟨hunknown, hlayout⟩ := unknownError_call_of_frozen hfrozen c
      exact (ih hlayout).trans hunknown

/-- The row interface gives no layout to a builder. -/
theorem frozen_callAll (hfrozen : b.frozen = none) (calls : List Call) :
    (b.callAll calls).frozen = none := by
  induction calls generalizing b with
  | nil => exact hfrozen
  | cons c calls ih => exact ih (unknownError_call_of_frozen hfrozen c).2

/-- **Any list of calls without an unknown field declares the columns of its puts**, in the order in
which they come first. -/
theorem Declared.callAll (h : b.Declared t) {calls : List Call}
    (hok : (b.callAll calls).unknownError = none) :
    (b.callAll calls).Declared (t.declareAll (planTyped b.plan (callTargets b.plan calls))) ∧
      (b.callAll calls).plan = b.plan := by
  induction calls generalizing b t with
  | nil => exact ⟨h, rfl⟩
  | cons c calls ih =>
      obtain ⟨hcall, hplan, -⟩ := h.call (@unknownError_of_callAll _ _ calls hok)
      obtain ⟨hrest, hplan'⟩ := ih hcall hok
      rw [hplan] at hrest
      rw [callTargets_cons, planTyped, List.map_append, RowTable.declareAll_append]
      exact ⟨hrest, hplan'.trans hplan⟩

/-- A new builder after any calls has the predeclared columns and those of the puts. -/
theorem declared_callAll_withPlan (plan : ExecutionPlan) (calls : List Call) :
    ((withPlan plan).callAll calls).Declared ((RowTable.empty.declareAll
        (predeclared plan)).declareAll (planTyped plan (callTargets plan calls))) ∧
      ((withPlan plan).callAll calls).plan = plan ∧
      ((withPlan plan).callAll calls).frozen = none ∧
      ((withPlan plan).callAll calls).unknownError = none := by
  obtain ⟨hplan, hfrozen⟩ := withPlan_frame plan
  have hunknown := (unknownError_callAll_of_frozen hfrozen calls).trans (unknownError_withPlan plan)
  obtain ⟨hdeclared, hplan'⟩ := (declared_withPlan plan).callAll hunknown
  rw [hplan] at hdeclared
  exact ⟨hdeclared, hplan'.trans hplan, frozen_callAll hfrozen calls, hunknown⟩

/-- A put for a column that exists changes no column, whatever mode the row is in. -/
theorem sameColumns_put_of_mem {p : Put} (h : ∀ n ∈ p.target b.plan, n ∈ b.fieldIndex) :
    b.SameColumns (b.put p) := by
  cases htarget : p.target b.plan with
  | none =>
      rw [put_of_dropped htarget]
      exact .refl b
  | some name =>
      have hmem := h name htarget
      obtain ⟨i, hi⟩ := Option.isSome_iff_exists.mp (AList.lookup_isSome.mpr hmem)
      have hensure : b.ensureColumnIdx name = (b, i) := by
        rw [TableBuilder.ensureColumnIdx, hi]
      have hquiet := quiet_put htarget (exactWithout_of_mem hmem)
      rw [admitField, hensure] at hquiet
      exact (b.sameColumns_recordStrictViolationAt i p.value).trans hquiet.toSameColumns

/-- Calls that put values in columns that exist change no column. -/
theorem sameColumns_callAll_of_mem {calls : List Call}
    (h : ∀ n ∈ callTargets b.plan calls, n ∈ b.fieldIndex) : b.SameColumns (b.callAll calls) := by
  induction calls generalizing b with
  | nil => exact .refl b
  | cons c calls ih =>
      have hstep : b.SameColumns (b.call c) := by
        cases c with
        | put p =>
            refine sameColumns_put_of_mem fun n hn => h n ?_
            exact List.mem_filterMap.mpr ⟨.put p, List.mem_cons_self, hn⟩
        | beginRow => exact b.quiet_beginRow.toSameColumns
        | putFieldAt slot value => exact (b.sameColumns_putFieldAt slot value).1
        | putStrAt slot value => exact (b.sameColumns_putStrAt slot value).1
        | endRow => exact b.quiet_endRow.toSameColumns
      refine hstep.trans (ih fun n hn => ?_)
      rw [hstep.plan] at hn
      rw [hstep.index]
      refine h n ?_
      rw [callTargets_cons]
      exact List.mem_append_right _ hn

/-- Under an exact layout a put that is not refused is for a column that exists. -/
theorem sameColumns_put_of_exact {schema : FrozenSchema} (hfrozen : b.frozen = some schema)
    (hexact : schema.exact = true) {p : Put} (hok : (b.put p).unknownError = none) :
    b.SameColumns (b.put p) ∧ ∀ n ∈ p.target b.plan, n ∈ b.fieldIndex := by
  have hmem : ∀ n ∈ p.target b.plan, n ∈ b.fieldIndex := by
    intro name htarget
    by_contra hnot
    have hrefused : b.exactWithout name = some schema := by
      rw [exactWithout, if_neg hnot, hfrozen, Option.filter_some, if_pos hexact]
    have hsome := (put_refused htarget hrefused).2
    rw [hok] at hsome
    cases hsome
  exact ⟨sameColumns_put_of_mem hmem, hmem⟩

/-- **Under an exact layout the puts of calls without an unknown field are for its columns.** -/
theorem callTargets_of_exact {schema : FrozenSchema} (hfrozen : b.frozen = some schema)
    (hexact : schema.exact = true) {calls : List Call}
    (hok : (b.callAll calls).unknownError = none) :
    ∀ n ∈ callTargets b.plan calls, n ∈ b.fieldIndex := by
  induction calls generalizing b with
  | nil => simp [callTargets]
  | cons c calls ih =>
      have hcall := @unknownError_of_callAll _ (b.call c) calls hok
      have hstep : b.SameColumns (b.call c) ∧ ∀ n ∈ callTargets b.plan [c], n ∈ b.fieldIndex := by
        cases c with
        | put p =>
            obtain ⟨hsame, htarget⟩ := sameColumns_put_of_exact hfrozen hexact hcall
            refine ⟨hsame, fun n hn => htarget n ?_⟩
            simpa [callTargets] using hn
        | beginRow => exact ⟨b.quiet_beginRow.toSameColumns, by simp [callTargets]⟩
        | putFieldAt slot value =>
            exact ⟨(b.sameColumns_putFieldAt slot value).1, by simp [callTargets]⟩
        | putStrAt slot value =>
            exact ⟨(b.sameColumns_putStrAt slot value).1, by simp [callTargets]⟩
        | endRow => exact ⟨b.quiet_endRow.toSameColumns, by simp [callTargets]⟩
      obtain ⟨hsame, htargets⟩ := hstep
      have hrest := ih (hsame.frozen.trans hfrozen) hok
      rw [hsame.plan, hsame.index] at hrest
      intro n hn
      rw [callTargets_cons, List.mem_append] at hn
      rcases hn with hn | hn
      · exact htargets n hn
      · exact hrest n hn

end Declared

end TableBuilder

/-! ## The exported schema -/

namespace ColumnBuilder

/-- The test of `try_upgrade_to_dict`: a string column with enough cells and few distinct values. -/
def upgradesToDict (minRows : Nat) (maxRatio : F64) (maxSize : Nat) : ColumnBuilder → Bool
  | .string v =>
      decide (minRows ≤ v.length) &&
        decide ((v.filterMap id).dedup.length ≤
          min (max (Platform.f64AsUsize (Platform.mul (intAsF64 v.length) maxRatio)) 16) maxSize)
  | _ => false

/-- Only string columns are upgraded to dictionaries. -/
theorem kind_of_upgradesToDict {minRows : Nat} {maxRatio : F64} {maxSize : Nat}
    {c : ColumnBuilder} (h : c.upgradesToDict minRows maxRatio maxSize = true) :
    c.kind = .string := by
  cases c with
  | string v => rfl
  | _ => cases h

/-- An upgrade makes a dictionary of the columns that pass the test, and leaves the others. -/
theorem kind_tryUpgradeToDict (minRows : Nat) (maxRatio : F64) (maxSize : Nat) (c : ColumnBuilder) :
    (c.tryUpgradeToDict minRows maxRatio maxSize).kind =
      if c.upgradesToDict minRows maxRatio maxSize then .dictionary else c.kind := by
  cases c with
  | string v =>
      simp only [tryUpgradeToDict]
      split
      · next hrows =>
        have hfalse : upgradesToDict minRows maxRatio maxSize (.string v) = false := by
          simp [upgradesToDict, Nat.not_le_of_lt hrows]
        rw [hfalse]
        rfl
      · next hrows =>
        split
        · next hmany =>
          have hfalse : upgradesToDict minRows maxRatio maxSize (.string v) = false := by
            rw [upgradesToDict, decide_eq_false (Nat.not_le_of_lt hmany), Bool.and_false]
          rw [hfalse]
          rfl
        · next hfew =>
          have htrue : upgradesToDict minRows maxRatio maxSize (.string v) = true := by
            rw [upgradesToDict, decide_eq_true (Nat.le_of_not_lt hrows),
              decide_eq_true (Nat.le_of_not_lt hfew), Bool.and_true]
          rw [htrue]
          exact (Stores.encodeStrings v).kind
  | _ => rfl

end ColumnBuilder

namespace TableBuilder

section Schema

variable {b : TableBuilder} {t : Table}

/-- Whether `finish` encodes the column of a name as a dictionary. -/
def encodes (b : TableBuilder) (name : String) : Bool :=
  b.plan.autoDict && (b.normalize.getColumn name).any
    (ColumnBuilder.upgradesToDict 512 (b.plan.dictThreshold.getD (Platform.scientific 5 2))
      (b.plan.dictMaxSize.getD 256))

/-- The type the column of a name is exported with. -/
def exportType (b : TableBuilder) (t : Table) (name : String) : FieldType :=
  if b.encodes name then .dictionary else (t.typeOf name).getD .string

/-- The column of a declared name has its type, at the slot that the index gives. -/
theorem Declared.column_of_mem (h : b.Declared t) {name : String} (hname : name ∈ t.names) :
    ∃ i c, b.fieldIndex.lookup name = some i ∧ b.columns[i]? = some c ∧
      t.typeOf name = some c.kind := by
  obtain ⟨i, hi⟩ := List.mem_iff_getElem?.mp hname
  have hlook := (h.indexed name i).mpr hi
  rw [RowTable.names, List.getElem?_map, Option.map_eq_some_iff] at hi
  obtain ⟨p, hp, rfl⟩ := hi
  have hlt : i < b.columns.length := by
    rw [h.size]
    exact (List.getElem?_eq_some_iff.mp hp).1
  refine ⟨i, b.columns[i], hlook, List.getElem?_eq_getElem hlt, ?_⟩
  have hkind := congrArg (fun ks : List FieldType => ks[i]?) h.kinds
  simp only [TableBuilder.kinds, List.getElem?_map, hp, List.getElem?_eq_getElem hlt,
    Option.map_some, Option.some.injEq] at hkind
  rw [RowTable.typeOf_eq_some, hkind]
  exact List.mem_of_getElem? hp

/-- Only string columns are encoded, so a name that is exported as a dictionary was declared as a
string. -/
theorem Declared.typeOf_of_encodes (h : b.Declared t) {name : String}
    (hencodes : b.encodes name = true) : t.typeOf name = some .string := by
  rw [encodes, Bool.and_eq_true, Option.any_eq_true] at hencodes
  obtain ⟨-, c, hc, hup⟩ := hencodes
  obtain ⟨i, hi, hci⟩ := Option.bind_eq_some_iff.mp hc
  have hname : name ∈ t.names := List.mem_of_getElem? ((h.indexed name i).mp hi)
  obtain ⟨j, d, hj, hd, htype⟩ := h.column_of_mem hname
  obtain rfl := Option.some.inj (hj.symm.trans hi)
  have hcd : (b.normalize.columns)[j]? = some (ColumnBuilder.pop^[d.len - b.rowCount] d) := by
    rw [normalize, List.getElem?_map, hd]
    rfl
  obtain rfl := Option.some.inj (hcd.symm.trans hci)
  rw [htype, ← d.kind_iterate_pop (d.len - b.rowCount), ColumnBuilder.kind_of_upgradesToDict hup]

/-- The fields of an export are the names of its slots, with the types of their columns. By
induction on the slots that are exported; a slot without a column would be refused, and there is
none. -/
theorem fields_exportSlots {columns : List ColumnBuilder} {slots : List (String × Nat)}
    {ty : String → FieldType} (h : ∀ s ∈ slots, (columns.map ColumnBuilder.kind)[s.2]? = some (ty s.1))
    {schema : Schema} {arrays : List ArrayRef}
    (hok : exportSlots columns slots = .ok (schema, arrays)) :
    schema = slots.map fun s => (s.1, (ty s.1).arrowType) := by
  induction slots generalizing columns schema arrays with
  | nil =>
      cases hok
      rfl
  | cons slot slots ih =>
      have hslot := h slot List.mem_cons_self
      rw [List.getElem?_map, Option.map_eq_some_iff] at hslot
      obtain ⟨c, hc, hkind⟩ := hslot
      rw [exportSlots, hc] at hok
      cases harray : c.toArrowArray with
      | error err => simp [harray, bind, Except.bind] at hok
      | ok out =>
          obtain ⟨array, left⟩ := out
          simp only [harray, bind, Except.bind] at hok
          cases hrest : exportSlots (columns.set slot.2 left) slots with
          | error err => simp [hrest] at hok
          | ok out =>
              obtain ⟨fields, rest⟩ := out
              simp only [hrest, Except.ok.injEq, Prod.mk.injEq] at hok
              obtain ⟨rfl, -⟩ := hok
              -- what is left of an exported column still has its type
              have hleft : left.kind = c.kind := by
                rcases (ColumnBuilder.toArrowArray_left harray).2.2 with rfl | rfl
                · rfl
                · exact c.kind_emptied
              have hkinds : (columns.set slot.2 left).map ColumnBuilder.kind =
                  columns.map ColumnBuilder.kind := by
                rw [List.map_set, hleft]
                refine List.ext_getElem? fun i => ?_
                rw [List.getElem?_set]
                split
                · next heq =>
                  subst heq
                  rw [List.getElem?_map, hc, List.length_map,
                    if_pos (List.getElem?_eq_some_iff.mp hc).1]
                  rfl
                · rfl
              rw [List.map_cons, ih (fun s hs => hkinds ▸ h s (List.mem_cons_of_mem _ hs)) hrest,
                ColumnBuilder.arrowDatatype_eq, hkind]

/-- Projecting to columns that exist adds none, and gives their slots in the order of the names. -/
theorem projectColumns_of_mem {names : List String} (h : ∀ n ∈ names, n ∈ b.fieldIndex) :
    b.projectColumns names = (b, slotsOf b.fieldIndex names) := by
  induction names with
  | nil => rfl
  | cons name names ih =>
      obtain ⟨i, hi⟩ := Option.isSome_iff_exists.mp
        (AList.lookup_isSome.mpr (h name List.mem_cons_self))
      have hcolumn : b.projectColumn name = (b, i) := by
        rw [projectColumn]
        simp only [hi]
      have hrest := ih fun n hn => h n (List.mem_cons_of_mem _ hn)
      have hslots : slotsOf b.fieldIndex (name :: names) =
          (name, i) :: slotsOf b.fieldIndex names := by
        rw [slotsOf, List.filterMap_cons, hi]
        rfl
      simp only [projectColumns, hcolumn, hrest, hslots]

omit [Platform] in
/-- The names of the slots of columns that exist. -/
theorem map_slotsOf {index : StrMap Nat} {names : List String} (h : ∀ n ∈ names, n ∈ index)
    {α : Type} (f : String → α) : (slotsOf index names).map (fun s => f s.1) = names.map f := by
  induction names with
  | nil => rfl
  | cons name names ih =>
      obtain ⟨i, hi⟩ := Option.isSome_iff_exists.mp
        (AList.lookup_isSome.mpr (h name List.mem_cons_self))
      rw [slotsOf, List.filterMap_cons, hi]
      exact congrArg (f name :: ·) (ih fun n hn => h n (List.mem_cons_of_mem _ hn))

/-- The automatic upgrade gives the declared columns the types they are exported with. -/
theorem Declared.kinds_upgraded (h : b.Declared t) {name : String} {i : Nat}
    (hlook : b.fieldIndex.lookup name = some i) :
    b.normalize.autoDictUpgrade.kinds[i]? = some (b.exportType t name) := by
  obtain ⟨j, c, hj, hc, htype⟩ :=
    h.column_of_mem (List.mem_of_getElem? ((h.indexed name i).mp hlook))
  obtain rfl := Option.some.inj (hj.symm.trans hlook)
  have hnormal : (b.normalize.columns)[j]? = some (ColumnBuilder.pop^[c.len - b.rowCount] c) := by
    rw [normalize, List.getElem?_map, hc]
    rfl
  have hcolumn : b.normalize.getColumn name = some (ColumnBuilder.pop^[c.len - b.rowCount] c) := by
    have hnorm : b.normalize.fieldIndex.lookup name = some j := hj
    rw [getColumn, hnorm]
    exact hnormal
  rw [exportType, encodes, hcolumn, htype, Option.any_some, Option.getD_some,
    TableBuilder.kinds, autoDictUpgrade]
  cases hauto : b.plan.autoDict with
  | false =>
      have hplan : b.normalize.plan.autoDict = false := hauto
      rw [hplan, if_neg (by simp), List.getElem?_map, hnormal, Option.map_some,
        ColumnBuilder.kind_iterate_pop]
      rfl
  | true =>
      have hplan : b.normalize.plan.autoDict = true := hauto
      rw [hplan, if_pos rfl, Bool.true_and]
      dsimp only
      rw [List.map_map, List.getElem?_map, hnormal, Option.map_some, Function.comp_apply,
        ColumnBuilder.kind_tryUpgradeToDict, ColumnBuilder.kind_iterate_pop]
      rfl

/-- Without a column the batch is empty. -/
theorem finish_of_no_column (hunknown : b.unknownError = none) (hstrict : b.strictError = none)
    (horder : b.columnOrder = []) : b.finish = .ok (.newEmpty []) := by
  have horder' : ∀ e, (b.notify e).normalize.columnOrder = [] := fun e => horder
  simp [finish, prepareFinish, hunknown, hstrict, bind, Except.bind, horder']

/-- **What `finish` exports**, when the builder has the exported names: their slots. -/
theorem finish_eq (hunknown : b.unknownError = none) (hstrict : b.strictError = none)
    (horder : b.columnOrder ≠ []) (hmem : ∀ n ∈ b.exportNames, n ∈ b.fieldIndex) :
    b.finish = (exportSlots b.normalize.autoDictUpgrade.columns
      (slotsOf b.fieldIndex b.exportNames)).bind fun out => RecordBatch.tryNew out.1 out.2 := by
  rw [finish, prepareFinish, hunknown, hstrict]
  simp only [bind, Except.bind]
  -- the report to the observer is not read again
  have hnote : ∀ e, (b.notify e).normalize.autoDictUpgrade.columns =
        b.normalize.autoDictUpgrade.columns ∧
      (b.notify e).normalize.autoDictUpgrade.columnOrder = b.columnOrder ∧
      (b.notify e).normalize.autoDictUpgrade.plan = b.plan ∧
      (b.notify e).normalize.autoDictUpgrade.fieldIndex = b.fieldIndex := by
    intro e
    have hplan : (b.notify e).normalize.plan = b.normalize.plan := rfl
    rw [autoDictUpgrade, autoDictUpgrade, hplan]
    split <;> exact ⟨rfl, rfl, rfl, rfl⟩
  obtain ⟨hcolumns, horder', hplan, hindex⟩ := hnote
    (.chunkFinished (b.rowsAccepted + b.rowsRejected) b.rowsAccepted b.rowsRejected)
  have hempty : ∀ e, (b.notify e).normalize.columnOrder.isEmpty = false :=
    fun e => Bool.eq_false_iff.mpr fun h => horder (List.isEmpty_iff.mp h)
  rw [if_neg (by rw [hempty]; simp)]
  generalize (b.notify _).normalize.autoDictUpgrade = b₂ at hcolumns horder' hplan hindex ⊢
  rw [hplan, ← hcolumns, ← hindex]
  rw [exportNames] at hmem ⊢
  by_cases hschema : b.plan.schemaOrder.isEmpty = true
  · have hsort : b₂.sortColumns = b₂ := by rw [sortColumns, hplan, if_pos hschema]
    simp only [hschema, Bool.not_true, Bool.false_eq_true, ↓reduceIte]
    rw [hsort, horder', slotsOf]
  · rw [if_neg hschema] at hmem
    simp only [hschema, Bool.not_false, ↓reduceIte]
    rw [projectColumns_of_mem fun n hn => hindex ▸ hmem n hn]
    simp

/-- **The schema of a finished batch**: the exported names, each with the type of its column. -/
theorem Declared.finish_schema (h : b.Declared t) (hnames : ∀ n ∈ b.exportNames, n ∈ t.names)
    {batch : RecordBatch} (hok : b.finish = .ok batch) :
    batch.schema = b.exportNames.map fun n => (n, (b.exportType t n).arrowType) := by
  have hmem : ∀ n ∈ b.exportNames, n ∈ b.fieldIndex := fun n hn => (h.mem_index n).mpr (hnames n hn)
  obtain ⟨hunknown, hstrict⟩ := errors_of_finish hok
  by_cases horder : b.columnOrder = []
  · -- without a column there is no name to export
    have hnil : b.exportNames = [] := by
      refine List.eq_nil_iff_forall_not_mem.mpr fun n hn => ?_
      have hmem := h.order.mem_iff.mpr (hnames n hn)
      rw [horder] at hmem
      cases hmem
    rw [finish_of_no_column hunknown hstrict horder] at hok
    cases hok
    rw [hnil]
    rfl
  · rw [finish_eq hunknown hstrict horder hmem] at hok
    cases hex : exportSlots b.normalize.autoDictUpgrade.columns
        (slotsOf b.fieldIndex b.exportNames) with
    | error err =>
        rw [hex] at hok
        cases hok
    | ok out =>
        obtain ⟨schema, arrays⟩ := out
        rw [hex] at hok
        rw [(RecordBatch.madeOf_of_tryNew hok).schema, fields_exportSlots (fun s hs => ?_) hex,
          map_slotsOf hmem fun n => (n, (b.exportType t n).arrowType)]
        -- the slots of the exported names lead to fields of their types
        obtain ⟨n, -, hn⟩ := List.mem_filterMap.mp hs
        obtain ⟨i, hi, rfl⟩ := Option.map_eq_some_iff.mp hn
        exact h.kinds_upgraded hi

end Schema

end TableBuilder

end Rypipe
