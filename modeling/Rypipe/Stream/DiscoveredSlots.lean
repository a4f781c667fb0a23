import Rypipe.Engine.Declared
import Rypipe.Stream.SchemaCache

/-! # The slots of a discovered schema

`FrozenSchema::from_discovered` numbers the kept raw names as they come, `ensure_schema` numbers the
distinct output names. The two agree exactly when the plan gives no two of the discovered names the
same output name. -/

namespace Rypipe

namespace Discovery

section Slots

variable [Platform]

/-- The layout a schema gives a builder. -/
def Schema.layout (schema : Schema) : FrozenSchema := ⟨schema.columns, schema.exact⟩

/-- A new builder for `plan` after `ensure_schema` with the schema of the discovered names. -/
def discoveredBuilder (names : List String) (plan : ExecutionPlan) : TableBuilder :=
  (TableBuilder.withPlan plan).ensureSchema (fromDiscovered names plan).layout

/-- The builder has the column `name` in the slot `slot`. -/
def HasColumnAt (b : TableBuilder) (name : String) (slot : Nat) : Prop :=
  b.fieldIndex.lookup name = some slot ∧ b.columnOrder[slot]? = some name ∧
    slot < b.columns.length

/-- The schema of the discovered names and the builder agree: distinct columns, no slot exactly for
the dropped names, and every other name's slot is that of its output name. -/
structure SlotsAgree (names : List String) (plan : ExecutionPlan) : Prop where
  distinct : ((fromDiscovered names plan).columns.map Prod.fst).Nodup
  dropped : ∀ raw ∈ names, (fromDiscovered names plan).resolve raw = none ↔
    plan.resolveField raw = none
  slots : ∀ raw ∈ names, ∀ resolved, plan.resolveField raw = some resolved →
    ∃ slot, (fromDiscovered names plan).resolve raw = some slot ∧
      HasColumnAt (discoveredBuilder names plan) resolved slot

/-- No two of the names are given one output name. -/
def Unmerged (names : List String) (plan : ExecutionPlan) : Prop :=
  ∀ raw ∈ names, ∀ raw' ∈ names, ∀ resolved, plan.resolveField raw = some resolved →
    plan.resolveField raw' = some resolved → raw = raw'

variable {plan : ExecutionPlan} {names : List String}

/-- The names the plan keeps. -/
theorem mem_filter_kept {raw : String} :
    raw ∈ names.filter (kept plan) ↔
      raw ∈ names ∧ plan.resolveField raw = some (plan.rename raw) := by
  rw [List.mem_filter, kept]
  refine and_congr_right fun _ => ⟨fun h => ?_, fun h => by rw [h]; rfl⟩
  obtain ⟨resolved, hresolved⟩ := Option.isSome_iff_exists.mp h
  rw [hresolved, (ExecutionPlan.resolveField_eq_some hresolved).1]

/-- The columns of the schema are the output names of the kept names. -/
theorem names_fromDiscovered (h : names.Nodup) :
    (fromDiscovered names plan).columns.map Prod.fst =
      (names.filter (kept plan)).map plan.rename := by
  rw [fromDiscovered_eq plan h, List.map_map]
  rfl

/-- The output names are distinct exactly when no two names share one. -/
theorem nodup_renamed_iff (h : names.Nodup) :
    ((names.filter (kept plan)).map plan.rename).Nodup ↔ Unmerged names plan := by
  rw [List.nodup_map_iff_inj_on (h.filter _)]
  constructor
  · intro hinj raw hraw raw' hraw' resolved hres hres'
    have hname := (ExecutionPlan.resolveField_eq_some hres).1
    have hname' := (ExecutionPlan.resolveField_eq_some hres').1
    refine hinj raw ?_ raw' ?_ (hname.symm.trans hname')
    · exact mem_filter_kept.mpr ⟨hraw, hname ▸ hres⟩
    · exact mem_filter_kept.mpr ⟨hraw', hname' ▸ hres'⟩
  · intro hunmerged raw hraw raw' hraw' hsame
    obtain ⟨hmem, hres⟩ := mem_filter_kept.mp hraw
    obtain ⟨hmem', hres'⟩ := mem_filter_kept.mp hraw'
    exact hunmerged raw hmem raw' hmem' _ hres (hsame ▸ hres')

/-- What the schema answers for a discovered name. -/
theorem resolve_fromDiscovered (h : names.Nodup) {raw : String} (hraw : raw ∈ names) :
    (fromDiscovered names plan).resolve raw =
      if kept plan raw then some ((names.filter (kept plan)).idxOf raw) else none := by
  rw [fromDiscovered_eq plan h, Schema.resolve]
  dsimp only
  rw [if_pos hraw]
  rfl

/-- The builder has the columns of the schema, each output name once. -/
theorem declared_discoveredBuilder (horder : plan.schemaOrder = []) :
    (discoveredBuilder names plan).Declared
      (RowTable.empty.declareAll (fromDiscovered names plan).columns) := by
  have hstart := (TableBuilder.declared_withPlan plan).ensureSchema
    (fromDiscovered names plan).layout
  rwa [TableBuilder.predeclared, horder] at hstart

theorem plan_discoveredBuilder (names : List String) (plan : ExecutionPlan) :
    (discoveredBuilder names plan).plan = plan :=
  (TableBuilder.plan_ensureSchema _ _).trans (TableBuilder.withPlan_frame plan).1

/-- **The slots of a discovered schema are the builder's exactly when no two names share an output
name.** -/
theorem slotsAgree_iff (horder : plan.schemaOrder = []) (h : names.Nodup) :
    SlotsAgree names plan ↔ Unmerged names plan := by
  constructor
  · intro hagree
    rw [← nodup_renamed_iff h, ← names_fromDiscovered h]
    exact hagree.distinct
  · intro hunmerged
    have hdistinct := (nodup_renamed_iff h).mpr hunmerged
    refine ⟨names_fromDiscovered h ▸ hdistinct, fun raw hraw => ?_, fun raw hraw resolved hres => ?_⟩
    · rw [resolve_fromDiscovered h hraw, kept]
      cases plan.resolveField raw <;> simp
    · obtain ⟨rfl, -⟩ := ExecutionPlan.resolveField_eq_some hres
      have hkept : raw ∈ names.filter (kept plan) := mem_filter_kept.mpr ⟨hraw, hres⟩
      have hlt := List.idxOf_lt_length_of_mem hkept
      refine ⟨(names.filter (kept plan)).idxOf raw, ?_, ?_⟩
      · rw [resolve_fromDiscovered h hraw, if_pos (List.mem_filter.mp hkept).2]
      -- the builder numbers the output names in the same order, as no name repeats
      have hdeclared := @declared_discoveredBuilder _ plan names horder
      have hnames : (RowTable.empty.declareAll (fromDiscovered names plan).columns : Table).names =
          (names.filter (kept plan)).map plan.rename := by
        rw [RowTable.names_declareAll, names_fromDiscovered h, eraseDups_of_nodup hdistinct]
      have hat : ((names.filter (kept plan)).map plan.rename)[
          (names.filter (kept plan)).idxOf raw]? = some (plan.rename raw) := by
        rw [List.getElem?_map, List.getElem?_eq_getElem hlt, List.getElem_idxOf]
        rfl
      refine ⟨?_, ?_, ?_⟩
      · rw [hdeclared.indexed, hnames]
        exact hat
      · rw [hdeclared.inOrder (by rw [plan_discoveredBuilder]; exact horder), hnames]
        exact hat
      · have hlength := congrArg List.length hnames
        rw [RowTable.names, List.length_map, List.length_map] at hlength
        rw [hdeclared.size, hlength]
        exact hlt

end Slots

section Examples

attribute [local instance] integerPlatform

/-- A plan that renames `"a"` to `"x"` and drops `"d"`. -/
def renamingPlan : ExecutionPlan :=
  { fieldMap := (∅ : StrMap String).insert "a" "x", dropFields := ["d"] }

/-- A renamed, a dropped and a plain name. -/
theorem slotsAgree_renamed :
    SlotsAgree ["a", "d", "b"] renamingPlan ↔ Unmerged ["a", "d", "b"] renamingPlan :=
  slotsAgree_iff rfl (by decide)

/-- `"a"` is renamed to the name of the other field: the schema has the column `"x"` twice, and gives
`"x"` a slot the builder does not have. -/
theorem slotsAgree_falls :
    ¬ ∀ (plan : ExecutionPlan) (names : List String), plan.schemaOrder = [] → names.Nodup →
      SlotsAgree names plan := by
  intro h
  have hagree := h renamingPlan ["a", "x"] rfl (by decide)
  obtain ⟨slot, hslot, -, -, hlt⟩ := hagree.slots "x" (by decide) "x" rfl
  obtain rfl : 1 = slot := Option.some.inj hslot
  exact absurd hlt (by decide)

end Examples

end Discovery

end Rypipe
