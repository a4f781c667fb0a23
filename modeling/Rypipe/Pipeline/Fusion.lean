import Rypipe.Pipeline.Engine
import Rypipe.Pipeline.Filters
import Rypipe.Pipeline.Split

/-! # Plan fusion against the stages

The engine runs the prefix pushed with the last of its renames only, looks the fields of the filters up
under the names that rename gives them, although the filters name the renamed fields already, and exports
no row where it has no column. `Prefix.Agrees` is the condition on the rows of a source under which none
of this matters. -/

namespace Rypipe.Pipeline

open TableBuilder

universe u

section Stages

variable {V T : Type u} (interp : T → List (Option V) → Bool)

/-- Stages can be applied in two runs: the second one is applied to what the first one has left of
the record. -/
theorem applyAll_append (stages stages' : List (Stage V T)) (r : Record V) :
    applyAll interp (stages ++ stages') r =
      (applyAll interp stages r).bind (applyAll interp stages') := by
  induction stages generalizing r with
  | nil => rfl
  | cons stage stages ih =>
      rw [List.cons_append, applyAll, applyAll, Option.bind_assoc]
      congr 1
      funext r'
      exact ih r'

/-- Renames in a row are applied one after the other. -/
theorem applyAll_renames (renames : List RenameFields) (r : Record V) :
    applyAll interp (renames.map .renameFields : List (Stage V T)) r =
      some (renames.foldl (fun r s => s.apply r) r) := by
  induction renames generalizing r with
  | nil => rfl
  | cons s renames ih => exact ih (s.apply r)

/-- Drops in a row are one drop of all their fields. -/
theorem applyAll_drops (drops : List (List String)) (r : Record V) :
    applyAll interp (drops.map .dropFields : List (Stage V T)) r = some (r.drop drops.flatten) := by
  induction drops generalizing r with
  | nil => rw [List.flatten_nil, Record.drop_nil]; rfl
  | cons fields drops ih =>
      rw [List.flatten_cons, ← Record.drop_drop]
      exact ih (r.drop fields)

/-- Filters in a row keep a record if all of them do, and they do not change it. -/
theorem applyAll_filters (filters : List (FilterSpec T)) (r : Record V) :
    applyAll interp (filters.map .filterRows : List (Stage V T)) r =
      if filters.all (·.holds (leafValue interp r.get)) then some r else none := by
  induction filters with
  | nil => rfl
  | cons spec filters ih =>
      rw [List.map_cons, applyAll, Stage.apply, List.all_cons]
      cases spec.holds (leafValue interp r.get)
      · rfl
      · rw [Bool.true_and]
        exact ih

/-- What the stages compute on a record, by the prefix pushed. -/
theorem applyAll_eq (stages : List (Stage V T)) (r : Record V) : applyAll interp stages r =
    (applyAll interp (pushed stages).stages r).bind (applyAll interp (remaining stages)) := by
  rw [← applyAll_append, pushed_append_remaining]

end Stages

namespace Prefix

variable {V T : Type u}

/-- The record after the renames, one after another, and the drops of a prefix. -/
def renamed (p : Prefix T) (r : Record V) : Record V :=
  (p.renames.foldl (fun r s => s.apply r) r).drop p.drops.flatten

/-- The prefix with the last of its renames only. -/
def lastOnly (p : Prefix T) : Prefix T := { p with renames := p.renames.getLast?.toList }

/-- The name the last rename gives a field. -/
def lastName (p : Prefix T) (field : String) : String :=
  p.renames.getLast?.elim field (·.name field)

/-- The leaves of the filters. -/
def leaves (p : Prefix T) : List (Leaf T) := p.filters.flatMap (·.leaves)

/-- Whether all filters hold, given what their leaves say. -/
def holds (p : Prefix T) (value : Leaf T → Bool) : Bool := p.filters.all (·.holds value)

/-- The stages of a prefix rename and drop, then filter. -/
theorem applyAll_stages (interp : T → List (Option V) → Bool) (p : Prefix T) (r : Record V) :
    applyAll interp p.stages r =
      if p.holds (leafValue interp (p.renamed r).get) then some (p.renamed r) else none := by
  rw [stages, applyAll_append, applyAll_append, applyAll_renames, Option.bind_some, applyAll_drops,
    Option.bind_some, applyAll_filters]
  rfl

/-- `sorted(set(names))` has the names. -/
theorem mem_sortedSet {names : List String} {k : String} : k ∈ sortedSet names ↔ k ∈ names := by
  rw [sortedSet, List.mem_insertionSort, List.mem_dedup]

/-- The plan drops what some stage drops: the sets of the stages are joined and sorted. -/
theorem mem_dropFields (p : Prefix T) (k : String) :
    k ∈ p.dropFields.getD [] ↔ k ∈ p.drops.flatten := by
  have hfold : ∀ (drops : List (List String)) (acc : Option (List String)),
      k ∈ (drops.foldl (fun acc fields => some (sortedSet (acc.getD [] ++ sortedSet fields)))
        acc).getD [] ↔ k ∈ acc.getD [] ∨ k ∈ drops.flatten := by
    intro drops
    induction drops with
    | nil => simp
    | cons fields drops ih =>
        intro acc
        rw [List.foldl_cons, ih, Option.getD_some, mem_sortedSet, List.mem_append, mem_sortedSet,
          List.flatten_cons, List.mem_append, or_assoc]
  rw [dropFields, hfold]
  simp

end Prefix

/-! ## The engine of a prefix -/

namespace Prefix

variable {T : Type} {p : Prefix T} {plan : FusedPlan T}

/-- The plan of the engine for a prefix, when its filter parses. -/
theorem executionPlanFromKwargs_eq_ok (h : executionPlanFromKwargs p.kwargs = .ok plan) :
    (plan.fieldMap = p.lastMapping.getD ∅ ∧ plan.dropFields = p.dropFields.getD []) ∧
    (∀ value, (plan.filter.all fun tree => tree.eval value) = p.holds value) ∧
    ∀ tree ∈ plan.filter, tree.leaves = p.leaves := by
  rw [executionPlanFromKwargs] at h
  obtain ⟨filter, hfilter, h⟩ := FilterSpec.bind_eq_ok h
  cases h
  refine ⟨⟨rfl, rfl⟩, ?_⟩
  match hspecs : p.filters with
  | [] =>
      simp only [kwargs, hspecs, combined] at hfilter
      cases hfilter
      exact ⟨fun value => by rw [Prefix.holds, hspecs]; rfl, by simp⟩
  | [spec] =>
      simp only [kwargs, hspecs, combined] at hfilter
      obtain ⟨tree, htree, h⟩ := FilterSpec.bind_eq_ok hfilter
      cases h
      have hcompiles := FilterSpec.compiles_of_parse htree
      refine ⟨fun value => ?_, ?_⟩
      · simp [Prefix.holds, hspecs, hcompiles.holds]
      · simp [Prefix.leaves, hspecs, hcompiles.leaves]
  | first :: second :: rest =>
      simp only [kwargs, hspecs, combined] at hfilter
      obtain ⟨tree, htree, h⟩ := FilterSpec.bind_eq_ok hfilter
      cases h
      have hcompiles := FilterSpec.compiles_of_parse htree
      refine ⟨fun value => ?_, ?_⟩
      · rw [Prefix.holds, hspecs, ← FilterSpec.allHold_eq, ← FilterSpec.holds, ← hcompiles.holds]
        rfl
      · rintro tree' h
        cases h
        rw [hcompiles.leaves, FilterSpec.leaves, FilterSpec.leavesAll_eq, ← hspecs, Prefix.leaves]

/-- The verdict of the filters only depends on what their leaves say. -/
theorem holds_congr (h : executionPlanFromKwargs p.kwargs = .ok plan) {value value' : Leaf T → Bool}
    (hvalue : ∀ l ∈ p.leaves, value l = value' l) : p.holds value = p.holds value' := by
  obtain ⟨-, hholds, hleaves⟩ := executionPlanFromKwargs_eq_ok h
  rw [← hholds, ← hholds]
  cases hfilter : plan.filter with
  | none => rfl
  | some tree =>
      rw [← hleaves tree hfilter] at hvalue
      exact BoolTree.eval_congr hvalue

/-- Filters whose leaves have tests of their own can all accept. -/
theorem exists_accepting (h : executionPlanFromKwargs p.kwargs = .ok plan) (hnodup : (p.leaves.map (·.test)).Nodup)
    (V : Type) : ∃ interp : T → List (Option V) → Bool, ∀ look,
      p.holds (leafValue interp look) = true := by
  obtain ⟨-, hholds, hleaves⟩ := executionPlanFromKwargs_eq_ok h
  cases hfilter : plan.filter with
  | none =>
      refine ⟨fun _ _ => true, fun look => ?_⟩
      rw [← hholds, hfilter, Option.all_none]
  | some tree =>
      rw [← hleaves tree hfilter] at hnodup
      obtain ⟨setting, hsetting⟩ := BoolTree.exists_setting hnodup true
      refine ⟨fun test _ => setting test, fun look => ?_⟩
      rw [← hholds, hfilter, Option.all_some]
      exact hsetting _ fun l _ => rfl

/-- Filters whose leaves have tests of their own can be made to tell two lookups apart on which some
leaf finds different values. -/
theorem exists_separating (h : executionPlanFromKwargs p.kwargs = .ok plan) (hnodup : (p.leaves.map (·.test)).Nodup)
    {V : Type} {l : Leaf T} (hl : l ∈ p.leaves) {look look' : String → Option V}
    (hne : l.fields.map look ≠ l.fields.map look') :
    ∃ interp : T → List (Option V) → Bool,
      p.holds (leafValue interp look) ≠ p.holds (leafValue interp look') := by
  classical
  obtain ⟨-, hholds, hleaves⟩ := executionPlanFromKwargs_eq_ok h
  cases hfilter : plan.filter with
  | none =>
      -- a prefix without filters has no leaves
      exfalso
      have hnil : p.filters = [] := by
        by_contra hcons
        obtain ⟨f, hf⟩ : ∃ f, combined p.filters = some f := by
          rw [← List.dropLast_append_getLast hcons]
          exact combined_append_singleton _ _
        rw [executionPlanFromKwargs, kwargs, hf] at h
        obtain ⟨filter, hparse, h⟩ := FilterSpec.bind_eq_ok h
        obtain ⟨tree, -, htree⟩ := FilterSpec.bind_eq_ok hparse
        cases htree
        cases h
        cases hfilter
      rw [leaves, hnil] at hl
      cases hl
  | some tree =>
      rw [← hleaves tree hfilter] at hnodup hl
      obtain ⟨setting, flip, hsensitive⟩ := BoolTree.sensitiveTo_of_mem hnodup hl
      -- the test of the leaf says whether its fields have the values of the first lookup
      obtain ⟨interp, hself, hoff⟩ : ∃ interp : T → List (Option V) → Bool,
          (∀ values, interp l.test values = decide (values = l.fields.map look)) ∧
            ∀ look : String → Option V,
              tree.FollowsOff (fun x : Leaf T => x.test) l (leafValue interp look) setting :=
        ⟨fun test values =>
          if test = l.test then decide (values = l.fields.map look) else setting test,
          fun _ => if_pos rfl, fun _ x _ hx => if_neg (show ¬ x.test = l.test from hx)⟩
      refine ⟨interp, ?_⟩
      rw [← hholds, ← hholds, hfilter, Option.all_some, Option.all_some, hsensitive _ (hoff look),
        hsensitive _ (hoff look'), leafValue, leafValue, hself, hself]
      simp [Ne.symm hne]

variable [Platform] {rows : List SourceRow}

/-- The engine names a field as the last rename does. -/
theorem rename_eq_lastName (h : executionPlanFromKwargs p.kwargs = .ok plan) (field : String) :
    plan.names.rename field = p.lastName field := by
  rw [ExecutionPlan.rename, FusedPlan.names, (executionPlanFromKwargs_eq_ok h).1.1, lastName,
    lastMapping]
  cases p.renames.getLast? <;> rfl

/-- The engine leaves a field out if its name after the last rename is dropped, and keeps it under
that name otherwise. -/
theorem resolveField_eq (h : executionPlanFromKwargs p.kwargs = .ok plan) (raw : String) :
    plan.names.resolveField raw =
      if p.lastName raw ∈ p.drops.flatten then none else some (p.lastName raw) := by
  have hdrop : ∀ name, name ∈ plan.names.dropFields ↔ name ∈ p.drops.flatten := by
    intro name
    rw [← mem_dropFields, ← (executionPlanFromKwargs_eq_ok h).1.2]
    rfl
  have hresolve : plan.names.resolveField raw =
      if plan.names.rename raw ∈ plan.names.dropFields then none else some (plan.names.rename raw) :=
    rfl
  simp only [hresolve, hdrop, rename_eq_lastName h]

/-- The engine has a record as the last rename and the drops leave it. -/
theorem record_eq (h : executionPlanFromKwargs p.kwargs = .ok plan) (hinj : plan.Injective rows)
    {row : SourceRow} (hrow : row ∈ rows) : plan.record (plan.columns rows) row =
      p.lastOnly.renamed (row.record (sourceColumns rows)) := by
  rw [hinj.record hrow]
  generalize row.record (sourceColumns rows) = r
  have hlast : p.lastOnly.renames.foldl (fun r s => s.apply r) r =
      .ofPairs (r.fields.map fun q => (p.lastName q.1, q.2)) := by
    rw [lastOnly]
    simp only [lastName]
    cases p.renames.getLast? with
    | none => exact (Record.ofPairs_fields r).symm.trans (by simp)
    | some s => rfl
  rw [renamed, hlast, Record.drop_ofPairs]
  congr 1
  simp only [resolveField_eq h]
  induction r.fields with
  | nil => rfl
  | cons q fields ih =>
      rw [List.filterMap_cons, List.map_cons, List.filter_cons, ← ih]
      by_cases hmem : p.lastName q.1 ∈ p.drops.flatten
      · simp [lastOnly, hmem]
      · simp [lastOnly, hmem]

/-- A prefix gives a source the same meaning in the engine and as stages: some column is left; the renames
before the last one do not show; and a filter finds in a row what it finds in the record that the renames
and the drops leave. -/
structure AgreesOn (p : Prefix T) (plan : FusedPlan T) (rows : List SourceRow) : Prop where
  column : ∃ name ∈ sourceColumns rows, p.lastName name ∉ p.drops.flatten
  names : ∀ row ∈ rows, p.lastOnly.renamed (row.record (sourceColumns rows)) =
    p.renamed (row.record (sourceColumns rows))
  fields : ∀ row ∈ rows, ∀ l ∈ p.leaves, l.fields.map (plan.finds row) =
    l.fields.map (p.renamed (row.record (sourceColumns rows))).get

/-- The filter of the prefix compiles, and its source has no column or is given the same meaning. -/
def Agrees (p : Prefix T) (rows : List SourceRow) : Prop :=
  ∃ plan, executionPlanFromKwargs p.kwargs = .ok plan ∧
    (sourceColumns rows = [] ∨ p.AgreesOn plan rows)

/-- A prefix whose renames give different names to the columns of a source. -/
def InjectiveOn (p : Prefix T) (rows : List SourceRow) : Prop :=
  ∀ s ∈ p.renames, ∀ x ∈ sourceColumns rows, ∀ y ∈ sourceColumns rows, s.name x = s.name y → x = y

instance (p : Prefix T) (rows : List SourceRow) : Decidable (p.InjectiveOn rows) :=
  inferInstanceAs (Decidable (∀ _ ∈ _, ∀ _ ∈ _, ∀ _ ∈ _, _ → _))

/-- So does the engine: the names it gives to two columns of the source are different, as they are
the names after the last rename. -/
theorem InjectiveOn.injective (h : p.InjectiveOn rows)
    (hplan : executionPlanFromKwargs p.kwargs = .ok plan) : plan.Injective rows := by
  intro x hx y hy name hxname hyname
  rw [resolveField_eq hplan] at hxname hyname
  have heq : p.lastName x = p.lastName y := by
    split at hxname <;> split at hyname <;> simp_all
  rw [lastName, lastName] at heq
  cases hlast : p.renames.getLast? with
  | none =>
      rw [hlast] at heq
      exact heq
  | some s =>
      rw [hlast] at heq
      exact h s (List.mem_of_getLast? hlast) x hx y hy heq

/-- The verdict of the engine on a row. -/
theorem keeps_eq (h : executionPlanFromKwargs p.kwargs = .ok plan)
    (interp : T → List (Option TypedValue) → Bool) (row : SourceRow) :
    plan.keeps interp row = p.holds (leafValue interp (plan.finds row)) :=
  (executionPlanFromKwargs_eq_ok h).2.1 _

/-- The records of the engine for a prefix: none where no column is left, and otherwise those of the
rows that the filters keep, each under the last names of its fields and without the dropped ones. -/
theorem records_eq (h : executionPlanFromKwargs p.kwargs = .ok plan) (hinj : plan.Injective rows)
    (interp : T → List (Option TypedValue) → Bool) : plan.records interp rows =
      .ok (if plan.columns rows = [] then [] else
        (rows.filter fun row => p.holds (leafValue interp (plan.finds row))).map fun row =>
          p.lastOnly.renamed (row.record (sourceColumns rows))) := by
  rw [FusedPlan.records_eq fun row hrow => hinj.distinct hrow, FusedPlan.exported]
  have hkeeps : plan.keeps interp =
      fun row => p.holds (leafValue interp (plan.finds row)) := funext (keeps_eq h interp)
  have hmap : ∀ kept : List SourceRow, kept ⊆ rows → kept.map (plan.record (plan.columns rows)) =
      kept.map fun row => p.lastOnly.renamed (row.record (sourceColumns rows)) :=
    fun kept hsub => List.map_congr_left fun row hrow => record_eq h hinj (hsub hrow)
  rw [hkeeps, hmap _ (List.filter_subset_self _)]

/-- The engine has a column exactly when some column of the source is left. -/
theorem columns_ne_nil (h : executionPlanFromKwargs p.kwargs = .ok plan)
    (hinj : plan.Injective rows) : plan.columns rows ≠ [] ↔
      ∃ name ∈ sourceColumns rows, p.lastName name ∉ p.drops.flatten := by
  rw [hinj.columns, ne_eq, List.filterMap_eq_nil_iff]
  simp only [resolveField_eq h, not_forall, exists_prop]
  refine exists_congr fun name => and_congr_right fun _ => ?_
  split <;> simp_all

end Prefix

/-- A list that is filtered alike by two tests, up to a function of which the second is a test, is tested
alike: the elements with one value are kept together by the second test, so by the first. -/
theorem forall_eq_of_map_filter_eq {α β : Type} {f : α → β} {v : α → Bool} {w : β → Bool}
    {xs : List α} (h : (xs.filter v).map f = (xs.filter fun x => w (f x)).map f) :
    ∀ x ∈ xs, v x = w (f x) := by
  classical
  intro x hx
  have hsame : ∀ keep : α → Bool, ((xs.filter keep).map f).countP (· = f x) =
      ((xs.filter fun y => f y = f x).filter keep).length := by
    intro keep
    rw [List.countP_map, List.countP_eq_length_filter, List.filter_filter, List.filter_filter]
    congr 1
    refine List.filter_congr fun y _ => ?_
    rw [Function.comp_apply, Bool.and_comm]
  have hcount := (hsame v).symm.trans ((congrArg (List.countP (· = f x)) h).trans (hsame _))
  have hmem : x ∈ xs.filter fun y => f y = f x := List.mem_filter.mpr ⟨hx, by simp⟩
  have hconst : (xs.filter fun y => f y = f x).filter (fun y => w (f y)) =
      (xs.filter fun y => f y = f x).filter fun _ => w (f x) := by
    refine List.filter_congr fun y hy => ?_
    rw [of_decide_eq_true (List.mem_filter.mp hy).2]
  rw [hconst] at hcount
  cases hw : w (f x) with
  | true =>
      rw [hw, List.filter_true] at hcount
      exact List.length_filter_eq_length_iff.mp hcount x hmem
  | false =>
      rw [hw, List.filter_false, List.length_nil, List.length_eq_zero_iff,
        List.filter_eq_nil_iff] at hcount
      exact Bool.eq_false_iff.mpr (hcount x hmem)

section Fusion

variable [Platform] {T : Type} {rows : List SourceRow} {stages : List (Stage TypedValue T)}

/-- What the fused pipeline computes, by the prefix pushed: the engine's records of the kept rows,
with the remaining stages applied to each. -/
theorem fused_eq (interp : T → List (Option TypedValue) → Bool) {plan : FusedPlan T}
    (hplan : executionPlanFromKwargs (pushed stages).kwargs = .ok plan)
    (hinj : plan.Injective rows) : fused interp stages rows =
      .ok ((if plan.columns rows = [] then [] else
        (rows.filter fun row => (pushed stages).holds (leafValue interp (plan.finds row))).map
          fun row => (pushed stages).lastOnly.renamed (row.record (sourceColumns rows))).filterMap
        (applyAll interp (remaining stages))) := by
  rw [fused, planSplit_eq]
  dsimp only
  rw [hplan]
  show (plan.records interp rows).bind _ = _
  rw [Prefix.records_eq hplan hinj]
  rfl

/-- What the stages compute, by the prefix pushed: the renames and drops of the prefix, its filters
on the renamed record, and the remaining stages on what is left. -/
theorem unfused_eq (interp : T → List (Option TypedValue) → Bool) :
    unfused interp stages rows =
      .ok (if sourceColumns rows = [] then [] else
        ((rows.filter fun row => (pushed stages).holds (leafValue interp
          ((pushed stages).renamed (row.record (sourceColumns rows))).get)).map
          fun row => (pushed stages).renamed (row.record (sourceColumns rows))).filterMap
        (applyAll interp (remaining stages))) := by
  rw [unfused, FusedPlan.records_bare]
  show Except.ok _ = Except.ok _
  congr 1
  split
  · rfl
  · rw [List.filterMap_map, List.filterMap_map, List.filterMap_filter]
    refine List.filterMap_congr fun row _ => ?_
    rw [Function.comp_apply, applyAll_eq, Prefix.applyAll_stages]
    split <;> rfl

end Fusion

namespace Prefix

variable [Platform] {T : Type} {p : Prefix T} {plan : FusedPlan T} {rows : List SourceRow}

/-- A value that the row buffer reads as its column does: a text, a number or a boolean. -/
def ReadAsStored (value : Value) : Prop :=
  (bufferedText .string value).map TypedValue.str = store .string value

/-- Texts are read as they are stored, so a source of texts only has no field that the row buffer
and the column would read differently. -/
theorem readAsStored_of_texts {row : SourceRow} (h : ∀ q ∈ row.fields, q.2.asStr.isSome = true)
    {name : String} {value : Value} (hvalue : plan.cells row name = some value) :
    ReadAsStored value := by
  obtain ⟨q, hq, hput⟩ := List.mem_filterMap.mp (mem_of_rowOf hvalue)
  obtain ⟨_, -, heq⟩ := Option.map_eq_some_iff.mp hput
  obtain rfl : q.2 = value := (Prod.mk.inj heq).2
  have htext := h q hq
  generalize q.2 = v at htext ⊢
  cases v with
  | str s => rfl
  | _ => cases htext

/-- **Filters in post-rename terms.** A prefix with one rename at most, whose filters do not name the
sources of the rename, agrees on every source that keeps a column and has no null, date or timestamp under a
name that the filters read. -/
theorem agrees_of_new_names (hplan : executionPlanFromKwargs p.kwargs = .ok plan)
    (hinj : p.InjectiveOn rows) (hrenames : p.renames.length ≤ 1)
    (hcolumn : ∃ name ∈ sourceColumns rows, p.lastName name ∉ p.drops.flatten)
    (hfields : ∀ l ∈ p.leaves, ∀ field ∈ l.fields, ∀ s ∈ p.renames, field ∉ s.mapping)
    (hvalues : ∀ row ∈ rows, ∀ l ∈ p.leaves, ∀ field ∈ l.fields,
      ∀ value, plan.cells row field = some value → ReadAsStored value) : p.Agrees rows := by
  have hlast : p.lastOnly = p := by
    have htoList : p.renames.getLast?.toList = p.renames := by
      match hp : p.renames, hrenames with
      | [], _ => rfl
      | [s], _ => rfl
    rw [lastOnly, htoList]
  refine ⟨plan, hplan, .inr ⟨hcolumn, fun row _ => by rw [hlast], fun row hrow l hl =>
    List.map_congr_left fun field hfield => ?_⟩⟩
  have hname : plan.names.rename field = field := by
    rw [rename_eq_lastName hplan, lastName]
    cases hs : p.renames.getLast? with
    | none => rfl
    | some s =>
        have hmem := hfields l hl field hfield s (List.mem_of_mem_getLast? hs)
        rw [Option.elim_some, RenameFields.name, AList.lookup_eq_none.mpr hmem]
        rfl
  -- the record of the stages is the one of the engine
  have hget : (p.renamed (row.record (sourceColumns rows))).get field =
      cell store .string field (plan.cells row) := by
    have hrecord := record_eq hplan (hinj.injective hplan) hrow
    rw [hlast] at hrecord
    rw [← hrecord, FusedPlan.get_record]
    split
    · rfl
    · next hnot =>
      rw [cell, Option.not_isSome_iff_eq_none.mp fun hsome =>
        hnot (FusedPlan.mem_columns hrow hsome)]
      rfl
  rw [hget, FusedPlan.finds, hname]
  split
  · have hresolve : plan.names.resolveField field =
        if field ∈ plan.names.dropFields then none else some field := by
      conv_rhs => rw [← hname]
      rfl
    rw [getBufferedStr, rowGet, hresolve]
    split
    · next hdrop =>
      rw [cell, FusedPlan.cells, fieldsRow_of_dropped hdrop]
      rfl
    · show ((plan.cells row field).bind (bufferedText .string)).map _ =
        (plan.cells row field).bind (store .string)
      cases hcell : plan.cells row field with
      | none => rfl
      | some value => exact hvalues row hrow l hl field hfield value hcell
  · rfl

end Prefix

/-! ## Rows that fusion changes -/

section Examples

attribute [local instance] integerPlatform

/-- `RenameFields({"a": "b"})`. -/
def renameAB : RenameFields := ⟨(∅ : StrMap String).insert "a" "b", by decide⟩

/-- `RenameFields({})`. -/
def renameNothing : RenameFields := ⟨∅, by decide⟩

/-- `col(field).is_null()`. -/
def isNullSpec (field : String) : FilterSpec Unit := .leaf ⟨[field], ()⟩

/-- The test of `is_null`. -/
def isNullTest (_ : Unit) (values : List (Option TypedValue)) : Bool := values.all Option.isNone

/-- A source with the row `{"a": "1"}`. -/
def rowsA : List SourceRow := [⟨[("a", .str "1")], by decide, true⟩]

/-- The fields of the records of a pipeline. -/
def fieldsOf (result : Except Error (List (Record TypedValue))) :
    Except Error (List (List (String × Option TypedValue))) := result.map (·.map Record.fields)

/-- A source with the rows `{"a": "1", "c": "k"}` and `{"c": "m"}`, the second one read in the columns. -/
def rowsAC : List SourceRow :=
  [⟨[("a", .str "1"), ("c", .str "k")], by decide, true⟩, ⟨[("c", .str "m")], by decide, false⟩]

/-- A rename, a filter on the new name, and a drop that is left over. -/
def newNameStages : List (Stage TypedValue Unit) :=
  [.renameFields renameAB, .filterRows (isNullSpec "b"), .dropFields ["c"]]

end Examples

end Rypipe.Pipeline
