import Rypipe.Pipeline.Stages

/-! # The prefix of a pipeline that goes into the engine

`plan_split` pushes a prefix of renames, then drops, then filters. `Prefix` is such a prefix, and
`Prefix.grow` the longest one of a pipeline under the guard of the loop; `planSplit_eq` says that the
loop computes the keyword arguments of that prefix and leaves the other stages over. -/

namespace Rypipe.Pipeline

universe u

/-- A prefix of a pipeline in the engine's order. -/
structure Prefix (T : Type u) where
  renames : List RenameFields := []
  drops : List (List String) := []
  filters : List (FilterSpec T) := []

section Split

variable {V T : Type u}

namespace Prefix

/-- The stages of a prefix. -/
def stages (p : Prefix T) : List (Stage V T) :=
  p.renames.map .renameFields ++ p.drops.map .dropFields ++ p.filters.map .filterRows

/-- The mapping of the last rename. -/
def lastMapping (p : Prefix T) : Option (StrMap String) := p.renames.getLast?.map (·.mapping)

/-- Extend a prefix as far as the stages keep the order, without a non-empty rename directly after
another one; also the stages left over. -/
def grow (p : Prefix T) : List (Stage V T) → Prefix T × List (Stage V T)
  | .renameFields s :: stages =>
      if p.drops = [] ∧ p.filters = [] ∧ ¬(isTruthy (some s.mapping) ∧ isTruthy p.lastMapping) then
        { p with renames := p.renames ++ [s] }.grow stages
      else (p, .renameFields s :: stages)
  | .dropFields fields :: stages =>
      if p.filters = [] then { p with drops := p.drops ++ [fields] }.grow stages
      else (p, .dropFields fields :: stages)
  | .filterRows spec :: stages => { p with filters := p.filters ++ [spec] }.grow stages
  | stages => (p, stages)

/-- The prefix and the stages left over make up the pipeline: growing the prefix moves stages from
the front of the rest to its end and loses none. -/
theorem stages_grow (p : Prefix T) (stages : List (Stage V T)) :
    (p.grow stages).1.stages ++ (p.grow stages).2 = p.stages ++ stages := by
  induction stages generalizing p with
  | nil => rfl
  | cons stage rest ih =>
      cases stage with
      | renameFields s =>
          rw [grow]
          split
          · next h => rw [ih]; simp [Prefix.stages, h.1, h.2.1]
          · rfl
      | dropFields fields =>
          rw [grow]
          split
          · next h => rw [ih]; simp [Prefix.stages, h]
          · rfl
      | filterRows spec => rw [grow, ih]; simp [Prefix.stages]
      | filterCallable predicate => rfl

/-- The union of the dropped fields, as the loop of `plan_split` accumulates it. -/
def dropFields (p : Prefix T) : Option (List String) :=
  p.drops.foldl (fun acc fields => some (sortedSet (acc.getD [] ++ sortedSet fields))) none

/-- The keyword arguments a prefix amounts to. -/
def kwargs (p : Prefix T) : PlanKwargs T where
  fieldMapping := p.lastMapping
  dropFields := p.dropFields
  filter := combined p.filters

/-- The rank of the last kind of stage in a prefix. -/
def rank (p : Prefix T) : Int :=
  if p.filters ≠ [] then 3 else if p.drops ≠ [] then 1 else if p.renames ≠ [] then 0 else -1

/-- The state of the loop after a prefix. -/
def state (p : Prefix T) : SplitState T where
  planOverrides := p.kwargs
  existing := p.kwargs
  filterSpecs := p.filters
  rank := p.rank

/-- There is a combined filter as soon as there is one spec. -/
theorem combined_append_singleton (specs : List (FilterSpec T)) (spec : FilterSpec T) :
    ∃ f, combined (specs ++ [spec]) = some f := by
  cases specs with
  | nil => exact ⟨_, rfl⟩
  | cons first specs =>
      cases specs with
      | nil => exact ⟨_, rfl⟩
      | cons second specs => exact ⟨_, rfl⟩

/-- No prefix ranks higher than one with filters. -/
theorem rank_le (p : Prefix T) : p.rank ≤ 3 := by
  unfold rank
  split
  · exact le_refl 3
  · split
    · decide
    · split <;> decide

/-- Without filters the rank is at most that of the drops. -/
theorem rank_le_one {p : Prefix T} (hfilters : p.filters = []) : p.rank ≤ 1 := by
  rw [rank, if_neg (not_not_intro hfilters)]
  split
  · exact le_refl 1
  · split <;> decide

/-- Without filters and drops it is at most that of the renames. -/
theorem rank_le_zero {p : Prefix T} (hdrops : p.drops = []) (hfilters : p.filters = []) :
    p.rank ≤ 0 := by
  rw [rank, if_neg (not_not_intro hfilters), if_neg (not_not_intro hdrops)]
  split <;> decide

/-- Pushing a rename replaces the mapping. -/
theorem push_renameFields {p : Prefix T} (hdrops : p.drops = []) (hfilters : p.filters = [])
    (s : RenameFields) :
    p.state.push { fieldMapping := some s.mapping } =
      { p with renames := p.renames ++ [s] : Prefix T }.state := by
  have hrank : max p.rank 0 = 0 := max_eq_right (rank_le_zero hdrops hfilters)
  have hrank' : ({ p with renames := p.renames ++ [s] } : Prefix T).rank = 0 := by
    simp [rank, hdrops, hfilters]
  simp only [SplitState.push, state, PlanKwargs.ranks, hrank']
  simp [hrank, kwargs, PlanKwargs.update, lastMapping, hfilters, Prefix.dropFields]

/-- Pushing drops adds them. -/
theorem push_dropFields {p : Prefix T} (hfilters : p.filters = []) (fields : List String) :
    p.state.push { dropFields := some (sortedSet fields) } =
      { p with drops := p.drops ++ [fields] : Prefix T }.state := by
  have hrank : max p.rank 1 = 1 := max_eq_right (rank_le_one hfilters)
  have hrank' : ({ p with drops := p.drops ++ [fields] } : Prefix T).rank = 1 := by
    simp [rank, hfilters]
  simp only [SplitState.push, state, PlanKwargs.ranks, hrank']
  simp [hrank, kwargs, PlanKwargs.update, lastMapping, hfilters, Prefix.dropFields]

/-- Pushing a filter adds it to the conjunction. -/
theorem push_filterRows (p : Prefix T) (spec : FilterSpec T) :
    p.state.push { filter := some spec } =
      { p with filters := p.filters ++ [spec] : Prefix T }.state := by
  have hrank : max p.rank 3 = 3 := max_eq_right p.rank_le
  have hrank' : ({ p with filters := p.filters ++ [spec] } : Prefix T).rank = 3 := by simp [rank]
  obtain ⟨f, hf⟩ := combined_append_singleton p.filters spec
  simp only [SplitState.push, state, PlanKwargs.ranks, hrank']
  simp [hrank, kwargs, PlanKwargs.update, lastMapping, Prefix.dropFields, hf]

/-- The loop stops at a rename after a drop or a filter, and at a second rename if both have a
mapping. -/
theorem stops_renameFields (p : Prefix T) (s : RenameFields) :
    p.state.stops { fieldMapping := some s.mapping } = true ↔
      ¬(p.drops = [] ∧ p.filters = [] ∧ ¬(isTruthy (some s.mapping) ∧ isTruthy p.lastMapping)) := by
  have hrank : p.state.stops { fieldMapping := some s.mapping } =
      (decide (0 < p.rank) || (isTruthy (some s.mapping) && isTruthy p.lastMapping)) := rfl
  rw [hrank, rank]
  by_cases hf : p.filters = [] <;> by_cases hd : p.drops = [] <;>
    by_cases hr : p.renames = [] <;> simp [hf, hd, hr]

/-- The loop stops at a drop after a filter. -/
theorem stops_dropFields (p : Prefix T) (fields : List String) :
    p.state.stops { dropFields := some fields } = true ↔ p.filters ≠ [] := by
  have hrank : p.state.stops { dropFields := some fields } = (decide (1 < p.rank) || false) := rfl
  rw [hrank, rank]
  by_cases hf : p.filters = [] <;> by_cases hd : p.drops = [] <;>
    by_cases hr : p.renames = [] <;> simp [hf, hd, hr]

/-- The loop never stops at a filter. -/
theorem stops_filterRows (p : Prefix T) (spec : FilterSpec T) :
    p.state.stops { filter := some spec } = false := by
  have hrank : p.state.stops { filter := some spec } = (decide (3 < p.rank) || false) := rfl
  rw [hrank, Bool.or_false, decide_eq_false_iff_not]
  exact not_lt_of_ge p.rank_le

/-- The loop of `plan_split` grows the prefix. By induction on the stages: a stage that the guard
lets through is pushed, and the first one that it stops is left with all that follow. -/
theorem planSplitLoop_state (p : Prefix T) (stages : List (Stage V T)) :
    planSplitLoop p.state stages = ((p.grow stages).1.kwargs, (p.grow stages).2) := by
  induction stages generalizing p with
  | nil => rfl
  | cons stage rest ih =>
      cases stage with
      | renameFields s =>
          -- a rename is pushed before all drops and filters, and only one that is not empty
          have hloop : planSplitLoop p.state (.renameFields s :: rest : List (Stage V T)) =
              if p.state.stops { fieldMapping := some s.mapping } then
                (p.kwargs, .renameFields s :: rest)
              else planSplitLoop (p.state.push { fieldMapping := some s.mapping }) rest := rfl
          rw [hloop, grow]
          by_cases h : p.drops = [] ∧ p.filters = [] ∧
              ¬(isTruthy (some s.mapping) ∧ isTruthy p.lastMapping)
          · rw [if_pos h, if_neg ((stops_renameFields p s).not.mpr (not_not_intro h)),
              push_renameFields h.1 h.2.1, ih]
          · rw [if_neg h, if_pos ((stops_renameFields p s).mpr h)]
      | dropFields fields =>
          have hloop : planSplitLoop p.state (.dropFields fields :: rest : List (Stage V T)) =
              if p.state.stops { dropFields := some (sortedSet fields) } then
                (p.kwargs, .dropFields fields :: rest)
              else planSplitLoop (p.state.push { dropFields := some (sortedSet fields) }) rest := rfl
          rw [hloop, grow]
          by_cases h : p.filters = []
          · rw [if_pos h, if_neg ((stops_dropFields p _).not.mpr (not_not_intro h)),
              push_dropFields h, ih]
          · rw [if_neg h, if_pos ((stops_dropFields p _).mpr h)]
      | filterRows spec =>
          have hloop : planSplitLoop p.state (.filterRows spec :: rest : List (Stage V T)) =
              if p.state.stops { filter := some spec } then (p.kwargs, .filterRows spec :: rest)
              else planSplitLoop (p.state.push { filter := some spec }) rest := rfl
          rw [hloop, grow, stops_filterRows, if_neg Bool.false_ne_true, push_filterRows, ih]
      | filterCallable predicate => rfl

end Prefix

/-- The prefix of a pipeline that goes into the engine. -/
def pushed (stages : List (Stage V T)) : Prefix T := (Prefix.grow {} stages).1

/-- The stages left over. -/
def remaining (stages : List (Stage V T)) : List (Stage V T) := (Prefix.grow ({} : Prefix T) stages).2

/-- The pipeline is the prefix pushed and the stages left over. -/
theorem pushed_append_remaining (stages : List (Stage V T)) :
    (pushed stages).stages ++ remaining stages = stages := Prefix.stages_grow {} stages

/-- **`plan_split` without a source plan** turns the prefix into plan keyword arguments. -/
theorem planSplit_eq (stages : List (Stage V T)) :
    planSplit stages {} = ((pushed stages).kwargs, remaining stages) :=
  Prefix.planSplitLoop_state {} stages

end Split

end Rypipe.Pipeline
