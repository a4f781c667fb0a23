import Rypipe.Foundation.Assoc
import Rypipe.Foundation.BoolTree
import Rypipe.Plan
import Mathlib.Data.List.Sort
import Mathlib.Data.List.Dedup

/-! # Pipeline stages and plan fusion

The stages `RenameFields`, `DropFields` and `FilterRows` over records (`stages/rename.py`, `drop.py`,
`filter.py`), the split of a pipeline into a plan for the engine and the stages left over
(`plan_split` in `fusion.py`), and the plan that the engine is given (`plan_kwargs.rs`). What a leaf of a
filter computes from the values of its fields is a parameter, the same on both sides. -/

namespace Rypipe.Pipeline

universe u

/-- A record: a dict from field names to values, where a value can be `None`. -/
@[ext]
structure Record (V : Type u) where
  /-- The fields in order. -/
  fields : List (String × Option V)
  nodup : (fields.map Prod.fst).Nodup

namespace Record

variable {V : Type u}

/-- `record.get(field)`: `None` for a missing field as for one that is `None`. -/
def get (r : Record V) (field : String) : Option V := (Assoc.get r.fields field).join

/-- Put the values under their names, one after another. -/
def putAll (l pairs : List (String × Option V)) : List (String × Option V) :=
  pairs.foldl (fun l p => Assoc.put l p.1 p.2) l

theorem nodup_putAll {l : List (String × Option V)} (h : (l.map Prod.fst).Nodup)
    (pairs : List (String × Option V)) : ((putAll l pairs).map Prod.fst).Nodup := by
  induction pairs generalizing l with
  | nil => exact h
  | cons p pairs ih => exact ih (Assoc.nodup_put h p.1 p.2)

/-- The dict of a list of names and values: a repeated name keeps its place and takes the later
value. -/
def ofPairs (pairs : List (String × Option V)) : Record V :=
  ⟨putAll [] pairs, nodup_putAll (by simp) pairs⟩

end Record

/-- `RenameFields`: the constructor refuses two sources for one target. -/
structure RenameFields where
  mapping : StrMap String
  targets : (mapping.entries.map Sigma.snd).Nodup

namespace RenameFields

variable {V : Type u}

/-- `mapping.get(k, k)`. -/
def name (stage : RenameFields) (k : String) : String := (stage.mapping.lookup k).getD k

/-- `RenameFields.apply`. -/
def apply (stage : RenameFields) (r : Record V) : Record V :=
  .ofPairs (r.fields.map fun p => (stage.name p.1, p.2))

end RenameFields

/-- `DropFields.apply`. -/
def Record.drop {V : Type u} (r : Record V) (fields : List String) : Record V :=
  ⟨r.fields.filter fun p => !fields.contains p.1,
    (List.filter_sublist.map Prod.fst).nodup r.nodup⟩

/-- A leaf of a filter: the fields it reads, and its test. -/
structure Leaf (T : Type u) where
  fields : List String
  test : T

/-- A filter spec. -/
inductive FilterSpec (T : Type u) where
  | leaf (l : Leaf T)
  | and (specs : List (FilterSpec T))
  | or (specs : List (FilterSpec T))
  | not (spec : FilterSpec T)

namespace FilterSpec

variable {T : Type u}

mutual

/-- The predicate `_build_predicate_from_spec` builds, given what its leaves say. -/
def holds (value : Leaf T → Bool) : FilterSpec T → Bool
  | .leaf l => value l
  | .and specs => allHold value specs
  | .or specs => anyHolds value specs
  | .not spec => !spec.holds value

/-- `all(p(r) for p in predicates)`. -/
def allHold (value : Leaf T → Bool) : List (FilterSpec T) → Bool
  | [] => true
  | spec :: specs => spec.holds value && allHold value specs

/-- `any(p(r) for p in predicates)`. -/
def anyHolds (value : Leaf T → Bool) : List (FilterSpec T) → Bool
  | [] => false
  | spec :: specs => spec.holds value || anyHolds value specs

end

end FilterSpec

/-- A stage of a pipeline. -/
inductive Stage (V : Type u) (T : Type u) where
  | renameFields (stage : RenameFields)
  | dropFields (fields : List String)
  /-- `FilterRows` with a fusable spec. -/
  | filterRows (spec : FilterSpec T)
  /-- `FilterRows` with a plain callable. -/
  | filterCallable (predicate : Record V → Bool)

section Apply

variable {V : Type u} {T : Type u} (interp : T → List (Option V) → Bool)

/-- What a leaf says when its fields have the values `look` finds. -/
def leafValue (look : String → Option V) (l : Leaf T) : Bool := interp l.test (l.fields.map look)

/-- `stage.apply(record)`; `none` when a filter rejects the record. -/
def Stage.apply (r : Record V) : Stage V T → Option (Record V)
  | .renameFields stage => some (stage.apply r)
  | .dropFields fields => some (r.drop fields)
  | .filterRows spec => if spec.holds (leafValue interp r.get) then some r else none
  | .filterCallable predicate => if predicate r then some r else none

/-- Apply stages one after another. -/
def applyAll : List (Stage V T) → Record V → Option (Record V)
  | [], r => some r
  | stage :: stages, r => (stage.apply interp r).bind (applyAll stages)

end Apply

/-! ## `plan_split` -/

/-- The plan keyword arguments a stage, or a source, contributes. -/
structure PlanKwargs (T : Type u) where
  fieldMapping : Option (StrMap String) := none
  dropFields : Option (List String) := none
  filter : Option (FilterSpec T) := none

/-- `sorted(set(...))`. -/
def sortedSet (names : List String) : List String := names.dedup.insertionSort (· ≤ ·)

/-- `bool(mapping)`: a mapping is there and not empty. -/
def isTruthy (mapping : Option (StrMap String)) : Bool := mapping.any fun m => !m.keys.isEmpty

section Split

variable {V : Type u} {T : Type u}

/-- `stage._plan_kwargs()`. -/
def Stage.planKwargs : Stage V T → Option (PlanKwargs T)
  | .renameFields stage => some { fieldMapping := some stage.mapping }
  | .dropFields fields => some { dropFields := some (sortedSet fields) }
  | .filterRows spec => some { filter := some spec }
  | .filterCallable _ => none

namespace PlanKwargs

/-- The engine's order of the keys that are present: renames, drops, filter. -/
def ranks (kwargs : PlanKwargs T) : List Int :=
  (kwargs.fieldMapping.map fun _ => 0).toList ++ (kwargs.dropFields.map fun _ => 1).toList ++
    (kwargs.filter.map fun _ => 3).toList

/-- `dict.update`. -/
def update (kwargs new : PlanKwargs T) : PlanKwargs T where
  fieldMapping := new.fieldMapping.or kwargs.fieldMapping
  dropFields := new.dropFields.or kwargs.dropFields
  filter := new.filter.or kwargs.filter

/-- The keys whose value is truthy. -/
def truthy (kwargs : PlanKwargs T) : PlanKwargs T where
  fieldMapping := if isTruthy kwargs.fieldMapping then kwargs.fieldMapping else none
  dropFields := kwargs.dropFields.filter fun fields => !fields.isEmpty
  filter := kwargs.filter

end PlanKwargs

/-- One spec for a list of them. -/
def combined : List (FilterSpec T) → Option (FilterSpec T)
  | [] => none
  | [spec] => some spec
  | specs => some (.and specs)

/-- The variables of the loop of `plan_split`. -/
structure SplitState (T : Type u) where
  planOverrides : PlanKwargs T
  existing : PlanKwargs T
  filterSpecs : List (FilterSpec T)
  rank : Int

namespace SplitState

/-- The state before the loop. -/
def start (sourcePlan : PlanKwargs T) : SplitState T where
  planOverrides := {}
  existing := sourcePlan
  filterSpecs := sourcePlan.filter.toList
  rank := sourcePlan.truthy.ranks.foldl max (-1)

/-- The guard that ends the prefix: a stage out of order, or a second rename. -/
def stops (st : SplitState T) (kwargs : PlanKwargs T) : Bool :=
  (kwargs.ranks.min?.any fun least => least < st.rank) ||
    (isTruthy kwargs.fieldMapping && isTruthy st.existing.fieldMapping)

/-- Merge the keyword arguments of a stage. -/
def push (st : SplitState T) (kwargs : PlanKwargs T) : SplitState T :=
  let filterSpecs := st.filterSpecs ++ kwargs.filter.toList
  let values : PlanKwargs T :=
    { fieldMapping := kwargs.fieldMapping
      dropFields := kwargs.dropFields.map fun fields =>
        sortedSet (st.existing.dropFields.getD [] ++ fields)
      filter := kwargs.filter.bind fun _ => combined filterSpecs }
  { planOverrides := st.planOverrides.update values
    existing := st.existing.update values
    filterSpecs := filterSpecs
    rank := kwargs.ranks.foldl max st.rank }

end SplitState

/-- The loop of `plan_split`. -/
def planSplitLoop (st : SplitState T) : List (Stage V T) → PlanKwargs T × List (Stage V T)
  | [] => (st.planOverrides, [])
  | stage :: stages =>
      match stage.planKwargs with
      | none => (st.planOverrides, stage :: stages)
      | some kwargs =>
          if st.stops kwargs then (st.planOverrides, stage :: stages)
          else planSplitLoop (st.push kwargs) stages

/-- `plan_split(stages, source_plan)`: the plan overrides, and the stages left over. -/
def planSplit (stages : List (Stage V T)) (sourcePlan : PlanKwargs T) :
    PlanKwargs T × List (Stage V T) := planSplitLoop (.start sourcePlan) stages

end Split

/-! ## The engine's side -/

section Engine

variable {T : Type u}

/-- `MAX_PREDICATE_DEPTH`. -/
def maxPredicateDepth : Nat := 128

/-- The combination of parsed sub-specs in `combine_list`. -/
def combineList (combiner : BoolTree (Leaf T) → BoolTree (Leaf T) → BoolTree (Leaf T))
    (label : String) : List (BoolTree (Leaf T)) → Except String (BoolTree (Leaf T))
  | [] => .error (label ++ " filter requires at least one sub-filter")
  | first :: rest => .ok (rest.foldl combiner first)

mutual

/-- `parse_filter_spec_depth`, the leaves of which are taken to parse. -/
def parseFilterSpecDepth (spec : FilterSpec T) (depth : Nat) :
    Except String (BoolTree (Leaf T)) :=
  if maxPredicateDepth ≤ depth then
    .error ("filter spec nesting exceeds maximum depth of " ++ toString maxPredicateDepth)
  else
    match spec with
    | .leaf l => .ok (.leaf l)
    | .and specs => parseSpecs specs (depth + 1) >>= combineList .and "'and'"
    | .or specs => parseSpecs specs (depth + 1) >>= combineList .or "'or'"
    | .not inner => BoolTree.not <$> parseFilterSpecDepth inner (depth + 1)

/-- The sub-specs of a compound filter. -/
def parseSpecs : List (FilterSpec T) → Nat → Except String (List (BoolTree (Leaf T)))
  | [], _ => .ok []
  | spec :: specs, depth => do
      let first ← parseFilterSpecDepth spec depth
      let rest ← parseSpecs specs depth
      return first :: rest

end

/-- The plan of the engine, with a filter over abstract leaves. -/
structure FusedPlan (T : Type u) where
  fieldMap : StrMap String := ∅
  dropFields : List String := []
  filter : Option (BoolTree (Leaf T)) := none

/-- `execution_plan_from_kwargs`. -/
def executionPlanFromKwargs (kwargs : PlanKwargs T) : Except String (FusedPlan T) := do
  let filter ← kwargs.filter.mapM fun spec => parseFilterSpecDepth spec 0
  return {
    fieldMap := kwargs.fieldMapping.getD ∅
    dropFields := kwargs.dropFields.getD []
    filter := filter }

end Engine

end Rypipe.Pipeline
