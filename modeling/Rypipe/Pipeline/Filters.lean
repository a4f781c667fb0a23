import Rypipe.Pipeline.Stages

/-! # Filter specs and their compiled trees

A filter spec that the engine's parser accepts becomes a tree with the same leaves in the same order
that gives the same verdicts (`FilterSpec.compiles_of_parse`). -/

namespace Rypipe.Pipeline

universe u

namespace FilterSpec

variable {T : Type u}

mutual

/-- The leaves of a spec, in order. -/
def leaves : FilterSpec T → List (Leaf T)
  | .leaf l => [l]
  | .and specs | .or specs => leavesAll specs
  | .not spec => spec.leaves

/-- The leaves of a list of specs. -/
def leavesAll : List (FilterSpec T) → List (Leaf T)
  | [] => []
  | spec :: specs => spec.leaves ++ leavesAll specs

end

/-- The leaves of some specs are those of each spec in turn. -/
theorem leavesAll_eq (specs : List (FilterSpec T)) : leavesAll specs = specs.flatMap leaves := by
  induction specs with
  | nil => rfl
  | cons spec specs ih => rw [leavesAll, ih, List.flatMap_cons]

/-- All specs hold if each of them does. -/
theorem allHold_eq (value : Leaf T → Bool) (specs : List (FilterSpec T)) :
    allHold value specs = specs.all (holds value) := by
  induction specs with
  | nil => rfl
  | cons spec specs ih => rw [allHold, ih, List.all_cons]

/-- What a parsed filter keeps of its spec: the verdicts and the leaves. -/
structure Compiles (spec : FilterSpec T) (tree : BoolTree (Leaf T)) : Prop where
  holds : ∀ value, tree.eval value = spec.holds value
  leaves : tree.leaves = spec.leaves

/-- A chain of conjunctions holds if its first tree and all others do. -/
theorem eval_foldl_and (value : Leaf T → Bool) (first : BoolTree (Leaf T))
    (rest : List (BoolTree (Leaf T))) : (rest.foldl .and first).eval value =
      (first.eval value && rest.all (BoolTree.eval value)) := by
  induction rest generalizing first with
  | nil => exact (Bool.and_true _).symm
  | cons second rest ih => rw [List.foldl_cons, ih, BoolTree.eval, List.all_cons, Bool.and_assoc]

/-- A chain of disjunctions holds if its first tree or one of the others does. -/
theorem eval_foldl_or (value : Leaf T → Bool) (first : BoolTree (Leaf T))
    (rest : List (BoolTree (Leaf T))) : (rest.foldl .or first).eval value =
      (first.eval value || rest.any (BoolTree.eval value)) := by
  induction rest generalizing first with
  | nil => exact (Bool.or_false _).symm
  | cons second rest ih => rw [List.foldl_cons, ih, BoolTree.eval, List.any_cons, Bool.or_assoc]

/-- The leaves of a chain are those of its trees in order. -/
theorem leaves_foldl {combiner : BoolTree (Leaf T) → BoolTree (Leaf T) → BoolTree (Leaf T)}
    (h : ∀ a b, (combiner a b).leaves = a.leaves ++ b.leaves) (first : BoolTree (Leaf T))
    (rest : List (BoolTree (Leaf T))) :
    (rest.foldl combiner first).leaves = first.leaves ++ rest.flatMap BoolTree.leaves := by
  induction rest generalizing first with
  | nil => exact (List.append_nil _).symm
  | cons second rest ih =>
      rw [List.foldl_cons, ih, h, List.flatMap_cons, List.append_assoc]

/-- A combination that succeeds has a first sub-filter. -/
theorem combineList_eq_ok {combiner : BoolTree (Leaf T) → BoolTree (Leaf T) → BoolTree (Leaf T)}
    {label : String} {trees : List (BoolTree (Leaf T))} {tree : BoolTree (Leaf T)}
    (h : combineList combiner label trees = .ok tree) :
    ∃ first rest, trees = first :: rest ∧ tree = rest.foldl combiner first := by
  cases trees with
  | nil => cases h
  | cons first rest => exact ⟨first, rest, rfl, (Except.ok.inj h).symm⟩

/-- A step of a sequence of steps that succeeds has succeeded. -/
theorem bind_eq_ok {α β : Type u} {x : Except String α} {f : α → Except String β} {b : β}
    (h : (x >>= f) = .ok b) : ∃ a, x = .ok a ∧ f a = .ok b := by
  cases x with
  | error e => cases h
  | ok a => exact ⟨a, rfl, h⟩

mutual

/-- A filter that parses keeps its verdicts and leaves. By recursion on the spec: a list of specs is
folded with its connective, which has the verdict of all or any of them and the leaves of each in
order. -/
theorem compiles_of_parse {spec : FilterSpec T} {depth : Nat} {tree : BoolTree (Leaf T)}
    (h : parseFilterSpecDepth spec depth = .ok tree) : spec.Compiles tree := by
  unfold parseFilterSpecDepth at h
  split at h
  · cases h
  · cases spec with
    | leaf l =>
        cases h
        exact ⟨fun value => rfl, rfl⟩
    -- the parser folds the members, and the fold holds where all of them do
    | and specs =>
        obtain ⟨trees, htrees, hcombine⟩ := bind_eq_ok h
        obtain ⟨hall, hany, hleaves⟩ := compiles_of_parseSpecs htrees
        obtain ⟨first, rest, rfl, rfl⟩ := combineList_eq_ok hcombine
        refine ⟨fun value => ?_, ?_⟩
        · rw [eval_foldl_and, holds, ← hall, List.all_cons]
        · rw [leaves_foldl (fun _ _ => rfl), leaves, ← hleaves, List.flatMap_cons]
    | or specs =>
        obtain ⟨trees, htrees, hcombine⟩ := bind_eq_ok h
        obtain ⟨hall, hany, hleaves⟩ := compiles_of_parseSpecs htrees
        obtain ⟨first, rest, rfl, rfl⟩ := combineList_eq_ok hcombine
        refine ⟨fun value => ?_, ?_⟩
        · rw [eval_foldl_or, holds, ← hany, List.any_cons]
        · rw [leaves_foldl (fun _ _ => rfl), leaves, ← hleaves, List.flatMap_cons]
    | not inner =>
        cases hinner : parseFilterSpecDepth inner (depth + 1) with
        | error e => simp [hinner] at h
        | ok t =>
            simp only [hinner, Functor.map, Except.map, Except.ok.injEq] at h
            subst h
            have hcompiles := compiles_of_parse hinner
            refine ⟨fun value => ?_, ?_⟩
            · rw [BoolTree.eval, hcompiles.holds, holds]
            · rw [BoolTree.leaves, hcompiles.leaves, leaves]

/-- A list of filters that parses keeps their verdicts and leaves. -/
theorem compiles_of_parseSpecs {specs : List (FilterSpec T)} {depth : Nat}
    {trees : List (BoolTree (Leaf T))} (h : parseSpecs specs depth = .ok trees) :
    (∀ value, trees.all (BoolTree.eval value) = allHold value specs) ∧
      (∀ value, trees.any (BoolTree.eval value) = anyHolds value specs) ∧
      trees.flatMap BoolTree.leaves = leavesAll specs := by
  cases specs with
  | nil =>
      rw [parseSpecs] at h
      cases h
      exact ⟨fun _ => rfl, fun _ => rfl, rfl⟩
  | cons spec specs =>
      rw [parseSpecs] at h
      obtain ⟨first, hfirst, h⟩ := bind_eq_ok h
      obtain ⟨rest, hrest, h⟩ := bind_eq_ok h
      cases h
      have hspec := compiles_of_parse hfirst
      obtain ⟨hall, hany, hleaves⟩ := compiles_of_parseSpecs hrest
      refine ⟨fun value => ?_, fun value => ?_, ?_⟩
      · rw [List.all_cons, hspec.holds, hall, allHold]
      · rw [List.any_cons, hspec.holds, hany, anyHolds]
      · rw [List.flatMap_cons, hspec.leaves, hleaves, leavesAll]

end

end FilterSpec

end Rypipe.Pipeline
