import Rypipe.Plan.TypeSpec
import Rypipe.Pipeline.Stages
import Rypipe.Foundation.Chains

/-! # Filter specs

`parse_filter_spec` of `plan_kwargs.rs`: a filter given as a Python object, a leaf or an `and`, `or` or
`not` of filters, becomes a `FilterPredicate`. What the parser asks of an object is a parameter
(`PyObjects`), so that objects may share parts or contain themselves; the nesting is limited by
`MAX_PREDICATE_DEPTH`. -/

namespace Rypipe

open Pipeline (maxPredicateDepth)

/-- `CompareOp::from_str`. -/
def CompareOp.fromStr (s : String) : Option CompareOp :=
  if s = ">" ∨ s = "gt" then some .gt
  else if s = "<" ∨ s = "lt" then some .lt
  else if s = ">=" ∨ s = "ge" then some .ge
  else if s = "<=" ∨ s = "le" then some .le
  else if s = "==" ∨ s = "eq" then some .eq
  else if s = "!=" ∨ s = "ne" then some .ne
  else none

/-- `ArithOp::from_str`. -/
def ArithOp.fromStr (s : String) : Option ArithOp :=
  if s = "+" ∨ s = "add" then some .add
  else if s = "-" ∨ s = "sub" then some .sub
  else if s = "*" ∨ s = "mul" then some .mul
  else if s = "/" ∨ s = "div" then some .div
  else none

section Specs

variable [Platform]

/-- What the parser asks of Python objects and of the `regex` crate. -/
structure PyObjects (O : Type) where
  /-- The name of the type of an object. -/
  typeName : O → String
  /-- `cast::<PyDict>()`: the entries under string keys. -/
  dict : O → Option (List (String × O))
  /-- `extract::<Vec<_>>()`. -/
  list : O → Option (List O)
  /-- `extract::<String>()`. -/
  str : O → Option String
  /-- `extract::<bool>()`. -/
  bool : O → Option Bool
  /-- `extract::<f64>()`. -/
  float : O → Option F64
  /-- The error of `RegexSpec::new(pattern)`, or `none` when the pattern compiles. -/
  regexError : String → Option String

/-- The exception of a refused filter: a `PlanError`, or the one that a conversion raises. -/
inductive PyErr where
  | planError (message : String)
  | raised
  deriving DecidableEq, Repr

namespace PyObjects

variable {O : Type} (py : PyObjects O)

/-- The value under a key, or the error that names what is missing. -/
def required (f : List (String × O)) (key message : String) : Except PyErr O :=
  match f.lookup key with
  | some item => .ok item
  | none => .error (.planError message)

/-- A conversion, which raises when it fails. -/
def extract {α : Type} : Option α → Except PyErr α
  | some a => .ok a
  | none => .error .raised

/-- The text under a key. -/
def requiredStr (f : List (String × O)) (key message : String) : Except PyErr String := do
  let item ← required f key message
  extract (py.str item)

/-- `parse::<ArithOp>()` with the message of its error. -/
def parseArithOp (op : String) : Except PyErr ArithOp :=
  match ArithOp.fromStr op with
  | some aop => .ok aop
  | none => .error (.planError ("unsupported arithmetic op " ++ debugStr op))

/-- `parse::<CompareOp>()` with the message of its error. -/
def parseCompareOp (op message : String) : Except PyErr CompareOp :=
  match CompareOp.fromStr op with
  | some cop => .ok cop
  | none => .error (.planError message)

/-- The operators of the comparisons after a transform. -/
def validCompareOps : String := "==, eq, !=, ne, >, gt, <, lt, >=, ge, <=, le"

/-- The comparison under `cmp_op`, or a default. -/
def cmpOp (f : List (String × O)) (default : String) : Except PyErr CompareOp := do
  let cmpOpStr ← match f.lookup "cmp_op" with
    | some cmp => extract (py.str cmp)
    | none => .ok default
  parseCompareOp cmpOpStr
    ("unsupported compare op " ++ debugStr cmpOpStr ++ "; valid: " ++ validCompareOps)

/-! ## Leaves -/

/-- A leaf with `arith_op`. -/
def parseArithmetic (f : List (String × O)) (op : String) (arithOp : O) :
    Except PyErr FilterPredicate := do
  let arithOp ← extract (py.str arithOp)
  let arithOp ← parseArithOp arithOp
  let field ← py.requiredStr f "field" "arithmetic filter requires 'field'"
  let arithValue ← required f "arith_value" "arithmetic filter requires 'arith_value'"
  let arithValue ← extract (py.float arithValue)
  let cmpValue ← py.requiredStr f "value" "arithmetic filter requires 'value'"
  let cmpOp ← parseCompareOp op ("unsupported compare op " ++ debugStr op)
  return .arithmeticCompare field arithOp arithValue cmpOp cmpValue

/-- A leaf with `field_a` and `field_b`. -/
def parseColumns (op : String) (a b : O) : Except PyErr FilterPredicate := do
  let fieldA ← extract (py.str a)
  let fieldB ← extract (py.str b)
  let cop ← parseCompareOp op
    ("unsupported compare op " ++ debugStr op ++ "; valid: >, <, >=, <=, ==, !=")
  return .compare fieldA cop fieldB

/-- A leaf with `old` and `new`. -/
def parseReplace (f : List (String × O)) (op : String) (old new : O) :
    Except PyErr FilterPredicate := do
  let field ← py.requiredStr f "field" "replace filter 'field' key missing"
  let old ← extract (py.str old)
  let new ← extract (py.str new)
  if old = "" then
    .error (.planError
      "replace filter 'old' must not be empty (would insert before every character)")
  else do
    let value ← py.requiredStr f "value" "replace filter must include 'value' key"
    let cop ← py.cmpOp f op
    return .replace field old new cop value

/-- A leaf with `values`. -/
def parseMembership (f : List (String × O)) (op : String) (values : O) :
    Except PyErr FilterPredicate := do
  let field ← py.requiredStr f "field" "filter 'field' key missing"
  let items ← extract (py.list values)
  let values ← items.mapM fun item => extract (py.str item)
  if 100000 < values.length then
    .error (.planError
      ("values list too large (" ++ toString values.length ++ " elements, max 100,000)"))
  else if op = "in" then return .in field values
  else if op = "not_in" then return .notIn field values
  else .error (.planError
    ("unsupported collection op " ++ debugStr op ++ "; valid: in, not_in"))

/-- A leaf with the operator `is_null`. -/
def parseIsNull (f : List (String × O)) : Except PyErr FilterPredicate := do
  let field ← py.requiredStr f "field" "is_null filter must include 'field' key"
  return .isNull field

/-- A leaf with the operator `regex`. -/
def parseRegex (f : List (String × O)) : Except PyErr FilterPredicate := do
  let field ← py.requiredStr f "field" "regex filter must include 'field' key"
  let pattern ← py.requiredStr f "value" "regex filter must include 'value' key"
  match py.regexError pattern with
  | some e => .error (.planError ("invalid regex in filter: " ++ e))
  | none => return .regex field pattern

/-- A leaf with the operator `is_type`. -/
def parseIsType (f : List (String × O)) : Except PyErr FilterPredicate := do
  let field ← py.requiredStr f "field" "is_type filter must include 'field' key"
  let typeStr ← py.requiredStr f "value" "is_type filter must include 'value' key"
  match FieldType.fromStr typeStr with
  | .error e => .error (.planError
      ("unknown field type '" ++ typeStr ++ "' in is_type filter; " ++ e))
  | .ok fieldType => return .isType field fieldType

/-- A leaf that compares a field with a constant. -/
def parseConstant (f : List (String × O)) (op : String) : Except PyErr FilterPredicate := do
  let field ← py.requiredStr f "field" "filter must include 'field' key"
  let value ← py.requiredStr f "value" "filter must include 'value' key"
  if op = "starts_with" then return .startsWith field value
  else if op = "ends_with" then return .endsWith field value
  else if op = "contains" then return .contains field value
  else if op = "strip" then return .strip field (← py.cmpOp f "==") value .both
  else if op = "lstrip" then return .strip field (← py.cmpOp f "==") value .start
  else if op = "rstrip" then return .strip field (← py.cmpOp f "==") value .fin
  else if op = "lower" then return .lower field (← py.cmpOp f "==") value
  else if op = "upper" then return .upper field (← py.cmpOp f "==") value
  else if op = "length" then return .length field (← py.cmpOp f ">") value
  else
    let cop ← parseCompareOp op ("unsupported filter op " ++ debugStr op ++ "; valid: " ++
      validCompareOps ++ ", starts_with, ends_with, contains, strip, lower, upper, length, " ++
        "is_null, is_type, regex")
    return .compareLiteral field cop value

/-- `parse_leaf_spec`. -/
def parseLeafSpec (f : List (String × O)) : Except PyErr FilterPredicate :=
  match f.lookup "always" with
  | some keep => .always <$> extract (py.bool keep)
  | none =>
  match f.lookup "not_field" with
  | some field => .notField <$> extract (py.str field)
  | none => do
  let op ← py.requiredStr f "op" "filter must include 'op' key"
  match f.lookup "arith_op" with
  | some arithOp => py.parseArithmetic f op arithOp
  | none =>
  match f.lookup "field_a", f.lookup "field_b" with
  | some a, some b => py.parseColumns op a b
  | _, _ =>
  match f.lookup "old", f.lookup "new" with
  | some old, some new => py.parseReplace f op old new
  | _, _ =>
  match f.lookup "values" with
  | some values => py.parseMembership f op values
  | none =>
    if op = "is_null" then py.parseIsNull f
    else if op = "regex" then py.parseRegex f
    else if op = "is_type" then py.parseIsType f
    else py.parseConstant f op

/-! ## Compound filters -/

/-- `combine_list`: the sub-specs, folded into a chain from the left. -/
def combineList (parse : O → Except PyErr FilterPredicate) (item : O)
    (combiner : FilterPredicate → FilterPredicate → FilterPredicate) (label : String) :
    Except PyErr FilterPredicate :=
  match py.list item with
  | none => .error (.planError (label ++ " filter expects a list of filter specs"))
  | some [] => .error (.planError (label ++ " filter requires at least one sub-filter"))
  | some (first :: rest) => do
      let acc ← parse first
      rest.foldlM (fun acc spec => combiner acc <$> parse spec) acc

/-- `parse_filter_spec_depth`. -/
def parseFilterSpecDepth (spec : O) (depth : Nat) : Except PyErr FilterPredicate :=
  if _h : maxPredicateDepth ≤ depth then
    .error (.planError
      ("filter spec nesting exceeds maximum depth of " ++ toString maxPredicateDepth))
  else
    match py.dict spec with
    | none => .error (.planError ("filter spec must be a dict, got " ++ py.typeName spec))
    | some dict =>
        -- compound forms take precedence over leaves
        match dict.lookup "and" with
        | some item =>
            py.combineList (fun spec => parseFilterSpecDepth spec (depth + 1)) item .and "'and'"
        | none =>
        match dict.lookup "or" with
        | some item =>
            py.combineList (fun spec => parseFilterSpecDepth spec (depth + 1)) item .or "'or'"
        | none =>
        match dict.lookup "not" with
        | some item => .not <$> parseFilterSpecDepth item (depth + 1)
        | none => py.parseLeafSpec dict
termination_by maxPredicateDepth - depth

/-- `parse_filter_spec`. -/
def parseFilterSpec (spec : O) : Except PyErr FilterPredicate := py.parseFilterSpecDepth spec 0

end PyObjects

/-! ## Depth -/

/-- The depth of a predicate: how many calls of a function that recurses on it can be nested. -/
def FilterPredicate.depth : FilterPredicate → Nat
  | .and a b | .or a b => max a.depth b.depth + 1
  | .not inner => inner.depth + 1
  | _ => 1

namespace PyObjects

variable {O : Type} (py : PyObjects O)

/-- How deep the leaves of a spec end up in the predicate: one more below each `not`, and below a list
as many more as there are members from theirs to the end, one fewer for the first. -/
inductive LeafDepth : O → Nat → Prop
  | leaf {spec : O} {dict : List (String × O)} (hdict : py.dict spec = some dict)
      (hand : dict.lookup "and" = none) (hor : dict.lookup "or" = none)
      (hnot : dict.lookup "not" = none) : LeafDepth spec 1
  | not {spec item : O} {dict : List (String × O)} {n : Nat} (hdict : py.dict spec = some dict)
      (hand : dict.lookup "and" = none) (hor : dict.lookup "or" = none)
      (hnot : dict.lookup "not" = some item) (h : LeafDepth item n) : LeafDepth spec (n + 1)
  | member {spec item member : O} {dict : List (String × O)} {members : List O} {i n : Nat}
      (hdict : py.dict spec = some dict)
      (hitem : (dict.lookup "and").or (dict.lookup "or") = some item)
      (hmembers : py.list item = some members) (hmember : members[i]? = some member)
      (h : LeafDepth member n) : LeafDepth spec (n + (members.length - max i 1))

variable {py}

/-- Each kind of leaf becomes a leaf. -/
theorem depth_parseArithmetic (f : List (String × O)) (op : String) (arithOp : O) :
    Yields (py.parseArithmetic f op arithOp) fun p => p.depth = 1 := by
  rw [parseArithmetic]
  refine yields_bind fun arithText => yields_bind fun aop => yields_bind fun field => ?_
  refine yields_bind fun item => yields_bind fun arithValue => yields_bind fun cmpValue => ?_
  exact yields_bind fun cop => yields_ok rfl

/-- A comparison of two columns is a leaf of depth one. -/
theorem depth_parseColumns (op : String) (a b : O) :
    Yields (py.parseColumns op a b) fun p => p.depth = 1 := by
  rw [parseColumns]
  refine yields_bind fun fieldA => yields_bind fun fieldB => ?_
  exact yields_bind fun cop => yields_ok rfl

/-- So is a test after a replacement. -/
theorem depth_parseReplace (f : List (String × O)) (op : String) (old new : O) :
    Yields (py.parseReplace f op old new) fun p => p.depth = 1 := by
  rw [parseReplace]
  refine yields_bind fun field => yields_bind fun old => yields_bind fun new => ?_
  split
  · exact yields_error _
  · exact yields_bind fun value => yields_bind fun cop => yields_ok rfl

/-- So is a test for one of some values, whether they are given as a list or as one value. -/
theorem depth_parseMembership (f : List (String × O)) (op : String) (values : O) :
    Yields (py.parseMembership f op values) fun p => p.depth = 1 := by
  rw [parseMembership]
  refine yields_bind fun field => yields_bind fun items => yields_bind fun values => ?_
  split
  · exact yields_error _
  split
  · exact yields_ok rfl
  split
  · exact yields_ok rfl
  · exact yields_error _

/-- So is a test for null. -/
theorem depth_parseIsNull (f : List (String × O)) :
    Yields (py.parseIsNull f) fun p => p.depth = 1 := by
  rw [parseIsNull]
  exact yields_bind fun field => yields_ok rfl

/-- So is a match of a regular expression. -/
theorem depth_parseRegex (f : List (String × O)) :
    Yields (py.parseRegex f) fun p => p.depth = 1 := by
  rw [parseRegex]
  refine yields_bind fun field => yields_bind fun pattern => ?_
  split
  · exact yields_error _
  · exact yields_ok rfl

/-- So is a test of a type. -/
theorem depth_parseIsType (f : List (String × O)) :
    Yields (py.parseIsType f) fun p => p.depth = 1 := by
  rw [parseIsType]
  refine yields_bind fun field => yields_bind fun typeStr => ?_
  split
  · exact yields_error _
  · exact yields_ok rfl

/-- So is a comparison with a constant. -/
theorem depth_parseConstant (f : List (String × O)) (op : String) :
    Yields (py.parseConstant f op) fun p => p.depth = 1 := by
  rw [parseConstant]
  refine yields_bind fun field => yields_bind fun value => ?_
  -- the transforms, which read `cmp_op`, and the rest
  repeat' split
  all_goals first
    | exact yields_ok rfl
    | exact yields_bind fun cop => yields_ok rfl

/-- A leaf spec becomes a leaf: every kind of test that the parser accepts is one node of the
tree. -/
theorem depth_parseLeafSpec (f : List (String × O)) :
    Yields (py.parseLeafSpec f) fun p => p.depth = 1 := by
  rw [parseLeafSpec]
  split
  · exact yields_map fun _ => rfl
  split
  · exact yields_map fun _ => rfl
  refine yields_bind fun op => ?_
  split
  · exact depth_parseArithmetic f op _
  split
  · exact depth_parseColumns op _ _
  split
  · exact depth_parseReplace f op _ _
  split
  · exact depth_parseMembership f op _
  split
  · exact depth_parseIsNull f
  split
  · exact depth_parseRegex f
  split
  · exact depth_parseIsType f
  · exact depth_parseConstant f op

/-- **A list is accepted exactly when it has members and all of them are accepted**, and becomes the
chain of what they become. -/
theorem combineList_eq_ok {parse : O → Except PyErr FilterPredicate} {item : O}
    {combiner : FilterPredicate → FilterPredicate → FilterPredicate} {label : String}
    {p : FilterPredicate} :
    py.combineList parse item combiner label = .ok p ↔
      ∃ members first rest, py.list item = some members ∧
        List.Forall₂ (fun spec q => parse spec = .ok q) members (first :: rest) ∧
          p = rest.foldl combiner first := by
  rw [combineList]
  split
  · next hnone =>
    constructor
    · intro h
      cases h
    · rintro ⟨members, first, rest, hmembers, -⟩
      rw [hnone] at hmembers
      cases hmembers
  · next hempty =>
    constructor
    · intro h
      cases h
    · rintro ⟨members, first, rest, hmembers, hparse, -⟩
      rw [hempty] at hmembers
      cases hmembers
      cases hparse
  · next spec specs hlist =>
    cases hfirst : parse spec with
    | error e =>
        constructor
        · intro h
          cases h
        · rintro ⟨members, first, rest, hmembers, hparse, -⟩
          rw [hlist] at hmembers
          cases hmembers
          cases hparse with
          | cons hok _ =>
              rw [hfirst] at hok
              cases hok
    | ok q =>
        -- the first member is the start of the fold over the others
        have hstep : ((.ok q : Except PyErr FilterPredicate) >>= fun acc =>
            specs.foldlM (fun acc spec => combiner acc <$> parse spec) acc) =
            specs.foldlM (fun acc spec => combiner acc <$> parse spec) q := rfl
        rw [hstep, foldlM_map_eq_ok]
        constructor
        · rintro ⟨rest, hrest, rfl⟩
          exact ⟨_, q, rest, hlist, .cons hfirst hrest, rfl⟩
        · rintro ⟨members, first, rest, hmembers, hparse, rfl⟩
          rw [hlist] at hmembers
          cases hmembers
          cases hparse with
          | cons hok hrest =>
              rw [hfirst] at hok
              cases hok
              exact ⟨rest, hrest, rfl⟩

/-- The leaves below a list are those of its members, as deep as the position of the member in the
fold of the list makes them. -/
theorem leafDepth_list {spec item : O} {dict : List (String × O)} {members : List O}
    (hdict : py.dict spec = some dict)
    (hitem : (dict.lookup "and").or (dict.lookup "or") = some item)
    (hmembers : py.list item = some members) :
    {n | py.LeafDepth spec n} = {n | ∃ i member m, members[i]? = some member ∧
      m ∈ {n | py.LeafDepth member n} ∧ n = m + (members.length - max i 1)} := by
  have hnot_none : ¬ (dict.lookup "and" = none ∧ dict.lookup "or" = none) := by
    rintro ⟨hand, hor⟩
    rw [hand, hor] at hitem
    cases hitem
  ext n
  constructor
  · intro h
    cases h with
    | leaf hdict' hand hor =>
        cases hdict.symm.trans hdict'
        exact absurd ⟨hand, hor⟩ hnot_none
    | not hdict' hand hor =>
        cases hdict.symm.trans hdict'
        exact absurd ⟨hand, hor⟩ hnot_none
    | member hdict' hitem' hmembers' hmember h =>
        cases hdict.symm.trans hdict'
        cases hitem.symm.trans hitem'
        cases hmembers.symm.trans hmembers'
        exact ⟨_, _, _, hmember, h, rfl⟩
  · rintro ⟨i, member, m, hmember, h, rfl⟩
    exact .member hdict hitem hmembers hmember h

/-- The leaves below a negation are those of the negated spec, each one level deeper. -/
theorem leafDepth_not {spec item : O} {dict : List (String × O)} (hdict : py.dict spec = some dict)
    (hand : dict.lookup "and" = none) (hor : dict.lookup "or" = none)
    (hnot : dict.lookup "not" = some item) (n : Nat) :
    py.LeafDepth spec n ↔ ∃ m, py.LeafDepth item m ∧ n = m + 1 := by
  constructor
  · intro h
    cases h with
    | leaf hdict' _ _ hnot' =>
        cases hdict.symm.trans hdict'
        cases hnot.symm.trans hnot'
    | not hdict' _ _ hnot' h =>
        cases hdict.symm.trans hdict'
        cases hnot.symm.trans hnot'
        exact ⟨_, h, rfl⟩
    | member hdict' hitem =>
        cases hdict.symm.trans hdict'
        rw [hand, hor] at hitem
        cases hitem
  · rintro ⟨m, h, rfl⟩
    exact .not hdict hand hor hnot h

/-- A spec without a connective is one leaf, at depth one. The parser looks for `and`, `or` and
`not` first and reads the rest as a leaf. -/
theorem leafDepth_leaf {spec : O} {dict : List (String × O)} (hdict : py.dict spec = some dict)
    (hand : dict.lookup "and" = none) (hor : dict.lookup "or" = none)
    (hnot : dict.lookup "not" = none) (n : Nat) : py.LeafDepth spec n ↔ n = 1 := by
  constructor
  · intro h
    cases h with
    | leaf => rfl
    | not hdict' _ _ hnot' =>
        cases hdict.symm.trans hdict'
        cases hnot.symm.trans hnot'
    | member hdict' hitem =>
        cases hdict.symm.trans hdict'
        rw [hand, hor] at hitem
        cases hitem
  · rintro rfl
    exact .leaf hdict hand hor hnot

/-- The depth of a list's predicate, when that of each member's is the greatest of its leaves. -/
theorem isGreatest_depth_combineList {spec item : O} {dict : List (String × O)}
    {parse : O → Except PyErr FilterPredicate}
    {combiner : FilterPredicate → FilterPredicate → FilterPredicate} {label : String}
    {p : FilterPredicate} (hdict : py.dict spec = some dict)
    (hitem : (dict.lookup "and").or (dict.lookup "or") = some item)
    (hcombiner : ∀ a b, (combiner a b).depth = max a.depth b.depth + 1)
    (hparse : ∀ spec q, parse spec = .ok q → IsGreatest {n | py.LeafDepth spec n} q.depth)
    (h : py.combineList parse item combiner label = .ok p) :
    IsGreatest {n | py.LeafDepth spec n} p.depth := by
  obtain ⟨members, first, rest, hmembers, hall, rfl⟩ := combineList_eq_ok.mp h
  rw [leafDepth_list hdict hitem hmembers]
  exact isGreatest_depth_chain hcombiner (hall.imp hparse)

/-- **The depth of an accepted predicate is that of the deepest leaf of its spec.** By induction on
the spec along `parse_filter_spec_depth`: a list is folded into a chain, in which the first element
sinks by one level for each further one. -/
theorem isGreatest_depth {spec : O} {depth : Nat} {p : FilterPredicate}
    (h : py.parseFilterSpecDepth spec depth = .ok p) :
    IsGreatest {n | py.LeafDepth spec n} p.depth := by
  -- by induction on the nesting that is left
  induction hroom : maxPredicateDepth - depth using Nat.strongRecOn generalizing spec depth p with
  | ind room ih =>
      rw [parseFilterSpecDepth] at h
      split at h
      · cases h
      next hdepth =>
      have hinner : ∀ spec q, py.parseFilterSpecDepth spec (depth + 1) = .ok q →
          IsGreatest {n | py.LeafDepth spec n} q.depth :=
        fun spec q hq => ih _ (by omega) hq rfl
      split at h
      · cases h
      next dict hdict =>
      split at h
      · next item hand =>
        refine isGreatest_depth_combineList hdict ?_ (fun _ _ => rfl) hinner h
        rw [hand]
        rfl
      next hand =>
      split at h
      · next item hor =>
        refine isGreatest_depth_combineList hdict ?_ (fun _ _ => rfl) hinner h
        rw [hand, hor]
        rfl
      next hor =>
      split at h
      · next item hnot =>
        cases hitem : py.parseFilterSpecDepth item (depth + 1) with
        | error e =>
            rw [hitem] at h
            cases h
        | ok q =>
            rw [hitem] at h
            cases h
            obtain ⟨hmem, hupper⟩ := hinner item q hitem
            constructor
            · exact (leafDepth_not hdict hand hor hnot _).mpr ⟨_, hmem, rfl⟩
            · intro n hn
              obtain ⟨m, hm, rfl⟩ := (leafDepth_not hdict hand hor hnot n).mp hn
              exact Nat.succ_le_succ (hupper hm)
      · next hnot =>
        have hone := depth_parseLeafSpec dict p h
        rw [hone]
        constructor
        · exact (leafDepth_leaf hdict hand hor hnot 1).mpr rfl
        · intro n hn
          exact ((leafDepth_leaf hdict hand hor hnot n).mp hn).le

/-- **When an accepted filter has bounded depth**: exactly when no leaf of its spec ends up deeper than
the bound. -/
theorem depth_le_iff {spec : O} {p : FilterPredicate} (h : py.parseFilterSpec spec = .ok p) :
    p.depth ≤ maxPredicateDepth ↔ ∀ n, py.LeafDepth spec n → n ≤ maxPredicateDepth :=
  isLUB_le_iff (isGreatest_depth h).isLUB

/-! ## Over plain values -/

/-- Python values of the built-in types a filter is written with. -/
inductive PyValue where
  | bool (b : Bool)
  | str (s : String)
  | list (items : List PyValue)
  | dict (entries : List (String × PyValue))

/-- How plain values convert; `float(b)` is 0 or 1. -/
def pyValues : PyObjects PyValue where
  typeName
    | .bool _ => "bool"
    | .str _ => "str"
    | .list _ => "list"
    | .dict _ => "dict"
  dict
    | .dict entries => some entries
    | _ => none
  list
    | .list items => some items
    | _ => none
  str
    | .str s => some s
    | _ => none
  bool
    | .bool b => some b
    | _ => none
  float
    | .bool b => some (intAsF64 (if b then 1 else 0))
    | _ => none
  regexError _ := none

/-- `{"always": True}`. -/
def alwaysSpec : PyValue := .dict [("always", .bool true)]

/-- `{"and": [{"always": True}] * n}`. -/
def alwaysList (n : Nat) : PyValue := .dict [("and", .list (List.replicate n alwaysSpec))]

/-- A leaf that always holds is accepted at any depth below the bound. -/
theorem parse_alwaysSpec {depth : Nat} (h : depth < maxPredicateDepth) :
    pyValues.parseFilterSpecDepth alwaysSpec depth = .ok (.always true) := by
  rw [parseFilterSpecDepth, dif_neg (by omega)]
  rfl

/-- Any number of such leaves is read one by one. -/
theorem parse_replicate {depth : Nat} (h : depth < maxPredicateDepth) (n : Nat) :
    List.Forall₂ (fun spec q => pyValues.parseFilterSpecDepth spec depth = .ok q)
      (List.replicate n alwaysSpec) (List.replicate n (.always true)) := by
  induction n with
  | zero => exact .nil
  | succ n ih => exact .cons (parse_alwaysSpec h) ih

/-- A list of such leaves is accepted, whatever its length. -/
theorem parse_alwaysList (n : Nat) :
    ∃ p, pyValues.parseFilterSpec (alwaysList (n + 1)) = .ok p := by
  rw [parseFilterSpec, parseFilterSpecDepth, dif_neg (by decide)]
  exact ⟨_, combineList_eq_ok.mpr ⟨List.replicate (n + 1) alwaysSpec, .always true,
    List.replicate n (.always true), rfl, parse_replicate (by decide) (n + 1), rfl⟩⟩

/-- The first leaf of the list ends up as deep as the list is long. -/
theorem leafDepth_alwaysList (n : Nat) : pyValues.LeafDepth (alwaysList (n + 1)) (n + 1) := by
  have hleaf : pyValues.LeafDepth alwaysSpec 1 := .leaf rfl rfl rfl rfl
  have hdict : pyValues.dict (alwaysList (n + 1)) =
      some [("and", .list (List.replicate (n + 1) alwaysSpec))] := rfl
  have hlist := LeafDepth.member hdict rfl rfl (List.getElem?_replicate_of_lt (Nat.succ_pos n)) hleaf
  have hplace : 1 + ((List.replicate (n + 1) alwaysSpec).length - max 0 1) = n + 1 := by
    rw [List.length_replicate]
    omega
  rw [hplace] at hlist
  exact hlist

end PyObjects

end Specs

section Examples

open PyObjects

attribute [local instance] integerPlatform

/-- Three leaves are within the bound: the list parses, and the tree is no deeper than the bound
says. -/
theorem PyObjects.depth_le_three :
    ∃ p, pyValues.parseFilterSpec (alwaysList 3) = .ok p ∧ p.depth ≤ maxPredicateDepth := by
  obtain ⟨p, hp⟩ := parse_alwaysList 2
  refine ⟨p, hp, (depth_le_iff hp).mpr fun n hn => ?_⟩
  have hdict : pyValues.dict (alwaysList 3) =
      some [("and", .list (List.replicate 3 alwaysSpec))] := rfl
  have hset := leafDepth_list hdict rfl rfl
  obtain ⟨i, member, m, hmember, hm, rfl⟩ := hset.le hn
  obtain rfl := List.eq_of_mem_replicate (List.mem_of_getElem? hmember)
  rw [(leafDepth_leaf rfl rfl rfl rfl m).mp hm, List.length_replicate]
  exact (Nat.add_le_add_left (Nat.sub_le 3 _) 1).trans (by decide)

/-- `{"and": [{"always": True}] * 129}` is accepted, and too deep. -/
theorem PyObjects.depth_exceeded :
    ¬ ∀ p, pyValues.parseFilterSpec (alwaysList 129) = .ok p → p.depth ≤ maxPredicateDepth := by
  intro h
  obtain ⟨p, hp⟩ := parse_alwaysList 128
  have hle := (isGreatest_depth hp).2 (leafDepth_alwaysList 128)
  have hbound := hle.trans (h p hp)
  exact absurd hbound (by decide)

end Examples

end Rypipe
