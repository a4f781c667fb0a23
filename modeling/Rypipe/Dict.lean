import Rypipe.Columnar.Variants

/-! # Dictionary unification

`dict.rs`: one dictionary for the dictionary columns of several chunks, with the table that
translates each chunk's codes. Dictionary values are kept as lists of strings. -/

namespace Rypipe

variable [Platform]

/-- `SeedDict`: the dictionary the unified one starts from. -/
structure SeedDict where
  values : List String
  index : StrMap Nat

/-- `SeedDict::new`: each value at its position. -/
def SeedDict.new (values : List String) : SeedDict :=
  ⟨values, values.zipIdx.foldl (fun index p => index.insert p.1 p.2) ∅⟩

/-- `RemapTable`: the new code of each local code. -/
structure RemapTable where
  map : List Nat
  isIdentity : Bool
  deriving DecidableEq, Repr

/-- `RemapTable::identity`. -/
def RemapTable.identity (len : Nat) : RemapTable := ⟨List.range len, true⟩

/-- `global_index` and the values it adds, while the overflow values are collected. -/
structure Overflow where
  index : StrMap Nat
  values : List String

/-- Take in one overflow value, unless it already has a code. -/
def Overflow.note (o : Overflow) (value : String) : Overflow :=
  if value ∈ o.index then o
  else ⟨o.index.insert value o.values.length, o.values ++ [value]⟩

/-- The dictionary values of a column; none if it is not a dictionary column. -/
def ColumnBuilder.dictValues : ColumnBuilder → Option (Interner String)
  | .dictionary _ dict => some dict
  | _ => none

/-- The overflow values: those at codes the seed does not have. -/
def collectOverflow (seed : SeedDict) (locals : List ColumnBuilder) : Overflow :=
  (locals.filterMap ColumnBuilder.dictValues).foldl
    (fun o dict => (dict.values.drop seed.values.length).foldl Overflow.note o)
    ⟨seed.index, seed.values⟩

/-- The remap table of one local dictionary: a value without a global or a local code keeps its
code. -/
def remapDict (index : StrMap Nat) (seedLen : Nat) (dict : Interner String) : RemapTable :=
  let entry (i : Nat) (value : String) : Nat × Bool :=
    match index.lookup value, dict.index.lookup value with
    | some g, some code => (g, g == code)
    | _, _ => (i, true)
  let entries := dict.values.mapIdx entry
  { map := entries.map Prod.fst
    isIdentity := entries.all Prod.snd && decide (dict.values.length ≤ seedLen) }

/-- `unify_dictionaries`: the unified values, and a remap table for each column. -/
def unifyDictionaries (seed : SeedDict) (locals : List ColumnBuilder) :
    List String × List RemapTable :=
  let overflow := collectOverflow seed locals
  (overflow.values,
    locals.map fun c =>
      match c.dictValues with
      | some dict => remapDict overflow.index seed.values.length dict
      | none => .identity 0)

namespace ColumnBuilder

/-- `remap_codes` on the codes of a dictionary column: a code beyond the map is kept. -/
def remapCodes (map : List Nat) : ColumnBuilder → ColumnBuilder
  | .dictionary codes dict =>
      .dictionary (codes.map fun code => code.map fun k => (map[k]?).getD k) dict
  | c => c

/-- `replace_dict`: replace the values and the index of a dictionary column. -/
def replaceDict (dict : Interner String) : ColumnBuilder → ColumnBuilder
  | .dictionary codes _ => .dictionary codes dict
  | c => c

end ColumnBuilder

end Rypipe
