import Rypipe.Engine.TableBuilder

/-! # Storage variants across builders

The reconciliation of columns that come from different builders (`columnar.rs`): the key of a
column's storage variant, dictionary encoding and the other safe promotions between variants, and
appending one column to another. -/

namespace Rypipe

variable [Platform]

/-- Every string `variant_key` is said to produce (`VARIANT_KEYS`). -/
def variantKeys : List String :=
  ["string", "int64", "float64", "boolean", "date32", "timestamp[s]", "timestamp[ms]",
    "timestamp[us]", "timestamp[ns]", "dictionary"]

/-- `unify_variants`: the common variant of two keys, if they can be reconciled. -/
def unifyVariants (a b : String) : Option String :=
  if a = b then variantKeys.find? (· == a)
  else if (a, b) = ("int64", "float64") ∨ (a, b) = ("float64", "int64") then some "float64"
  else if (a, b) = ("string", "dictionary") ∨ (a, b) = ("dictionary", "string") then
    some "dictionary"
  else none

namespace ColumnBuilder

/-- `variant_key`. -/
def variantKey : ColumnBuilder → String
  | .string _ => "string"
  | .int64 _ => "int64"
  | .float64 _ => "float64"
  | .boolean _ => "boolean"
  | .date32 _ => "date32"
  | .timestamp unit _ _ =>
      match unit with
      | .second => "timestamp[s]"
      | .millisecond => "timestamp[ms]"
      | .microsecond => "timestamp[us]"
      | .nanosecond => "timestamp[ns]"
  | .decimal128 scale _ =>
      match scale with
      | 0 => "decimal128(0)"
      | 2 => "decimal128(2)"
      | 4 => "decimal128(4)"
      | 8 => "decimal128(8)"
      | 10 => "decimal128(10)"
      | 18 => "decimal128(18)"
      | _ => "decimal128"
  | .dictionary _ _ => "dictionary"

/-- A string column dictionary-encoded from scratch. -/
def encodeStrings (v : List (Option String)) : ColumnBuilder :=
  let (codes, dict) := (Interner.empty).internOpts v
  .dictionary codes dict

/-- `try_upgrade_to_dict`: encode a string column of few distinct values. -/
def tryUpgradeToDict (minRows : Nat) (maxRatio : F64) (maxSize : Nat) :
    ColumnBuilder → ColumnBuilder
  | .string v =>
      if v.length < minRows then .string v
      else
        let seen := (v.filterMap id).dedup
        let ratioCap :=
          max (Platform.f64AsUsize (Platform.mul (intAsF64 v.length) maxRatio)) 16
        if min ratioCap maxSize < seen.length then .string v
        else encodeStrings v
  | c => c

/-- `promote_to_variant`: convert the column to the variant of the key `target`. -/
def promoteToVariant (c : ColumnBuilder) (target : String) : Except Error ColumnBuilder :=
  let refused : Error := .merge ("cannot promote column to unified variant '" ++ target ++ "'")
  if c.variantKey = target then .ok c
  else
    match c with
    | .int64 v =>
        if target = "float64" then .ok (.float64 (v.map (·.map intAsF64))) else .error refused
    | .string v => if target = "dictionary" then .ok (encodeStrings v) else .error refused
    | _ => .error refused

/-- `{unit:?}`. -/
def debugTimeUnit : TimeUnit → String
  | .second => "Second"
  | .millisecond => "Millisecond"
  | .microsecond => "Microsecond"
  | .nanosecond => "Nanosecond"

/-- `extend_owned`: append the cells of a column of the same variant. -/
def extendOwned (a b : ColumnBuilder) : Except Error ColumnBuilder :=
  match a, b with
  | .string v, .string w => .ok (.string (v ++ w))
  | .int64 v, .int64 w => .ok (.int64 (v ++ w))
  | .float64 v, .float64 w => .ok (.float64 (v ++ w))
  | .boolean v, .boolean w => .ok (.boolean (v ++ w))
  | .date32 v, .date32 w => .ok (.date32 (v ++ w))
  | .timestamp ua format v, .timestamp ub _ w =>
      if ua = ub then .ok (.timestamp ua format (v ++ w))
      else .error (.merge ("extend_owned: timestamp unit mismatch (" ++ debugTimeUnit ua ++
        " vs " ++ debugTimeUnit ub ++ ")"))
  | .decimal128 sa v, .decimal128 sb w =>
      if sa = sb then .ok (.decimal128 sa (v ++ w))
      else .error (.merge ("extend_owned: decimal128 scale mismatch (" ++ toString sa ++ " vs " ++
        toString sb ++ ")"))
  | .dictionary codesA dictA, .dictionary codesB dictB =>
      if codesA.isEmpty then .ok (.dictionary codesB dictB)
      else
        -- intern the other dictionary once, then translate its codes
        let (remap, dict) := dictA.internAll dictB.values
        .ok (.dictionary (codesA ++ codesB.map (Interner.translate remap)) dict)
  | _, _ => .error (.merge "extend_owned: column type mismatch across chunks")

namespace Stores

variable {c d : ColumnBuilder} {ty : FieldType} {cs ds : List (Option TypedValue)}

/-- Encoding keeps every cell. -/
theorem encodeStrings (v : List (Option String)) :
    (encodeStrings v).Stores .dictionary (v.map (·.map .str)) := by
  obtain ⟨hdec, hcov⟩ := Interner.decodeAll_internOpts Interner.empty_wf v
  refine ⟨⟨Interner.internOpts_wf Interner.empty_wf v, hcov⟩, rfl, ?_⟩
  simp only [ColumnBuilder.encodeStrings, ColumnBuilder.cells]
  rw [hdec]

/-- The automatic upgrade keeps every cell, and only turns strings into a dictionary. -/
theorem tryUpgradeToDict (h : c.Stores ty cs) (minRows : Nat) (maxRatio : F64) (maxSize : Nat) :
    (c.tryUpgradeToDict minRows maxRatio maxSize).Stores ty cs ∨
      (ty = .string ∧ (c.tryUpgradeToDict minRows maxRatio maxSize).Stores .dictionary cs) := by
  obtain ⟨hc, rfl, rfl⟩ := h
  cases c with
  | string v =>
      simp only [ColumnBuilder.tryUpgradeToDict]
      split
      · exact Or.inl ⟨trivial, rfl, rfl⟩
      · split
        · exact Or.inl ⟨trivial, rfl, rfl⟩
        · exact Or.inr ⟨rfl, encodeStrings v⟩
  | _ => exact Or.inl ⟨hc, rfl, rfl⟩

/-- Appending a column of the same type appends its cells. All variants append their vectors; a
dictionary interns the values of the other one and translates its codes, or takes it over if it is
empty itself. -/
theorem extendOwned (h : c.Stores ty cs) (h' : d.Stores ty ds) :
    ∃ e, c.extendOwned d = .ok e ∧ e.Stores ty (cs ++ ds) := by
  obtain ⟨hc, rfl, rfl⟩ := h
  obtain ⟨hd, hkind, rfl⟩ := h'
  cases c with
  | dictionary codesA dictA =>
      cases d with
      | dictionary codesB dictB =>
          obtain ⟨hwfA, hcovA⟩ := hc
          obtain ⟨hwfB, hcovB⟩ := hd
          simp only [ColumnBuilder.extendOwned]
          split
          -- an empty column takes the other one over as it is
          · next hempty =>
            rw [List.isEmpty_iff] at hempty
            subst hempty
            exact ⟨_, rfl, ⟨hwfB, hcovB⟩, rfl, rfl⟩
          -- otherwise the values are interned and the codes translated
          · have hpre := Interner.prefix_internAll dictA dictB.values
            refine ⟨_, rfl, ⟨Interner.internAll_wf hwfA _, ?_⟩, rfl, ?_⟩
            · exact (hcovA.extend hpre).append (Interner.covers_translate hwfA codesB)
            · simp only [ColumnBuilder.cells, Interner.decodeAll, List.map_append]
              rw [← Interner.decodeAll, ← Interner.decodeAll, Interner.decodeAll_extend hpre hcovA,
                Interner.decodeAll_translate hwfA hcovB]
              rfl
      | _ => cases hkind
  | timestamp ua fa v =>
      cases d with
      | timestamp ub fb w =>
          obtain ⟨rfl, rfl⟩ := FieldType.timestamp.inj hkind
          exact ⟨_, if_pos rfl, trivial, rfl, List.map_append⟩
      | _ => cases hkind
  | decimal128 sa v =>
      cases d with
      | decimal128 sb w =>
          obtain rfl := FieldType.decimal128.inj hkind
          exact ⟨_, if_pos rfl, trivial, rfl, List.map_append⟩
      | _ => cases hkind
  | _ =>
      cases d with
      | _ => first | exact ⟨_, rfl, trivial, rfl, List.map_append⟩ | cases hkind

end Stores

end ColumnBuilder

end Rypipe
