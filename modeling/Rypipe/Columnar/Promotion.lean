import Rypipe.Columnar.ListModel
import Rypipe.Merge

/-! # What merging leaves of a column's cells

A merge may promote a column, to floats or to a dictionary, and append cells to it. Whatever its
outcome, the first cells of the column are still those it had, up to the promotion (`Retains`). -/

namespace Rypipe

section Promotion

variable [Platform]

/-- A cell in a column of type `ty`: integers are converted in a float column. -/
def widen (ty : FieldType) : TypedValue → TypedValue
  | .int64 i => if ty = .float64 then .float64 (intAsF64 i) else .int64 i
  | v => v

/-- The types a merge may give a column: `int64` widens to `float64`, strings are encoded, and the
format of a timestamp, which only its parser reads, may change. -/
inductive Promotes : FieldType → FieldType → Prop
  | refl (ty : FieldType) : Promotes ty ty
  | toFloat : Promotes .int64 .float64
  | encode : Promotes .string .dictionary
  | format (unit : TimeUnit) (f f' : Option String) :
      Promotes (.timestamp unit f) (.timestamp unit f')

omit [Platform] in
/-- Promotion is transitive. The only chains of two proper steps are changes of a timestamp's
format. -/
theorem Promotes.trans {ty ty' u : FieldType} (h : Promotes ty ty') (h' : Promotes ty' u) :
    Promotes ty u := by
  cases h with
  | refl => exact h'
  | toFloat =>
      cases h'
      exact .toFloat
  | encode =>
      cases h'
      exact .encode
  | format unit f f' =>
      cases h' with
      | refl => exact .format unit f f'
      | format _ _ f'' => exact .format unit f f''

/-- The cells of a column as those of a column of type `ty`. -/
def widenAll (ty : FieldType) (cells : List (Option TypedValue)) : List (Option TypedValue) :=
  cells.map fun cell => cell.map (widen ty)

@[simp] theorem widenAll_replicate (ty : FieldType) (n : Nat) :
    widenAll ty (List.replicate n none) = List.replicate n none := by
  simp [widenAll]

/-- A promotion after a promotion gives the value that the second one alone would: integers become
doubles once, and formats do not touch the value. -/
theorem widen_widen {ty ty' : FieldType} (h : Promotes ty ty') (v : TypedValue) :
    widen ty' (widen ty v) = widen ty' v := by
  cases v with
  | int64 i =>
      by_cases hty : ty = .float64
      · subst hty
        cases h
        simp [widen]
      · simp [widen, hty]
  | _ => rfl

/-- Widening twice is widening once, to the type reached in the end. -/
theorem widenAll_widenAll {ty ty' : FieldType} (h : Promotes ty ty')
    (cells : List (Option TypedValue)) : widenAll ty' (widenAll ty cells) = widenAll ty' cells := by
  rw [widenAll, widenAll, widenAll, List.map_map]
  refine List.map_congr_left fun cell _ => ?_
  rw [Function.comp_apply, Option.map_map]
  congr 1
  funext v
  exact widen_widen h v

namespace ColumnBuilder

/-- A column is not changed by its own type. -/
theorem widenAll_self (c : ColumnBuilder) : widenAll c.kind c.cells = c.cells := by
  cases c <;> simp [widenAll, cells, kind, widen, Function.comp_def]

/-- What a promotion leaves of a column, when it succeeds: a valid column of a wider type, with each
cell widened by itself. -/
theorem promoteToVariant_sound {c c' : ColumnBuilder} (hc : c.Valid) {target : String}
    (h : c.promoteToVariant target = .ok c') :
    c'.Valid ∧ Promotes c.kind c'.kind ∧ c'.cells = widenAll c'.kind c.cells := by
  unfold promoteToVariant at h
  split at h
  · cases h
    exact ⟨hc, .refl _, c.widenAll_self.symm⟩
  · cases c with
    | int64 v =>
        dsimp only at h
        split at h
        · cases h
          exact ⟨trivial, .toFloat, by simp [cells, kind, widenAll, widen, Function.comp_def]⟩
        · cases h
    | string v =>
        dsimp only at h
        split at h
        · cases h
          have hst := Stores.encodeStrings v
          refine ⟨hst.valid, hst.kind ▸ .encode, ?_⟩
          rw [hst.cells, hst.kind]
          simp [cells, widenAll, widen, Function.comp_def]
        · cases h
    | _ => cases h

/-- The later column has the first `n` cells of the earlier, up to a safe promotion. -/
structure Retains (n : Nat) (c c' : ColumnBuilder) : Prop where
  valid : c'.Valid
  kind : Promotes c.kind c'.kind
  tall : n ≤ c'.len
  cells : c'.cells.take n = widenAll c'.kind (c.cells.take n)

section Retains

variable {n : Nat} {c c' c'' d : ColumnBuilder}

/-- More cells of the same type. -/
theorem Stores.retains {more : List (Option TypedValue)} (hlen : n ≤ c.len)
    (h : c'.Stores c.kind (c.cells ++ more)) : c.Retains n c' := by
  have hcells := length_cells c
  refine ⟨h.valid, h.kind ▸ .refl _, ?_, ?_⟩
  · rw [h.len_eq, List.length_append]
    omega
  · rw [h.cells, List.take_append_of_le_length (by omega), h.kind, widenAll, List.map_take,
      ← widenAll, widenAll_self]

/-- A valid column that is long enough retains its first cells. -/
theorem Retains.refl (hc : c.Valid) (hlen : n ≤ c.len) : c.Retains n c := by
  have hself := stores_self hc
  rw [← List.append_nil c.cells] at hself
  exact hself.retains hlen

/-- What two steps retain, both retain. -/
theorem Retains.trans (h : c.Retains n c') (h' : c'.Retains n c'') : c.Retains n c'' := by
  refine ⟨h'.valid, h.kind.trans h'.kind, h'.tall, ?_⟩
  rw [h'.cells, h.cells, widenAll_widenAll h'.kind]

/-- Promoting a column keeps its cells, up to the promotion. -/
theorem retains_promoteToVariant (hc : c.Valid) (hlen : n ≤ c.len) {target : String}
    (hok : c.promoteToVariant target = .ok c') : c.Retains n c' := by
  obtain ⟨hvalid, hkind, hcells⟩ := promoteToVariant_sound hc hok
  refine ⟨hvalid, hkind, ?_, ?_⟩
  · rw [← length_cells, hcells, widenAll, List.length_map, length_cells]
    exact hlen
  · rw [hcells, widenAll, widenAll, List.map_take]

/-- Null cells are appended. -/
theorem retains_pushNulls (hc : c.Valid) (hlen : n ≤ c.len) (rows : Nat) :
    c.Retains n (c.pushNulls rows) :=
  ((stores_self hc).pushNulls rows).retains hlen

end Retains

end ColumnBuilder

namespace TableBuilder

open ColumnBuilder

variable {n : Nat} {c d : ColumnBuilder}

/-- **Whatever the outcome of a merge, the column keeps its first cells**, up to a promotion. -/
theorem retains_mergeColumn (name : String) (hc : c.Valid) (hd : d.Valid) (hlen : n ≤ c.len) :
    c.Retains n (mergeColumn name c d).1 := by
  have happend : ∀ {c' d' e : ColumnBuilder}, c.Retains n c' → d'.Valid →
      c'.extendOwned d' = .ok e → c.Retains n e := fun hc' hd' hok =>
    hc'.trans ((stores_extendOwned hc'.valid hd' hok).retains hc'.tall)
  have hself := Retains.refl hc hlen
  rw [mergeColumn]
  by_cases hkey : c.variantKey = d.variantKey
  · rw [if_pos hkey]
    dsimp only
    cases hextend : c.extendOwned d with
    | error err => exact hself
    | ok e => exact happend hself hd hextend
  · rw [if_neg hkey]
    cases hunify : unifyVariants c.variantKey d.variantKey with
    | none => exact hself
    | some target =>
        cases hpromote : c.promoteToVariant target with
        | error err => simpa [bind, Except.bind, hpromote] using hself
        | ok c' =>
            have hc' := retains_promoteToVariant hc hlen hpromote
            cases hother : d.promoteToVariant target with
            | error err => simpa [bind, Except.bind, hpromote, hother] using hc'
            | ok d' =>
                have hd' := (promoteToVariant_sound hd hother).1
                cases hextend : c'.extendOwned d' with
                | error err => simpa [bind, Except.bind, hpromote, hother, hextend] using hc'
                | ok e =>
                    simpa [bind, Except.bind, hpromote, hother, hextend] using
                      happend hc' hd' hextend

end TableBuilder

end Promotion

end Rypipe
