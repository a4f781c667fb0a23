import Rypipe.DictUnify

/-! # Remap tables

What `unify_dictionaries` gives for a seed of distinct values and any dictionary columns. The
unified dictionary is the seed's interner with the collected overflow values interned into it, so
it is always well formed and extends the seed. A code is lost only at a position below the seed's
length, where a value is looked up but never collected. -/

namespace Rypipe

/-- The seed as an interner. -/
def SeedDict.interner (seed : SeedDict) : Interner String := ⟨seed.values, seed.index⟩

/-- The collected overflow as an interner. -/
def Overflow.interner (o : Overflow) : Interner String := ⟨o.values, o.index⟩

/-- Taking in an overflow value interns it. -/
theorem Overflow.interner_note (o : Overflow) (value : String) :
    (o.note value).interner = (o.interner.intern value).2 := by
  rw [Overflow.note]
  by_cases h : value ∈ o.index
  · obtain ⟨k, hk⟩ := Option.isSome_iff_exists.mp (AList.lookup_isSome.mpr h)
    rw [if_pos h, Interner.intern_of_lookup (d := o.interner) hk]
  · rw [if_neg h, Interner.intern_of_lookup_none (d := o.interner) (AList.lookup_eq_none.mpr h)]
    rfl

/-- Taking in overflow values interns them. -/
theorem Overflow.interner_foldl_note (o : Overflow) (values : List String) :
    (values.foldl Overflow.note o).interner = (o.interner.internAll values).2 := by
  induction values generalizing o with
  | nil => rfl
  | cons v values ih =>
      rw [List.foldl_cons, ih, Overflow.interner_note]
      rfl

section Locals

variable [Platform]

/-- The dictionaries of the columns, in order. -/
def dictionaries (locals : List ColumnBuilder) : List (Interner String) :=
  locals.filterMap ColumnBuilder.dictValues

/-- The unified dictionary interns the overflow values after the seed. -/
theorem interner_collectOverflow (seed : SeedDict) (locals : List ColumnBuilder) :
    (collectOverflow seed locals).interner =
      (seed.interner.internAll
        ((dictionaries locals).flatMap fun d => d.values.drop seed.values.length)).2 := by
  rw [collectOverflow, ← List.foldl_flatMap, Overflow.interner_foldl_note]
  rfl

omit [Platform] in
/-- `SeedDict::new` interns distinct values: their codes are their positions. -/
theorem SeedDict.interner_new {values : List String} (h : values.Nodup) :
    (SeedDict.new values).interner = (Interner.empty.internAll values).2 := by
  induction values using List.reverseRecOn with
  | nil => rfl
  | append_singleton values v ih =>
      have hfirst : values.Nodup := h.of_append_left
      have hnew : v ∉ values := fun hv =>
        (List.nodup_append.mp h).2.2 v hv v (List.mem_singleton_self v) rfl
      specialize ih hfirst
      have hwf : (SeedDict.new values).interner.WF :=
        ih ▸ Interner.internAll_wf Interner.empty_wf values
      rw [Interner.internAll_append, ← ih]
      show _ = ((SeedDict.new values).interner.intern v).2
      rw [Interner.intern_of_lookup_none ((hwf.lookup_eq_none v).mpr hnew), SeedDict.new,
        SeedDict.interner, List.zipIdx_append, List.foldl_append]
      simp [SeedDict.interner, SeedDict.new]

omit [Platform] in
/-- A seed built from distinct values is well formed. -/
theorem SeedDict.interner_new_wf {values : List String} (h : values.Nodup) :
    (SeedDict.new values).interner.WF :=
  SeedDict.interner_new h ▸ Interner.internAll_wf Interner.empty_wf values

/-- A remap table carries the codes of `own` over to the values `unified`. -/
structure RemapTable.Correct (remap : RemapTable) (unified : List String) (own : Interner String) :
    Prop where
  /-- Every code reads the same through the unified values. -/
  reads : ∀ c < own.values.length,
    (remap.map[c]?).bind (fun g => unified[g]?) = own.values[c]?
  /-- A table flagged as the identity is the identity. -/
  identity : remap.isIdentity = true → ∀ c < own.values.length, remap.map[c]? = some c

/-- What unifying the dictionaries is for: distinct values, the seed's first, and a correct remap
table for every local dictionary. -/
structure Unifies (seed : SeedDict) (locals : List ColumnBuilder) : Prop where
  distinct : (unifyDictionaries seed locals).1.Nodup
  seeded : seed.values <+: (unifyDictionaries seed locals).1
  remaps : ∀ (i : Nat) (codes : List (Option Nat)) (own : Interner String),
    locals[i]? = some (.dictionary codes own) → ∃ remap : RemapTable,
      (unifyDictionaries seed locals).2[i]? = some remap ∧
        remap.Correct (unifyDictionaries seed locals).1 own

/-- Every value a local dictionary has below the seed's length is the seed's, or some local
dictionary has it beyond. -/
def Collected (seed : List String) (locals : List ColumnBuilder) : Prop :=
  ∀ own ∈ dictionaries locals, ∀ v ∈ own.values.take seed.length,
    v ∈ seed ∨ ∃ other ∈ dictionaries locals, v ∈ other.values.drop seed.length

section Unified

variable {values : List String} (hvalues : values.Nodup) {locals : List ColumnBuilder}

include hvalues

theorem wf_collectOverflow : (collectOverflow (.new values) locals).interner.WF := by
  rw [interner_collectOverflow]
  exact Interner.internAll_wf (SeedDict.interner_new_wf hvalues) _

/-- The unified values. -/
theorem mem_collectOverflow (v : String) :
    v ∈ (collectOverflow (.new values) locals).values ↔
      v ∈ values ∨ ∃ other ∈ dictionaries locals, v ∈ other.values.drop values.length := by
  show v ∈ (collectOverflow (.new values) locals).interner.values ↔ _
  rw [interner_collectOverflow, Interner.mem_values_internAll (SeedDict.interner_new_wf hvalues),
    List.mem_flatMap]
  rfl

omit hvalues in
theorem prefix_collectOverflow :
    values <+: (collectOverflow (.new values) locals).values := by
  show _ <+: (collectOverflow (.new values) locals).interner.values
  rw [interner_collectOverflow]
  exact Interner.prefix_internAll (SeedDict.new values).interner _

omit hvalues in
/-- The entry of a remap table: the unified code of a value that has one, the local code of one
that does not. -/
theorem getElem?_remapDict {own : Interner String} (hown : own.WF) {c : Nat} {v : String}
    (hc : own.values[c]? = some v) (seedLen : Nat) :
    (remapDict (collectOverflow (.new values) locals).index seedLen own).map[c]? =
      some (((collectOverflow (.new values) locals).index.lookup v).getD c) := by
  have hcode := (hown v c).mpr hc
  rw [remapDict, List.getElem?_map, List.getElem?_mapIdx, hc, Option.map_some, Option.map_some]
  cases hg : (collectOverflow (.new values) locals).index.lookup v with
  | none => simp
  | some g => simp [hcode]

/-- A code reads the same exactly when its value is a unified one. -/
theorem reads_remapDict_iff {own : Interner String} (hown : own.WF) {c : Nat} {v : String}
    (hc : own.values[c]? = some v) :
    ((remapDict (collectOverflow (.new values) locals).index values.length own).map[c]?).bind
        (fun g => (collectOverflow (.new values) locals).values[g]?) = own.values[c]? ↔
      v ∈ (collectOverflow (.new values) locals).values := by
  have hwf : (collectOverflow (.new values) locals).interner.WF := wf_collectOverflow hvalues
  rw [getElem?_remapDict hown hc, Option.bind_some, hc]
  cases hg : (collectOverflow (.new values) locals).index.lookup v with
  | some g =>
      have hread := (hwf v g).mp hg
      exact iff_of_true hread (List.mem_of_getElem? hread)
  | none =>
      have hnot : v ∉ (collectOverflow (.new values) locals).values :=
        (hwf.lookup_eq_none v).mp hg
      refine ⟨List.mem_of_getElem?, fun hin => absurd hin hnot⟩

omit hvalues in
/-- A table flagged as the identity maps every code to itself. The flag is kept while each value is
found at its own position. -/
theorem identity_remapDict {own : Interner String} (hown : own.WF) (seedLen : Nat)
    (hflag : (remapDict (collectOverflow (.new values) locals).index seedLen own).isIdentity = true)
    (c : Nat) (hc : c < own.values.length) :
    (remapDict (collectOverflow (.new values) locals).index seedLen own).map[c]? = some c := by
  have hv := List.getElem?_eq_getElem hc
  generalize own.values[c] = v at hv
  have hcode := (hown v c).mpr hv
  rw [getElem?_remapDict hown hv]
  rw [remapDict, Bool.and_eq_true, List.all_eq_true] at hflag
  have hentry := hflag.1 _ (List.mem_of_getElem? (i := c)
    (by rw [List.getElem?_mapIdx, hv, Option.map_some]))
  cases hg : (collectOverflow (.new values) locals).index.lookup v with
  | none => rfl
  | some g =>
      simp only [hg, hcode, beq_iff_eq] at hentry
      exact congrArg some hentry

/-- **Unifying dictionaries.** For a seed of distinct values the unified dictionary and the remap
tables are right exactly when every value a local dictionary has below the seed's length is
collected all the same. -/
theorem unifies_iff
    (hlocals : ∀ codes own, ColumnBuilder.dictionary codes own ∈ locals → own.WF) :
    Unifies (.new values) locals ↔ Collected values locals := by
  have hwf : (collectOverflow (.new values) locals).interner.WF := wf_collectOverflow hvalues
  have hremap : ∀ (i : Nat) (codes : List (Option Nat)) (own : Interner String),
      locals[i]? = some (ColumnBuilder.dictionary codes own) →
      (unifyDictionaries (.new values) locals).2[i]? =
        some (remapDict (collectOverflow (.new values) locals).index values.length own) := by
    intro i codes own hi
    rw [unifyDictionaries, List.getElem?_map, hi]
    rfl
  have hown : ∀ own ∈ dictionaries locals, ∃ (i : Nat) (codes : List (Option Nat)),
      locals[i]? = some (ColumnBuilder.dictionary codes own) := by
    intro own hown
    obtain ⟨c, hc, hcdict⟩ := List.mem_filterMap.mp hown
    obtain ⟨i, hi⟩ := List.mem_iff_getElem?.mp hc
    cases c with
    | dictionary codes dict => exact ⟨i, codes, Option.some.inj hcdict ▸ hi⟩
    | _ => cases hcdict
  constructor
  · intro h own hmem v hv
    obtain ⟨i, codes, hi⟩ := hown own hmem
    obtain ⟨c, hc⟩ := List.mem_iff_getElem?.mp (List.mem_of_mem_take hv)
    obtain ⟨remap, hat, hcorrect⟩ := h.remaps i codes own hi
    obtain rfl := Option.some.inj ((hremap i codes own hi).symm.trans hat)
    have hreads := hcorrect.reads c (List.getElem?_eq_some_iff.mp hc).1
    rw [← mem_collectOverflow hvalues]
    exact (reads_remapDict_iff hvalues (hlocals codes own (List.mem_of_getElem? hi)) hc).mp
      hreads
  · intro h
    refine ⟨hwf.nodup, prefix_collectOverflow, fun i codes own hi => ?_⟩
    have hownwf := hlocals codes own (List.mem_of_getElem? hi)
    have hmem : own ∈ dictionaries locals :=
      List.mem_filterMap.mpr ⟨_, List.mem_of_getElem? hi, rfl⟩
    refine ⟨_, hremap i codes own hi, fun c hc => ?_, identity_remapDict hownwf _⟩
    have hc' := List.getElem?_eq_getElem hc
    generalize own.values[c] = v at hc'
    refine (reads_remapDict_iff hvalues hownwf hc').mpr
      ((mem_collectOverflow hvalues v).mpr ?_)
    -- a value beyond the seed's length is collected by the loop itself
    rw [← List.take_append_drop values.length own.values] at hc'
    rcases List.mem_append.mp (List.mem_of_getElem? hc') with hv | hv
    · exact h own hmem v hv
    · exact .inr ⟨own, hmem, hv⟩

end Unified

end Locals

section Examples

attribute [local instance] integerPlatform

/-- The dictionary column of some values, each pushed once. -/
def dictColumn (values : List String) : ColumnBuilder :=
  .dictionary ((List.range values.length).map some) (Interner.empty.internAll values).2

theorem wf_of_mem_dictColumns {columns : List (List String)} {codes : List (Option Nat)}
    {own : Interner String} (h : ColumnBuilder.dictionary codes own ∈ columns.map dictColumn) :
    own.WF := by
  obtain ⟨values, -, heq⟩ := List.mem_map.mp h
  injection heq with _ hown
  exact hown ▸ Interner.internAll_wf Interner.empty_wf values

/-- A local dictionary that repeats the seed in another order, and one that extends it. -/
theorem unifies_reordered :
    Unifies (.new ["a", "b"]) ([["b", "a"], ["a", "b", "c"]].map dictColumn) ↔
      Collected ["a", "b"] ([["b", "a"], ["a", "b", "c"]].map dictColumn) :=
  unifies_iff (by decide) fun _ _ h => wf_of_mem_dictColumns h

/-- The value `"b"` is at a position the seed has, so it is not collected, and its code then reads
as the seed's value. -/
theorem unifies_falls :
    ¬ ∀ (values : List String) (locals : List ColumnBuilder), values.Nodup →
      (∀ codes own, ColumnBuilder.dictionary codes own ∈ locals → own.WF) →
        Unifies (.new values) locals := by
  intro h
  have hunifies := h ["a"] ([["b"]].map dictColumn) (by decide) fun _ _ h => wf_of_mem_dictColumns h
  obtain ⟨remap, hat, hcorrect⟩ := hunifies.remaps 0 _ _ rfl
  obtain rfl := Option.some.inj hat
  exact absurd (hcorrect.reads 0 (by decide)) (by decide)

end Examples

end Rypipe
