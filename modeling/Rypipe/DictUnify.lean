import Rypipe.Engine.Runs
import Rypipe.Parallel

/-! # The automatic dictionary block

What the auto-dict block of the parallel executor does to the cells of the chunks. The per-chunk
upgrade keeps them. The unification of a dictionary column keeps them exactly when every code that
is used reads the same through the unified values; `KeepsCode` says when, in terms of the chunks' own
dictionaries alone: which values they have beyond the length of the seed, and in which order. -/

namespace Rypipe

/-- The values beyond the seed's codes, each once in order of appearance. -/
def overflowValues (seedLen : Nat) (dicts : List (Interner String)) : Interner String :=
  (Interner.empty.internAll (dicts.flatMap fun d => d.values.drop seedLen)).2

theorem overflowValues_wf (seedLen : Nat) (dicts : List (Interner String)) :
    (overflowValues seedLen dicts).WF := Interner.internAll_wf Interner.empty_wf _

/-- The collected overflow `o` is the interner `d` with its codes after those of the seed. -/
structure Overflow.Above (seed : List String) (o : Overflow) (d : Interner String) : Prop where
  values : o.values = seed ++ d.values
  index : ∀ v, o.index.lookup v = (d.index.lookup v).map (seed.length + ·)

namespace Overflow.Above

variable {seed : List String} {o : Overflow} {d : Interner String}

/-- Taking in one overflow value interns it: a value that was collected before keeps its code, and a
new one comes after the seed and the others. -/
theorem note (h : o.Above seed d) (v : String) : (o.note v).Above seed (d.intern v).2 := by
  cases hlook : d.index.lookup v with
  | some k =>
      have hmem : v ∈ o.index := by
        rw [← AList.lookup_isSome, h.index, hlook]
        rfl
      rw [Overflow.note, if_pos hmem, Interner.intern_of_lookup hlook]
      exact h
  | none =>
      have hnot : v ∉ o.index := by
        rw [← AList.lookup_eq_none, h.index, hlook]
        rfl
      rw [Overflow.note, if_neg hnot, Interner.intern_of_lookup_none hlook]
      refine ⟨by rw [h.values, List.append_assoc], fun w => ?_⟩
      by_cases hw : w = v
      · subst hw
        rw [AList.lookup_insert, AList.lookup_insert, h.values, List.length_append]
        rfl
      · rw [AList.lookup_insert_ne hw, AList.lookup_insert_ne hw, h.index]

/-- Taking in a list of overflow values interns them. -/
theorem foldl_note (h : o.Above seed d) (vs : List String) :
    (vs.foldl Overflow.note o).Above seed (d.internAll vs).2 := by
  induction vs generalizing o d with
  | nil => exact h
  | cons v vs ih => exact ih (h.note v)

end Overflow.Above

section Chunks

variable [Platform]

namespace TableBuilder

/-- Valid columns in distinct slots. -/
structure Coherent (b : TableBuilder) : Prop where
  valid : ∀ c ∈ b.columns, c.Valid
  slots : ∀ (m n : String) (i : Nat),
    b.fieldIndex.lookup m = some i → b.fieldIndex.lookup n = some i → m = n

/-- A builder that describes a table is coherent: valid columns, and an index that gives each name a
column of its own. -/
theorem Sound.coherent {b : TableBuilder} {t : Table} {cur : CurrentRow} (h : b.Sound t cur) :
    b.Coherent where
  valid c hc := by
    obtain ⟨i, hi, rfl⟩ := List.getElem_of_mem hc
    have hlt : i < t.cols.length := by rw [← h.holds.size]; exact hi
    obtain ⟨c', hc', hst⟩ := h.holds.stored i _ (List.getElem?_eq_getElem hlt)
    rw [List.getElem?_eq_getElem hi, Option.some.injEq] at hc'
    exact hc' ▸ hst.valid
  slots m n i hm hn := by
    rw [h.holds.indexed] at hm hn
    exact Option.some.inj (hm.symm.trans hn)

/-- The cells of a column. -/
def cellsOf (b : TableBuilder) (name : String) : Option (List (Option TypedValue)) :=
  (b.getColumn name).map (·.cells)

theorem Coherent.getColumn {b : TableBuilder} (h : b.Coherent) {name : String} {c : ColumnBuilder}
    (hc : b.getColumn name = some c) : c.Valid := by
  obtain ⟨i, -, hi⟩ := Option.bind_eq_some_iff.mp hc
  exact h.valid c (List.mem_of_getElem? hi)

/-- Replacing a column is seen under its own name only, since no other name has its slot. -/
theorem Coherent.cellsOf_setColumn {b : TableBuilder} (h : b.Coherent) {name : String}
    {c : ColumnBuilder} (hc : b.getColumn name = some c) (c' : ColumnBuilder) :
    (b.setColumn name c').cellsOf = Function.update b.cellsOf name (some c'.cells) := by
  obtain ⟨i, hlook, hi⟩ := Option.bind_eq_some_iff.mp hc
  have hlt : i < b.columns.length := (List.getElem?_eq_some_iff.mp hi).1
  funext n
  rw [setColumn, hlook, cellsOf]
  by_cases hn : n = name
  · subst hn
    rw [Function.update_self, TableBuilder.getColumn, hlook, Option.bind_some,
      List.getElem?_set_self hlt, Option.map_some]
  · rw [Function.update_of_ne hn, cellsOf, TableBuilder.getColumn, TableBuilder.getColumn]
    cases hj : b.fieldIndex.lookup n with
    | none => rfl
    | some j =>
        have hij : i ≠ j := by
          rintro rfl
          exact hn (h.slots n name i hj hlook)
        rw [Option.bind_some, Option.bind_some, List.getElem?_set_ne hij]

/-- The automatic upgrade keeps the builder coherent: it maps every column to a valid one and leaves
the index. -/
theorem Coherent.autoDictUpgrade {b : TableBuilder} (h : b.Coherent) :
    b.autoDictUpgrade.Coherent := by
  rw [TableBuilder.autoDictUpgrade]
  split
  · refine ⟨fun c hc => ?_, h.slots⟩
    obtain ⟨c₀, hc₀, rfl⟩ := List.mem_map.mp hc
    rcases (ColumnBuilder.stores_self (h.valid c₀ hc₀)).tryUpgradeToDict 512 _ _ with hst | ⟨-, hst⟩
    · exact hst.valid
    · exact hst.valid
  · exact h

/-- The automatic upgrade keeps every cell: a text is encoded and its code reads as the text. -/
theorem Coherent.cellsOf_autoDictUpgrade {b : TableBuilder} (h : b.Coherent) :
    b.autoDictUpgrade.cellsOf = b.cellsOf := by
  rw [TableBuilder.autoDictUpgrade]
  split
  · funext name
    rw [cellsOf, cellsOf, TableBuilder.getColumn, TableBuilder.getColumn]
    cases b.fieldIndex.lookup name with
    | none => rfl
    | some i =>
        rw [Option.bind_some, Option.bind_some, List.getElem?_map, Option.map_map]
        cases hi : b.columns[i]? with
        | none => rfl
        | some c =>
            have hst := ColumnBuilder.stores_self (h.valid c (List.mem_of_getElem? hi))
            rcases hst.tryUpgradeToDict 512 _ _ with hst' | ⟨-, hst'⟩
            · rw [Option.map_some, Option.map_some, Function.comp_apply, hst'.cells]
            · rw [Option.map_some, Option.map_some, Function.comp_apply, hst'.cells]
  · rfl

end TableBuilder

/-- What `collect_overflow` collects: the values that some local dictionary has at a code the seed
does not reach, each once and in the order in which they are met. -/
theorem collectOverflow_above (seed : List String) (locals : List ColumnBuilder) :
    (collectOverflow ⟨seed, ∅⟩ locals).Above seed
      (overflowValues seed.length (locals.filterMap ColumnBuilder.dictValues)) := by
  have hstart : (Overflow.mk ∅ seed).Above seed .empty :=
    ⟨by simp [Interner.empty], fun v => by simp [Interner.empty]⟩
  have hfold : (locals.filterMap ColumnBuilder.dictValues).foldl
      (fun o dict => (dict.values.drop seed.length).foldl Overflow.note o) ⟨∅, seed⟩ =
      ((locals.filterMap ColumnBuilder.dictValues).flatMap
        fun d => d.values.drop seed.length).foldl Overflow.note ⟨∅, seed⟩ := by
    rw [List.foldl_flatMap]
  rw [collectOverflow, overflowValues]
  exact hfold ▸ hstart.foldl_note _

/-- A value of a valid dictionary has a code exactly when it is an overflow value, the codes of the
overflow values coming after those of the seed. -/
theorem lookup_collectOverflow (seed : List String) (locals : List ColumnBuilder) (v : String) :
    (∀ g, (collectOverflow ⟨seed, ∅⟩ locals).index.lookup v = some g →
      (collectOverflow ⟨seed, ∅⟩ locals).values[g]? = some v) ∧
    ((collectOverflow ⟨seed, ∅⟩ locals).index.lookup v = none ↔
      v ∉ (overflowValues seed.length (locals.filterMap ColumnBuilder.dictValues)).values) := by
  have h := collectOverflow_above seed locals
  have hwf := overflowValues_wf seed.length (locals.filterMap ColumnBuilder.dictValues)
  constructor
  · intro g hg
    rw [h.index, Option.map_eq_some_iff] at hg
    obtain ⟨k, hk, rfl⟩ := hg
    rw [h.values, List.getElem?_append_right (Nat.le_add_right _ _), Nat.add_sub_cancel_left]
    exact (hwf v k).mp hk
  · rw [h.index, Option.map_eq_none_iff, Option.eq_none_iff_forall_ne_some, List.mem_iff_getElem?,
      not_exists]
    exact forall_congr' fun k => not_congr (hwf v k)

/-- The values that dictionaries have beyond the seed's length, dictionary by dictionary. -/
def valuesBeyond (seed : List String) (dicts : List (Interner String)) : List String :=
  dicts.flatMap fun d => d.values.drop seed.length

/-- A code that is used keeps its value, when it is translated by the table of the dictionary `table`.
Either `table` has a value there that some dictionary has beyond the seed's length, and it is the chunk's
own; or a value that none has, and the seed has the chunk's own value there; or `table` is too short, and
the seed has the chunk's own value there, or the code and the value have the same place beyond the seed. -/
def KeepsCode (seed : List String) (dicts : List (Interner String)) (table own : Interner String)
    (k : Nat) : Prop :=
  match table.values[k]? with
  | some v =>
      if v ∈ valuesBeyond seed dicts then own.values[k]? = some v else seed[k]? = own.values[k]?
  | none =>
      if k < seed.length then seed[k]? = own.values[k]?
      else ∃ v, own.values[k]? = some v ∧ Interner.ComesAfter v (valuesBeyond seed dicts) (k - seed.length)

omit [Platform] in
/-- A value has an overflow code exactly when some dictionary has it beyond the seed's length. -/
theorem mem_overflowValues (seed : List String) (dicts : List (Interner String)) (v : String) :
    v ∈ (overflowValues seed.length dicts).values ↔ v ∈ valuesBeyond seed dicts := by
  rw [overflowValues, Interner.mem_values_internAll Interner.empty_wf]
  exact or_iff_right List.not_mem_nil

/-- What the unified values have at a translated code: for a code below the seed's length the seed's
value at it, and above it the value that was collected for it. So the translation is right exactly
where the local dictionary agrees with the seed, or its value was collected. -/
theorem unified_remap_iff {seed : List String} {locals : List ColumnBuilder}
    {table own : Interner String} (htable : table.WF)
    (hmem : table ∈ locals.filterMap ColumnBuilder.dictValues) {k : Nat} (hk : k < own.values.length) :
    (collectOverflow ⟨seed, ∅⟩ locals).values[((remapDict (collectOverflow ⟨seed, ∅⟩ locals).index
        seed.length table).map[k]?).getD k]? = own.values[k]? ↔
      KeepsCode seed (locals.filterMap ColumnBuilder.dictValues) table own k := by
  have habove := collectOverflow_above seed locals
  have hin := mem_overflowValues seed (locals.filterMap ColumnBuilder.dictValues)
  rw [KeepsCode, remapDict, List.getElem?_map, List.getElem?_mapIdx]
  cases hat : table.values[k]? with
  | none =>
      show (collectOverflow ⟨seed, ∅⟩ locals).values[k]? = _ ↔ _
      rw [habove.values]
      by_cases hlt : k < seed.length
      · rw [if_pos hlt, List.getElem?_append_left hlt]
      · rw [if_neg hlt, List.getElem?_append_right (Nat.not_lt.mp hlt), List.getElem?_eq_getElem hk,
          overflowValues, Interner.getElem?_values_internAll]
        simp only [Option.some.injEq, exists_eq_left']
        rfl
  | some v =>
      have hcode : table.index.lookup v = some k := (htable v k).mpr hat
      obtain ⟨hsome, hnone⟩ := lookup_collectOverflow seed locals v
      simp only [Option.map_some, Option.getD_some]
      cases hg : (collectOverflow ⟨seed, ∅⟩ locals).index.lookup v with
      | none =>
          have hnot : v ∉ valuesBeyond seed (locals.filterMap ColumnBuilder.dictValues) :=
            mt (hin v).mpr (hnone.mp hg)
          -- a value at or beyond the seed's length would have a code
          have hlt : k < seed.length := by
            by_contra hge
            refine hnot (List.mem_flatMap.mpr ⟨table, hmem, ?_⟩)
            rw [List.mem_iff_getElem?]
            refine ⟨k - seed.length, ?_⟩
            rw [List.getElem?_drop, Nat.add_sub_cancel' (Nat.not_lt.mp hge)]
            exact hat
          rw [if_neg hnot, habove.values]
          exact iff_of_eq (congrArg (· = own.values[k]?) (List.getElem?_append_left hlt))
      | some g =>
          have hmem : v ∈ valuesBeyond seed (locals.filterMap ColumnBuilder.dictValues) := by
            by_contra hnot
            rw [hnone.mpr (mt (hin v).mp hnot)] at hg
            cases hg
          rw [if_pos hmem, hcode, hsome g hg]
          exact eq_comm

/-- The chunk at a position after the remap tables have been applied in order. -/
theorem getElem?_applyRemaps (name : String) (unified : Interner String)
    (engines : List TableBuilder) (remaps : List RemapTable) (i : Nat) :
    (applyRemaps name unified engines remaps)[i]? =
      engines[i]?.map fun e => (remaps[i]?).elim e (applyRemap name unified e) := by
  induction engines generalizing remaps i with
  | nil => simp [applyRemaps]
  | cons e engines ih =>
      cases remaps with
      | nil => cases h : (e :: engines)[i]? <;> simp [applyRemaps, h]
      | cons remap remaps =>
          cases i with
          | zero => rfl
          | succ i => simpa [applyRemaps] using ih remaps i

/-- A remap keeps the cells of the chunk exactly when every used code reads the same. -/
theorem cellsOf_applyRemap_iff {e : TableBuilder} (he : e.Coherent) {name : String}
    {codes : List (Option Nat)} {own : Interner String}
    (hc : e.getColumn name = some (.dictionary codes own)) (unified : Interner String)
    (remap : RemapTable) :
    (applyRemap name unified e remap).cellsOf = e.cellsOf ↔
      ∀ k, some k ∈ codes → unified.values[(remap.map[k]?).getD k]? = own.values[k]? := by
  rw [applyRemap, hc]
  show (e.setColumn name _).cellsOf = _ ↔ _
  rw [he.cellsOf_setColumn hc, Function.update_eq_self_iff, TableBuilder.cellsOf, hc,
    Option.map_some, Option.some.injEq]
  have hinj : Function.Injective (Option.map TypedValue.str) :=
    Option.map_injective fun a b h => TypedValue.str.inj h
  show (unified.decodeAll (codes.map _)).map _ = (own.decodeAll codes).map _ ↔ _
  rw [List.map_inj_right (fun _ _ h => hinj h), Interner.decodeAll, Interner.decodeAll, List.map_map,
    List.map_inj_left]
  constructor
  · intro h k hk
    exact h (some k) hk
  · intro h code hcode
    cases code with
    | none => rfl
    | some k => exact h k hcode

/-- The dictionaries of the chunks that have the column `name` as one, in chunk order. -/
def chunkDicts (engines : List TableBuilder) (name : String) : List (Interner String) :=
  engines.filterMap fun e => chunkDict e name

/-- Unifying the column `name` from the values of `seed` keeps every used code, where the chunk at
each position is read through the dictionary at the same position of `chunkDicts`. -/
def UnifiesSafely (engines : List TableBuilder) (name : String) (seed : Interner String) : Prop :=
  ∀ (i : Nat) (e : TableBuilder) (table own : Interner String) (codes : List (Option Nat)),
    engines[i]? = some e → (chunkDicts engines name)[i]? = some table →
    e.getColumn name = some (.dictionary codes own) → ∀ k, some k ∈ codes →
      KeepsCode seed.values (chunkDicts engines name) table own k

omit [Platform] in
/-- A filter that keeps every element keeps the positions, so the remap tables stand at the places
of their chunks. -/
theorem getElem?_filterMap_of_isSome {α β : Type} {f : α → Option β} {l : List α}
    (h : ∀ a ∈ l, (f a).isSome) (i : Nat) : (l.filterMap f)[i]? = (l[i]?).bind f := by
  induction l generalizing i with
  | nil => rfl
  | cons a l ih =>
      obtain ⟨b, hb⟩ := Option.isSome_iff_exists.mp (h a List.mem_cons_self)
      rw [List.filterMap_cons_some hb]
      cases i with
      | zero => exact hb.symm
      | succ i => exact ih (fun a ha => h a (List.mem_cons_of_mem _ ha)) i

/-- Where every chunk has the column, each is read through its own dictionary, and only codes below the
seed's length can change: such a code has the seed's value, or one that is collected beyond the seed. -/
theorem unifiesSafely_iff {engines : List TableBuilder} (h : ∀ e ∈ engines, e.Coherent) {name : String}
    {seed : Interner String} (hall : ∀ e ∈ engines, (chunkDict e name).isSome) :
    UnifiesSafely engines name seed ↔
      ∀ e ∈ engines, ∀ codes own, e.getColumn name = some (.dictionary codes own) →
        ∀ k v, some k ∈ codes → own.values[k]? = some v → k < seed.values.length →
          v ∈ valuesBeyond seed.values (chunkDicts engines name) ∨ seed.values[k]? = some v := by
  have hat : ∀ i : Nat, (chunkDicts engines name)[i]? = (engines[i]?).bind fun e => chunkDict e name :=
    getElem?_filterMap_of_isSome hall
  have hown : ∀ (e : TableBuilder) codes own, e.getColumn name = some (.dictionary codes own) →
      chunkDict e name = some own := by
    intro e codes own hc
    rw [chunkDict, hc]
    rfl
  constructor
  · intro hsafe e he codes own hc k v hk hv _
    obtain ⟨i, hi⟩ := List.mem_iff_getElem?.mp he
    have htable := hat i
    rw [hi, Option.bind_some, hown e codes own hc] at htable
    have hkeeps := hsafe i e own own codes hi htable hc k hk
    rw [KeepsCode, hv] at hkeeps
    dsimp only at hkeeps
    split at hkeeps
    · next hbeyond => exact .inl hbeyond
    · exact .inr hkeeps
  · intro hvalues i e table own codes hi htable hc k hk
    have he := List.mem_of_getElem? hi
    rw [hat, hi, Option.bind_some, hown e codes own hc] at htable
    obtain rfl := Option.some.inj htable
    have hlt := ((h e he).getColumn hc).2 k hk
    have hv := List.getElem?_eq_getElem hlt
    rw [KeepsCode, hv]
    dsimp only
    split
    · rfl
    · next hbeyond =>
      refine (hvalues e he codes own hc k _ hk hv ?_).resolve_left hbeyond
      -- a value at or beyond the seed's length is collected
      by_contra hge
      refine hbeyond (List.mem_flatMap.mpr ⟨own, List.mem_filterMap.mpr ⟨e, he, hown e codes own hc⟩, ?_⟩)
      rw [List.mem_iff_getElem?]
      refine ⟨k - seed.values.length, ?_⟩
      rw [List.getElem?_drop, Nat.add_sub_cancel' (Nat.not_lt.mp hge)]
      exact hv

/-- Consistent chunks that share a column with the first one store it in the same variant. -/
theorem variantKey_eq_of_schemasConsistent {first : TableBuilder} {rest : List TableBuilder}
    (h : schemasConsistent (first :: rest) = true) {e : TableBuilder} (he : e ∈ first :: rest)
    {name : String} {c c' : ColumnBuilder} (hc : first.getColumn name = some c)
    (hc' : e.getColumn name = some c') : c.variantKey = c'.variantKey := by
  rcases List.mem_cons.mp he with rfl | he
  · rw [Option.some.inj (hc.symm.trans hc')]
  · obtain ⟨i, hlook, hi⟩ := Option.bind_eq_some_iff.mp hc'
    rw [schemasConsistent, List.all_eq_true] at h
    have hentry := List.all_eq_true.mp (h e he) ⟨name, i⟩ (AList.mem_lookup_iff.mp hlook)
    simp only [hc, hi, beq_iff_eq] at hentry
    exact hentry

/-- Only dictionary columns have the key of one. -/
theorem variantKey_eq_dictionary {c : ColumnBuilder} (h : c.variantKey = "dictionary") :
    ∃ codes dict, c = .dictionary codes dict := by
  cases c with
  | dictionary codes dict => exact ⟨codes, dict, rfl⟩
  | timestamp unit format v => cases unit <;> simp [ColumnBuilder.variantKey] at h
  | decimal128 scale v =>
      simp only [ColumnBuilder.variantKey] at h
      split at h <;> simp at h
  | _ => simp [ColumnBuilder.variantKey] at h

/-- The remap table at a position, by the dictionary at that position. -/
theorem getElem?_remaps (seed : SeedDict) {locals : List ColumnBuilder}
    (h : ∀ c ∈ locals, (ColumnBuilder.dictValues c).isSome) (i : Nat) :
    (unifyDictionaries seed locals).2[i]? =
      ((locals.filterMap ColumnBuilder.dictValues)[i]?).map
        (remapDict (collectOverflow seed locals).index seed.values.length) := by
  rw [getElem?_filterMap_of_isSome h, unifyDictionaries, List.getElem?_map]
  cases hi : locals[i]? with
  | none => rfl
  | some c =>
      obtain ⟨dict, hdict⟩ := Option.isSome_iff_exists.mp (h c (List.mem_of_getElem? hi))
      rw [Option.map_some, Option.bind_some, hdict]
      rfl

/-- Unifying a column that is a dictionary wherever it occurs keeps the cells exactly when it keeps
every used code. The remaps are applied to the chunks that have the column, in their order, and each
of them decodes through the one unified dictionary afterwards. -/
theorem cellsOf_unifyChunks_iff {engines : List TableBuilder} (h : ∀ e ∈ engines, e.Coherent)
    {name : String} (seed : Interner String)
    (hdict : ∀ e ∈ engines, ∀ c, e.getColumn name = some c →
      ∃ codes dict, c = .dictionary codes dict) :
    (unifyChunks name seed engines).map (·.cellsOf) = engines.map (·.cellsOf) ↔
      UnifiesSafely engines name seed := by
  have hlocals : ∀ c ∈ engines.filterMap (·.getColumn name),
      (ColumnBuilder.dictValues c).isSome := by
    intro c hc
    obtain ⟨e, he, hec⟩ := List.mem_filterMap.mp hc
    obtain ⟨codes, dict, rfl⟩ := hdict e he c hec
    rfl
  have hdicts : (engines.filterMap (·.getColumn name)).filterMap ColumnBuilder.dictValues =
      chunkDicts engines name := List.filterMap_filterMap
  -- every local dictionary is well formed, as its builder is coherent
  have hwf : ∀ table ∈ chunkDicts engines name, table.WF := by
    intro table htable
    obtain ⟨e, he, htable⟩ := List.mem_filterMap.mp htable
    obtain ⟨c, hc, hcdict⟩ := Option.bind_eq_some_iff.mp htable
    obtain ⟨codes, dict, rfl⟩ := hdict e he c hc
    obtain rfl := Option.some.inj hcdict
    exact ((h e he).getColumn hc).1
  -- the remap at position `i` is that of the `i`-th chunk that has the column
  have hremap := fun i => getElem?_remaps ⟨seed.values, ∅⟩ hlocals i
  rw [hdicts] at hremap
  rw [unifyChunks, List.ext_getElem?_iff]
  simp only [List.getElem?_map, getElem?_applyRemaps, hremap]
  constructor
  -- a cell is kept exactly when the new code of its value decodes to that value
  · intro hcells i e table own codes he htable hc k hk
    have hi := hcells i
    rw [he, htable] at hi
    simp only [Option.map_some, Option.elim_some, Option.some.injEq] at hi
    have hkept := (cellsOf_applyRemap_iff (h e (List.mem_of_getElem? he)) hc _ _).mp hi k hk
    have hin := List.mem_of_getElem? htable
    have hlt := ((h e (List.mem_of_getElem? he)).getColumn hc).2 k hk
    rw [← hdicts] at hin ⊢
    exact (unified_remap_iff (hwf table (hdicts ▸ hin)) hin hlt).mp hkept
  · intro hsafe i
    cases he : engines[i]? with
    | none => rfl
    | some e =>
        have hmem := List.mem_of_getElem? he
        cases htable : (chunkDicts engines name)[i]? with
        | none => rfl
        | some table =>
            simp only [Option.map_some, Option.elim_some, Option.some.injEq]
            cases hc : e.getColumn name with
            | none => rw [applyRemap, hc]
            | some c =>
                obtain ⟨codes, own, rfl⟩ := hdict e hmem c hc
                refine (cellsOf_applyRemap_iff (h e hmem) hc _ _).mpr fun k hk => ?_
                have hkept := hsafe i e table own codes he htable hc k hk
                have hin := List.mem_of_getElem? htable
                have hlt := ((h e hmem).getColumn hc).2 k hk
                rw [← hdicts] at hkept hin
                exact (unified_remap_iff (hwf table (hdicts ▸ hin)) hin hlt).mpr hkept

/-- The column is a dictionary of the first chunk, and some other chunk has a dictionary with other values
for it. -/
def DictsDiffer (first : TableBuilder) (rest : List TableBuilder) (name : String) : Prop :=
  ∃ dict, chunkDict first name = some dict ∧
    ∃ e ∈ rest, ∃ dict', chunkDict e name = some dict' ∧ dict'.values ≠ dict.values

/-- The column to unify is the first one whose dictionaries differ. -/
theorem unifyColumn_eq_some {first : TableBuilder} {rest : List TableBuilder} {name : String} :
    unifyColumn (first :: rest) = some name ↔ DictsDiffer first rest name ∧
      ∃ before after, first.columnOrder = before ++ name :: after ∧
        ∀ n ∈ before, ¬ DictsDiffer first rest n := by
  have hdiffer : ∀ n, (chunkDict first n).any (fun dict =>
      rest.any fun e => (chunkDict e n).any fun dict' => decide (dict'.values ≠ dict.values)) = true ↔
      DictsDiffer first rest n := by
    intro n
    simp only [Option.any_eq_true, List.any_eq_true, decide_eq_true_eq, DictsDiffer]
  rw [unifyColumn, List.find?_eq_some_iff_append]
  simp only [hdiffer, Bool.not_eq_true', ← Bool.not_eq_true]

/-- What is to hold of the chunks after their upgrade: they are not consistent, or all used codes are kept
of the first column, in the order of the first chunk, whose dictionaries differ. -/
def AutoDictSafe : List TableBuilder → Prop
  | [] => True
  | first :: rest =>
      schemasConsistent (first :: rest) = true → ∀ before name after seed,
        first.columnOrder = before ++ name :: after → DictsDiffer first rest name →
        (∀ n ∈ before, ¬ DictsDiffer first rest n) → chunkDict first name = some seed →
          UnifiesSafely (first :: rest) name seed

/-- **Cells under the auto-dict block.** The block keeps every cell of every chunk exactly when the
dictionaries of the upgraded chunks unify safely. -/
theorem afterAutoDict_cellsOf_iff {engines : List TableBuilder}
    (h : ∀ e ∈ engines, e.Coherent) :
    (afterAutoDict engines).map (·.cellsOf) = engines.map (·.cellsOf) ↔
      AutoDictSafe (engines.map (·.autoDictUpgrade)) := by
  have hup : ∀ e ∈ engines.map (·.autoDictUpgrade), e.Coherent := by
    intro e he
    obtain ⟨e₀, he₀, rfl⟩ := List.mem_map.mp he
    exact (h e₀ he₀).autoDictUpgrade
  have hcells : engines.map (·.cellsOf) = (engines.map (·.autoDictUpgrade)).map (·.cellsOf) := by
    rw [List.map_map, List.map_inj_left]
    exact fun e he => (h e he).cellsOf_autoDictUpgrade.symm
  rw [hcells, afterAutoDict, autoDictBlock]
  generalize engines.map (·.autoDictUpgrade) = engines at hup ⊢
  cases engines with
  | nil => exact iff_of_true rfl trivial
  | cons first rest =>
      rw [AutoDictSafe]
      by_cases hsame : schemasConsistent (first :: rest) = true
      · simp only [hsame, ↓reduceIte, forall_const]
        cases hcol : unifyColumn (first :: rest) with
        | none =>
            refine iff_of_true rfl fun before name after seed horder hdiffer hbefore _ => ?_
            cases hcol.symm.trans (unifyColumn_eq_some.mpr ⟨hdiffer, before, after, horder, hbefore⟩)
        | some name =>
            obtain ⟨⟨seed, hseed, hother⟩, before, after, horder, hbefore⟩ := unifyColumn_eq_some.mp hcol
            -- a column shared with the first chunk is a dictionary, as it is there
            obtain ⟨c, hc, hcdict⟩ := Option.bind_eq_some_iff.mp hseed
            have hdict : ∀ e ∈ first :: rest, ∀ c, e.getColumn name = some c →
                ∃ codes dict, c = .dictionary codes dict := by
              intro e he c' hc'
              have hkey := variantKey_eq_of_schemasConsistent hsame he hc hc'
              cases c with
              | dictionary codes dict => exact variantKey_eq_dictionary hkey.symm
              | _ => cases hcdict
            simp only [hseed, Option.getD_some, cellsOf_unifyChunks_iff hup seed hdict]
            constructor
            · intro hsafe before' name' after' seed' horder' hdiffer' hbefore' hseed'
              have hcol' := unifyColumn_eq_some.mpr ⟨hdiffer', before', after', horder', hbefore'⟩
              obtain rfl := Option.some.inj (hcol.symm.trans hcol')
              obtain rfl := Option.some.inj (hseed.symm.trans hseed')
              exact hsafe
            · exact fun hsafe => hsafe before name after seed horder ⟨seed, hseed, hother⟩ hbefore hseed
      · simp [hsame]

/-- The chunks of a run without a filter are coherent. -/
theorem coherent_feed {plan : ExecutionPlan} (hfilter : plan.filter = none)
    (rows : List (List Put)) : ((TableBuilder.withPlan plan).feed rows).Coherent := by
  have hplan : (TableBuilder.withPlan plan).plan = plan ∧
      (TableBuilder.withPlan plan).frozen = none := TableBuilder.withPlan_frame plan
  obtain ⟨t, ht, -⟩ := (TableBuilder.between_withPlan plan).feed_of_no_filter
    (by rw [hplan.1]; exact hfilter) hplan.2 rows
  exact ht.sound.coherent

end Chunks

section Examples

attribute [local instance] integerPlatform

/-- A plan with one dictionary column and automatic dictionaries. -/
def dictPlan : ExecutionPlan := { autoDict := true, dictionaryColumns := ["x"] }

/-- The chunk of the rows with the given values of `x`. -/
def dictChunk (values : List String) : TableBuilder :=
  (TableBuilder.withPlan dictPlan).feed (values.map fun v => [.field "x" (.str v)])

/-- The second chunk's dictionary goes on where the first one's ends: the first chunk is given the unified
dictionary, and no cell changes. -/
theorem afterAutoDict_extended_dictionary :
    (afterAutoDict [dictChunk ["a"], dictChunk ["a", "b"]]).map (·.cellsOf) =
        [dictChunk ["a"], dictChunk ["a", "b"]].map (·.cellsOf) ∧
      ((afterAutoDict [dictChunk ["a"], dictChunk ["a", "b"]]).head?.bind fun first =>
        (chunkDict first "x").map Interner.values) = some ["a", "b"] := by
  have hcoherent : ∀ e ∈ [dictChunk ["a"], dictChunk ["a", "b"]], e.Coherent := by
    intro e he
    simp only [List.mem_cons, List.not_mem_nil, or_false] at he
    rcases he with rfl | rfl <;> exact coherent_feed rfl _
  have hsafe : AutoDictSafe [dictChunk ["a"], dictChunk ["a", "b"]] := by
    intro _ before name after seed horder _ _ hseed
    have horder : ["x"] = before ++ name :: after := horder
    obtain rfl : name = "x" := by
      have hname : name ∈ ["x"] := horder ▸ List.mem_append_right before List.mem_cons_self
      exact List.mem_singleton.mp hname
    obtain rfl : (Interner.empty.internAll ["a"]).2 = seed := Option.some.inj hseed
    refine (unifiesSafely_iff hcoherent (by decide)).mpr fun e he codes own hc k v hk hv hlt => .inr ?_
    obtain rfl : k = 0 := Nat.lt_one_iff.mp hlt
    simp only [List.mem_cons, List.not_mem_nil, or_false] at he
    rcases he with rfl | rfl
    · cases hc
      exact hv
    · cases hc
      exact hv
  exact ⟨(afterAutoDict_cellsOf_iff hcoherent).mpr hsafe, by decide⟩

/-- The second chunk's only value has the code of the first chunk's first value, and the unified
dictionary does not contain it. -/
theorem afterAutoDict_changes_cells :
    ¬ ∀ engines : List TableBuilder, (∀ e ∈ engines, e.Coherent) →
      (afterAutoDict engines).map (·.cellsOf) = engines.map (·.cellsOf) := by
  intro h
  have hcells := h [dictChunk ["a", "b"], dictChunk ["c"]] (by
    intro e he
    simp only [List.mem_cons, List.not_mem_nil, or_false] at he
    rcases he with rfl | rfl <;> exact coherent_feed rfl _)
  have htexts := congrArg (fun chunks => (chunks[1]?.bind fun cells => cells "x").map
    (List.map (Option.map filterText))) hcells
  revert htexts
  decide

end Examples

end Rypipe
