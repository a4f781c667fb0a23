import Rypipe.Foundation.RowTable
import Rypipe.Engine.Finish

/-! # What the columns of a builder hold

The connection between the state of a builder and the table it stands for. `Layout` says that the
columns, the index of names and the dirty mask hold a `RowTable`, together with the values of a row
that is being written: the columns of the names that row has assigned are one cell ahead.

Each lemma of this module is about one way the engine changes the columns: a new column, a value
written to a slot, the null fill, a row popped, a cut. -/

namespace Rypipe

variable [Platform]

/-- The table a builder stands for. -/
abbrev Table : Type := RowTable String FieldType Value

/-- The row in progress: the value assigned to each output name so far. -/
abbrev CurrentRow : Type := Row String Value

/-- No value assigned yet. -/
def noRow : CurrentRow := fun _ => none

/-- The cells a column has beyond the committed rows. -/
def pending (cur : CurrentRow) (name : String) (ty : FieldType) : List (Option TypedValue) :=
  match cur name with
  | some value => [store ty value]
  | none => []

@[simp] theorem pending_noRow (name : String) (ty : FieldType) : pending noRow name ty = [] := rfl

/-- A column with a value in the row is ahead by the cell of the value. -/
theorem pending_some {cur : CurrentRow} {name : String} {value : Value} (h : cur name = some value)
    (ty : FieldType) : pending cur name ty = [store ty value] := by
  rw [pending, h]

/-- A column without one is not ahead. -/
theorem pending_none {cur : CurrentRow} {name : String} (h : cur name = none) (ty : FieldType) :
    pending cur name ty = [] := by
  rw [pending, h]

/-- The columns hold the table `t`, and for each name that `cur` assigns one cell more. -/
structure Layout (columns : List ColumnBuilder) (index : StrMap Nat) (dirty : WordSet 64)
    (t : Table) (cur : CurrentRow) : Prop where
  size : columns.length = t.cols.length
  indexed : ∀ name (i : Nat), index.lookup name = some i ↔ t.names[i]? = some name
  stored : ∀ (i : Nat) (p : String × FieldType), t.cols[i]? = some p → ∃ c : ColumnBuilder, columns[i]? = some c ∧
    c.Stores p.2 (t.column store p.1 p.2 ++ pending cur p.1 p.2)
  marked : ∀ (i : Nat) (p : String × FieldType), t.cols[i]? = some p → dirty.test i = (cur p.1).isSome
  unmarked : ∀ i : Nat, columns.length ≤ i → dirty.test i = false
  room : columns.length ≤ dirty.capacity
  within : ∀ name, (cur name).isSome → name ∈ t.names

/-- An index of the names of a table that gets a new name with the next slot is an index of the
table with the name declared. -/
theorem indexed_insert {index : StrMap Nat} {t : Table}
    (h : ∀ n (i : Nat), index.lookup n = some i ↔ t.names[i]? = some n) {name : String}
    (hname : name ∉ t.names) (ty : FieldType) (n : String) (i : Nat) :
    (index.insert name t.cols.length).lookup n = some i ↔
      (t.declare name ty).names[i]? = some n := by
  have hnames : (t.declare name ty).names = t.names ++ [name] := by
    rw [RowTable.names, RowTable.cols_declare_of_notMem hname ty, List.map_append]
    rfl
  have hlen : t.names.length = t.cols.length := by rw [RowTable.names, List.length_map]
  -- the new name is at the end, and no old name is there
  by_cases hn : n = name
  · subst hn
    rw [AList.lookup_insert, hnames, List.getElem?_append, hlen]
    split
    · next hlt =>
      constructor
      · intro hi
        have := Option.some.inj hi
        omega
      · intro hi
        exact absurd (List.mem_of_getElem? hi) hname
    · next hge =>
      rw [List.getElem?_singleton, Option.some.injEq]
      split
      · simp only [iff_true]
        omega
      · simp only [reduceCtorEq, iff_false]
        omega
  · rw [AList.lookup_insert_ne hn, h, hnames, List.getElem?_append]
    split
    · rfl
    · next hge =>
      rw [List.getElem?_eq_none (not_lt.mp hge), List.getElem?_singleton]
      split
      · simp [Ne.symm hn]
      · rfl

/-- `Layout` on the fields of a builder. -/
abbrev TableBuilder.Holds (b : TableBuilder) (t : Table) (cur : CurrentRow) : Prop :=
  Layout b.columns b.fieldIndex b.rowDirty t cur

namespace Layout

variable {columns : List ColumnBuilder} {index : StrMap Nat} {dirty : WordSet 64} {t : Table}
  {cur : CurrentRow}

/-- The names the index knows are the names of the table. -/
theorem mem_index (h : Layout columns index dirty t cur) (name : String) :
    name ∈ index ↔ name ∈ t.names := by
  rw [← AList.lookup_isSome, Option.isSome_iff_exists, List.mem_iff_getElem?]
  exact exists_congr fun i => h.indexed name i

/-- A name has no slot exactly if the table has no such column. -/
theorem lookup_eq_none (h : Layout columns index dirty t cur) (name : String) :
    index.lookup name = none ↔ name ∉ t.names := by
  rw [AList.lookup_eq_none, h.mem_index]

/-- The slot the index gives a name is in range. -/
theorem lookup_lt (h : Layout columns index dirty t cur) {name : String} {i : Nat}
    (hi : index.lookup name = some i) : i < columns.length := by
  have hlt := (List.getElem?_eq_some_iff.mp ((h.indexed name i).mp hi)).1
  rw [h.size]
  simpa [RowTable.names] using hlt

/-- The column the index gives a name. -/
theorem cols_of_lookup (h : Layout columns index dirty t cur) {name : String} {i : Nat}
    (hi : index.lookup name = some i) : ∃ ty, t.cols[i]? = some (name, ty) := by
  have hname := (h.indexed name i).mp hi
  rw [RowTable.names, List.getElem?_map] at hname
  obtain ⟨p, hp, rfl⟩ := Option.map_eq_some_iff.mp hname
  exact ⟨p.2, hp⟩

/-- The index gives the place of a column in the table. -/
theorem lookup_of_cols (h : Layout columns index dirty t cur) {i : Nat} {p : String × FieldType}
    (hp : t.cols[i]? = some p) : index.lookup p.1 = some i := by
  rw [h.indexed, RowTable.names, List.getElem?_map, hp]
  rfl

/-- The number of cells of a column, by whether the row has assigned it. -/
theorem len_column (h : Layout columns index dirty t cur) {i : Nat} {p : String × FieldType}
    (hp : t.cols[i]? = some p) {c : ColumnBuilder} (hc : columns[i]? = some c) :
    c.len = t.rows.length + (if (cur p.1).isSome then 1 else 0) := by
  obtain ⟨c', hc', hst⟩ := h.stored i p hp
  obtain rfl : c = c' := Option.some.inj (hc.symm.trans hc')
  rw [hst.len_eq, List.length_append, RowTable.length_column]
  cases hcur : cur p.1 with
  | none => simp [pending_none hcur]
  | some v => simp [pending_some hcur]

/-- Without a row in progress no bit is set. -/
theorem clean (h : Layout columns index dirty t noRow) (i : Nat) : dirty.test i = false := by
  by_cases hi : i < columns.length
  · have hlt : i < t.cols.length := by rw [← h.size]; exact hi
    rw [h.marked i _ (List.getElem?_eq_getElem hlt)]
    rfl
  · exact h.unmarked i (not_lt.mp hi)

/-- A change of the dirty mask that keeps the bits and the room. -/
theorem congr_dirty (h : Layout columns index dirty t cur) {dirty' : WordSet 64}
    (htest : ∀ i, dirty'.test i = dirty.test i) (hcap : columns.length ≤ dirty'.capacity) :
    Layout columns index dirty' t cur where
  size := h.size
  indexed := h.indexed
  stored := h.stored
  marked i p hp := by rw [htest, h.marked i p hp]
  unmarked i hi := by rw [htest, h.unmarked i hi]
  room := hcap
  within := h.within

/-- A new column of nulls declares its name. The columns that are there keep their slots, and the
new one is back-filled to the length that the row needs, so that the layout holds for the table with
one column more. -/
theorem appendColumn (h : Layout columns index dirty t cur) {name : String}
    (hname : name ∉ t.names) {c : ColumnBuilder} {ty : FieldType}
    (hc : c.Stores ty (List.replicate t.rows.length none)) {dirty' : WordSet 64}
    (htest : ∀ i, dirty'.test i = dirty.test i) (hcap : columns.length + 1 ≤ dirty'.capacity) :
    Layout (columns ++ [c]) (index.insert name columns.length) dirty' (t.declare name ty) cur := by
  have hcols := RowTable.cols_declare_of_notMem hname ty
  have hnone : cur name = none := by
    by_contra hne
    exact hname (h.within name (Option.isSome_iff_ne_none.mpr hne))
  -- a column of the new table is an old one or the last one
  have hcases : ∀ (i : Nat) (p : String × FieldType), (t.declare name ty).cols[i]? = some p →
      (i < columns.length ∧ t.cols[i]? = some p) ∨ (i = columns.length ∧ p = (name, ty)) := by
    intro i p hp
    rw [hcols, List.getElem?_append, h.size.symm] at hp
    split at hp
    · next hlt => exact Or.inl ⟨hlt, hp⟩
    · next hge =>
      rw [List.getElem?_singleton] at hp
      split at hp
      · next h0 => exact Or.inr ⟨by omega, (Option.some.inj hp).symm⟩
      · cases hp
  constructor
  · rw [hcols, List.length_append, List.length_append, h.size]
    rfl
  · rw [h.size]
    exact indexed_insert h.indexed hname ty
  · intro i p hp
    rcases hcases i p hp with ⟨hlt, hp⟩ | ⟨rfl, rfl⟩
    · obtain ⟨c', hc', hst⟩ := h.stored i p hp
      refine ⟨c', ?_, by simpa using hst⟩
      rw [List.getElem?_append_left hlt, hc']
    · refine ⟨c, by simp, ?_⟩
      rw [pending_none hnone, List.append_nil, RowTable.column_declare,
        RowTable.column_of_notMem store hname]
      exact hc
  · intro i p hp
    rcases hcases i p hp with ⟨-, hp⟩ | ⟨rfl, rfl⟩
    · rw [htest, h.marked i p hp]
    · rw [htest, h.unmarked _ le_rfl, hnone]
      rfl
  · intro i hi
    rw [htest, h.unmarked i (by simp only [List.length_append] at hi; omega)]
  · simpa using hcap
  · intro n hn
    rw [RowTable.mem_names_declare]
    exact Or.inl (h.within n hn)

/-- Overwriting the last cell, or adding it, leaves the written cell after the committed ones. -/
theorem stores_overwrite {c : ColumnBuilder} {ty : FieldType} {name : String} {rowCount : Nat}
    (hc : c.Stores ty (t.column store name ty ++ pending cur name ty)) (value : Value)
    (hrow : rowCount = t.rows.length ∨ (rowCount = t.rows.length + 1 ∧ cur name = none)) :
    (TableBuilder.overwrite rowCount value c).Stores ty
      (t.column store name ty ++ [store ty value]) := by
  have hlen := hc.len_eq
  rw [List.length_append, RowTable.length_column] at hlen
  cases hcur : cur name with
  | none =>
      rw [pending_none hcur, List.append_nil] at hc
      rw [pending_none hcur, List.length_nil] at hlen
      rw [TableBuilder.overwrite, if_neg (by omega)]
      exact hc.pushValue value
  | some v =>
      have hrow' : rowCount = t.rows.length := by
        rcases hrow with h | ⟨-, h⟩
        · exact h
        · rw [hcur] at h
          cases h
      rw [pending_some hcur] at hc
      rw [pending_some hcur, List.length_singleton] at hlen
      rw [TableBuilder.overwrite, if_pos (by omega)]
      have hpop := hc.pop
      rw [List.dropLast_concat] at hpop
      exact hpop.pushValue value

/-- Writing to a slot assigns its name in the current row. A mid-row drain has already counted the
row, so that it must not have assigned the name before. -/
theorem write (h : Layout columns index dirty t cur) {i : Nat} {p : String × FieldType}
    (hp : t.cols[i]? = some p) (value : Value) {rowCount : Nat}
    (hrow : rowCount = t.rows.length ∨ (rowCount = t.rows.length + 1 ∧ cur p.1 = none)) :
    Layout (columns.modify i (TableBuilder.overwrite rowCount value)) index (dirty.insert i) t
      (Function.update cur p.1 (some value)) := by
  have hi : i < columns.length := by
    rw [h.size]
    exact (List.getElem?_eq_some_iff.mp hp).1
  -- no two columns have one name, so only the column at `i` changes
  have hname : ∀ j q, t.cols[j]? = some q → (q.1 = p.1 ↔ j = i) := by
    intro j q hq
    constructor
    · exact RowTable.getElem?_inj hq hp
    · rintro rfl
      rw [Option.some.inj (hq.symm.trans hp)]
  constructor
  · rw [List.length_modify, h.size]
  · exact h.indexed
  · intro j q hq
    obtain ⟨c, hc, hst⟩ := h.stored j q hq
    rw [List.getElem?_modify, hc]
    -- the column written holds the value as its pending cell
    by_cases hj : i = j
    · subst hj
      obtain rfl : q = p := Option.some.inj (hq.symm.trans hp)
      rw [pending_some (Function.update_self _ _ _)]
      refine ⟨TableBuilder.overwrite rowCount value c, by simp, ?_⟩
      exact stores_overwrite hst value hrow
    · have hne : q.1 ≠ p.1 := fun hq' => hj ((hname j q hq).mp hq').symm
      refine ⟨c, by simp [hj], ?_⟩
      rw [pending, Function.update_of_ne hne]
      exact hst
  · intro j q hq
    rw [WordSet.test_insert dirty (by have := h.room; omega), h.marked j q hq]
    by_cases hj : j = i
    · have hq' := (hname j q hq).mpr hj
      simp [hj, hq']
    · have hne : q.1 ≠ p.1 := fun hq' => hj ((hname j q hq).mp hq')
      simp [hj, Function.update_of_ne hne]
  · intro j hj
    rw [List.length_modify] at hj
    rw [WordSet.test_insert_ne dirty (by omega), h.unmarked j hj]
  · rw [List.length_modify, WordSet.capacity_insert]
    exact h.room
  · intro name hn
    by_cases hne : name = p.1
    · rw [hne]
      exact List.mem_map_of_mem (List.mem_of_getElem? hp)
    · rw [Function.update_of_ne hne] at hn
      exact h.within name hn

/-- Null-filling the columns commits the current row. Each column with a value in the row is ahead
by its cell already, each of the others gets a missing one, and the dirty bits are cleared for the
next row. -/
theorem nullFill {b : TableBuilder} (h : b.Holds t cur) :
    b.nullFill.Holds (t.commit cur h.within) noRow := by
  -- the pending cell of a written column is the cell of the row
  have hcell : ∀ p : String × FieldType, (cur p.1).isSome →
      pending cur p.1 p.2 = [cell store p.2 p.1 cur] := by
    intro p hp
    obtain ⟨v, hv⟩ := Option.isSome_iff_exists.mp hp
    rw [pending_some hv, cell, hv, Option.bind_some]
  have hnone : ∀ p : String × FieldType, cur p.1 = none → cell store p.2 p.1 cur = none := by
    intro p hp
    rw [cell, hp, Option.bind_none]
  rw [TableBuilder.nullFill]
  split
  -- every column has its bit, so nothing is filled
  · next hfull =>
    refine ⟨h.size, h.indexed, ?_, fun i p _ => WordSet.test_clear _ _,
      fun i _ => WordSet.test_clear _ _, ?_, fun name hn => by simp [noRow] at hn⟩
    · intro i p hp
      obtain ⟨c, hc, hst⟩ := h.stored i p hp
      have hi : i < b.columns.length := (List.getElem?_eq_some_iff.mp hc).1
      have hbit := WordSet.test_of_isFull (by decide) hfull hi
      rw [h.marked i p hp] at hbit
      refine ⟨c, hc, ?_⟩
      rw [RowTable.column_commit, pending_noRow, List.append_nil, ← hcell p hbit]
      exact hst
    · rw [WordSet.capacity_clear]
      exact h.room
  · refine ⟨?_, h.indexed, ?_, fun i p _ => WordSet.test_clear _ _, fun i _ => WordSet.test_clear _ _,
      ?_, fun name hn => by simp [noRow] at hn⟩
    · rw [List.length_mapIdx]
      exact h.size
    · intro i p hp
      obtain ⟨c, hc, hst⟩ := h.stored i p hp
      rw [List.getElem?_mapIdx, hc, Option.map_some, RowTable.column_commit, pending_noRow,
        List.append_nil]
      refine ⟨_, rfl, ?_⟩
      -- a column without its bit gets a null, and the others are complete
      have hmark := h.marked i p hp
      cases hcur : cur p.1 with
      | none =>
          rw [hcur] at hmark
          rw [hmark, hnone p hcur]
          rw [pending_none hcur, List.append_nil] at hst
          exact hst.pushNull
      | some v =>
          rw [hcur] at hmark
          rw [hmark, ← hcell p (by rw [hcur]; rfl)]
          exact hst
    · rw [List.length_mapIdx, WordSet.capacity_clear]
      exact h.room

/-- The columns mapped one by one hold another table over the same columns. -/
theorem mapColumns (h : Layout columns index dirty t cur) {t' : Table} (hcols : t'.cols = t.cols)
    {f : ColumnBuilder → ColumnBuilder}
    (hf : ∀ p ∈ t.cols, ∀ c : ColumnBuilder,
      c.Stores p.2 (t.column store p.1 p.2 ++ pending cur p.1 p.2) →
      (f c).Stores p.2 (t'.column store p.1 p.2)) {dirty' : WordSet 64}
    (htest : ∀ i, dirty'.test i = false) (hcap : columns.length ≤ dirty'.capacity) :
    Layout (columns.map f) index dirty' t' noRow where
  size := by rw [List.length_map, h.size, hcols]
  indexed name i := by
    rw [h.indexed, RowTable.names, RowTable.names, hcols]
  stored i p hp := by
    rw [hcols] at hp
    obtain ⟨c, hc, hst⟩ := h.stored i p hp
    refine ⟨f c, by rw [List.getElem?_map, hc, Option.map_some], ?_⟩
    rw [pending_noRow, List.append_nil]
    exact hf p (List.mem_of_getElem? hp) c hst
  marked i p _ := htest i
  unmarked i _ := htest i
  room := by rw [List.length_map]; exact hcap
  within name hn := by simp [noRow] at hn

/-- The columns mapped one by one hold the same rows over columns of other types. -/
theorem retype (h : Layout columns index dirty t noRow) (f : String → FieldType → FieldType)
    {g : ColumnBuilder → ColumnBuilder}
    (hg : ∀ (i : Nat) (p : String × FieldType) (c : ColumnBuilder), t.cols[i]? = some p →
      columns[i]? = some c → c.Stores p.2 (t.column store p.1 p.2) →
      (g c).Stores (f p.1 p.2) (t.column store p.1 (f p.1 p.2))) :
    Layout (columns.map g) index dirty (t.retype f) noRow where
  size := by rw [List.length_map, h.size, RowTable.retype, List.length_map]
  indexed name i := by rw [h.indexed, RowTable.names_retype]
  stored i p hp := by
    rw [RowTable.retype, List.getElem?_map] at hp
    obtain ⟨q, hq, rfl⟩ := Option.map_eq_some_iff.mp hp
    obtain ⟨c, hc, hst⟩ := h.stored i q hq
    rw [pending_noRow, List.append_nil] at hst
    refine ⟨g c, by rw [List.getElem?_map, hc, Option.map_some], ?_⟩
    rw [pending_noRow, List.append_nil, RowTable.column_retype]
    exact hg i q c hq hc hst
  marked i p _ := h.clean i
  unmarked i _ := h.clean i
  room := by rw [List.length_map]; exact h.room
  within name hn := by simp [noRow] at hn

/-- Popping every column takes the last row back. -/
theorem popRow {row : CurrentRow} {hrow : ∀ name, (row name).isSome → name ∈ t.names}
    (h : Layout columns index dirty (t.commit row hrow) noRow) :
    Layout (columns.map .pop) index dirty t noRow := by
  refine h.mapColumns (show t.cols = (t.commit row hrow).cols from rfl) ?_ h.clean h.room
  intro p _ c hc
  rw [pending_noRow, List.append_nil, RowTable.column_commit] at hc
  have hpop := hc.pop
  rwa [List.dropLast_concat] at hpop

end Layout

/-- Popping down to `n` cells keeps the first `n`, which is what `normalize` does to a column that
is too long. -/
theorem ColumnBuilder.Stores.popTo {c : ColumnBuilder} {ty : FieldType}
    {cs : List (Option TypedValue)} (h : c.Stores ty cs) (n : Nat) :
    (ColumnBuilder.pop^[c.len - n] c).Stores ty (cs.take n) := by
  rw [h.len_eq]
  generalize hk : cs.length - n = k
  induction k generalizing c cs with
  | zero =>
      rw [List.take_of_length_le (by omega)]
      exact h
  | succ k ih =>
      have hrest := ih h.pop (by rw [List.length_dropLast]; omega)
      rw [Function.iterate_succ_apply]
      rwa [List.dropLast_eq_take, List.take_take, min_eq_left (by omega)] at hrest

end Rypipe
