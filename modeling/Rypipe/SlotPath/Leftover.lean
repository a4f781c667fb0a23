import Rypipe.Engine.SameContent
import Rypipe.Engine.Stacked

/-! # Columns that are a cell ahead

A row that is written by slot goes to the columns at once. When it is rejected on the row buffer, its
cells stay there, and the columns are a cell ahead of the row count with no bit of the dirty mask set.
`Loose` describes such columns, `TableBuilder.trim` takes the cells away, and a builder that `Rests` at
a table is one between rows whose trimmed columns hold that table. What is left over shows again in the
next row that is accepted without a value for the column: the null fill does not look at the length of a
column (`nullFill_stores`). -/

namespace Rypipe

variable [Platform]

namespace TableBuilder

/-- The builder without the cells beyond the row count in columns that the row has not assigned. -/
def trim (b : TableBuilder) : TableBuilder :=
  { b with
    columns := b.columns.mapIdx fun i c =>
      if b.rowDirty.test i then c else ColumnBuilder.pop^[c.len - b.rowCount] c }

/-- The columns hold the table `t`, some of them with one cell more. -/
structure Loose (b : TableBuilder) (t : Table) : Prop where
  rowCount : b.rowCount = t.rows.length
  size : b.columns.length = t.cols.length
  stored : ∀ (i : Nat) (p : String × FieldType), t.cols[i]? = some p → ∃ c extra,
    b.columns[i]? = some c ∧ ColumnBuilder.Stores c p.2 (t.column store p.1 p.2 ++ extra) ∧
      extra.length ≤ 1

/-- No row is being read, and the columns hold the table `t` up to cells that were left over. -/
structure Rests (b : TableBuilder) (t : Table) : Prop where
  trim : b.trim.Between t
  loose : b.Loose t

section Trim

variable {b b' : TableBuilder} {t : Table} {cur : CurrentRow}

/-! ## Writing a cell -/

/-- A cell that is left over is overwritten by the next value, as if it had not been there. -/
theorem overwrite_pop {c : ColumnBuilder} {n : Nat} (hc : c.Valid) (h : c.len ≤ n + 1)
    (value : Value) :
    overwrite n value (ColumnBuilder.pop^[c.len - n] c) = overwrite n value c := by
  by_cases hn : n < c.len
  · have hone : c.len - n = 1 := by omega
    have hpop := ColumnBuilder.len_pop hc
    rw [hone, Function.iterate_one, overwrite, overwrite, if_pos hn, if_neg (by omega)]
  · have hzero : c.len - n = 0 := by omega
    rw [hzero, Function.iterate_zero_apply]

/-- No column is more than one cell ahead. The one cell is that of the row that is open, or one left
over by a row that was rejected. -/
theorem Loose.len_le (h : b.Loose t) {c : ColumnBuilder} (hc : c ∈ b.columns) :
    c.Valid ∧ c.len ≤ b.rowCount + 1 := by
  obtain ⟨i, hi⟩ := List.mem_iff_getElem?.mp hc
  obtain ⟨p, hp⟩ : ∃ p, t.cols[i]? = some p :=
    ⟨_, List.getElem?_eq_getElem (h.size ▸ (List.getElem?_eq_some_iff.mp hi).1)⟩
  obtain ⟨c', extra, hc', hst, hle⟩ := h.stored i p hp
  obtain rfl : c = c' := Option.some.inj (hi.symm.trans hc')
  refine ⟨hst.valid, ?_⟩
  rw [hst.len_eq, List.length_append, RowTable.length_column, h.rowCount]
  omega

theorem Loose.congr (h : b.Loose t) (hcolumns : b'.columns = b.columns)
    (hrow : b'.rowCount = b.rowCount) : b'.Loose t :=
  ⟨hrow.trans h.rowCount, by rw [hcolumns]; exact h.size, by rw [hcolumns]; exact h.stored⟩

/-- A value that is written to a slot replaces the cell that is ahead. -/
theorem Loose.writeSlot (h : b.Loose t) (slot : Nat) (value : Value) :
    (b.writeSlot slot value).Loose t := by
  refine ⟨h.rowCount, ?_, fun i p hp => ?_⟩
  · show (b.columns.modify slot _).length = _
    rw [List.length_modify]
    exact h.size
  · obtain ⟨c, extra, hc, hst, hle⟩ := h.stored i p hp
    have hget : (b.writeSlot slot value).columns[i]? =
        if slot = i then some (overwrite b.rowCount value c) else some c := by
      show (b.columns.modify slot (overwrite b.rowCount value))[i]? = _
      rw [List.getElem?_modify, hc]
      split <;> rfl
    by_cases hi : slot = i
    · refine ⟨overwrite b.rowCount value c, [store p.2 value], by rw [hget, if_pos hi], ?_, le_rfl⟩
      have hlen : (t.column store p.1 p.2).length = b.rowCount := by
        rw [RowTable.length_column, h.rowCount]
      have hwrite := hst.overwrite b.rowCount value
      cases extra with
      | nil => rwa [List.append_nil, hlen, if_neg (Nat.lt_irrefl _)] at hwrite
      | cons x rest =>
          obtain rfl : rest = [] := by
            rw [List.length_cons] at hle
            exact List.eq_nil_of_length_eq_zero (by omega)
          rwa [List.length_append, hlen, List.length_singleton, if_pos (Nat.lt_succ_self _),
            List.dropLast_concat] at hwrite
    · exact ⟨c, extra, by rw [hget, if_neg hi], hst, hle⟩

/-- Writing a cell commutes with taking away the cells that were left over. -/
theorem Loose.trim_writeSlot (h : b.Loose t) (hroom : b.columns.length ≤ b.rowDirty.capacity)
    {slot : Nat} (hslot : slot < b.columns.length) (value : Value) :
    (b.writeSlot slot value).trim = b.trim.writeSlot slot value := by
  have hbit : ∀ i, (b.rowDirty.insert slot).test i = (decide (i = slot) || b.rowDirty.test i) :=
    fun i => WordSet.test_insert _ (Nat.lt_of_lt_of_le hslot hroom) i
  have hcolumns : (b.writeSlot slot value).trim.columns =
      (b.trim.writeSlot slot value).columns := by
    show (b.columns.modify slot (overwrite b.rowCount value)).mapIdx (fun i c =>
        if (b.rowDirty.insert slot).test i then c else ColumnBuilder.pop^[c.len - b.rowCount] c) =
      (b.columns.mapIdx _).modify slot (overwrite b.rowCount value)
    refine List.ext_getElem? fun i => ?_
    rw [List.getElem?_mapIdx, List.getElem?_modify, List.getElem?_modify, List.getElem?_mapIdx]
    cases hc : b.columns[i]? with
    | none => rfl
    | some c =>
        simp only [Option.map_some, hbit]
        by_cases hi : i = slot
        · subst hi
          simp only [decide_true, Bool.true_or, ↓reduceIte]
          split
          · rfl
          · obtain ⟨hvalid, hle⟩ := h.len_le (List.mem_of_getElem? hc)
            exact congrArg some (overwrite_pop hvalid hle value).symm
        · simp [hi, Ne.symm hi]
  show ({ b with
      rowDirty := b.rowDirty.insert slot
      columns := (b.writeSlot slot value).trim.columns } : TableBuilder) = _
  rw [hcolumns]
  rfl

/-- Trimming a builder without cells that are left over. All columns are as long as the table, so
that nothing is cut off. -/
theorem Between.trim_eq (h : b.Between t) : b.trim = b := by
  have hcolumns : b.trim.columns = b.columns := by
    refine List.ext_getElem? fun i => ?_
    show (b.columns.mapIdx _)[i]? = _
    rw [List.getElem?_mapIdx]
    cases hc : b.columns[i]? with
    | none => rfl
    | some c =>
        obtain ⟨p, hp⟩ : ∃ p, t.cols[i]? = some p := ⟨_, List.getElem?_eq_getElem
          (h.sound.holds.size ▸ (List.getElem?_eq_some_iff.mp hc).1)⟩
        have hlen := h.sound.holds.len_column hp hc
        have hzero : c.len - b.rowCount = 0 := by
          rw [hlen, h.rowCount]
          exact Nat.sub_self _
        rw [Option.map_some, hzero, Function.iterate_zero_apply, ite_self]
  show ({ b with columns := b.trim.columns } : TableBuilder) = b
  rw [hcolumns]

/-- A builder between rows whose columns are not ahead. -/
theorem Between.rests (h : b.Between t) : b.Rests t := by
  refine ⟨h.trim_eq.symm ▸ h, h.rowCount, h.sound.holds.size, fun i p hp => ?_⟩
  obtain ⟨c, hc, hst⟩ := h.sound.holds.stored i p hp
  exact ⟨c, _, hc, hst, Nat.zero_le 1⟩

/-! ## Between rows -/

/-- Truncating the columns leaves the table. -/
theorem Loose.storeTable (h : b.Loose t) : StoreTable b.normalize.columns t := by
  refine ⟨(List.length_map _).trans h.size, fun i p hp => ?_⟩
  obtain ⟨c, extra, hc, hst, -⟩ := h.stored i p hp
  refine ⟨ColumnBuilder.pop^[c.len - b.rowCount] c, ?_, ?_⟩
  · rw [normalize, List.getElem?_map, hc]
    rfl
  · have hpop := hst.popTo b.rowCount
    rwa [List.take_append_of_le_length (by rw [RowTable.length_column, h.rowCount]),
      List.take_of_length_le (by rw [RowTable.length_column, h.rowCount])] at hpop

/-- A builder whose row has ended rests at the table that its columns hold up to one cell. Trimming
the columns to the row count takes that cell off, and the next row overwrites it in every column
that it has a value for. -/
theorem Loose.rests {t' : Table} (h : b'.Loose t') (hs : b.trim.Sound t cur)
    (hnames : t'.names = t.names) (hsame : b.SameColumns b')
    (hclean : ∀ i, b'.rowDirty.test i = false)
    (hcap : b'.rowDirty.capacity = b.rowDirty.capacity)
    (hrowBuf : b'.rowBuf.isSome = b.rowBuf.isSome) : b'.Rests t' := by
  have hlen : b'.columns.length = b.columns.length := by
    have hkinds := congrArg List.length hsame.kinds
    rwa [kinds, kinds, List.length_map, List.length_map] at hkinds
  refine ⟨⟨⟨⟨?_, ?_, fun i p hp => ?_, fun i p _ => hclean i, fun i _ => hclean i, ?_, ?_⟩,
    ?_, ?_, ?_⟩, h.rowCount⟩, h⟩
  · show (b'.columns.mapIdx _).length = _
    rw [List.length_mapIdx]
    exact h.size
  · intro name i
    show b'.fieldIndex.lookup name = some i ↔ _
    rw [hsame.index, hnames]
    exact hs.holds.indexed name i
  · obtain ⟨c, hc, hst⟩ := h.storeTable.2 i p hp
    refine ⟨c, ?_, by rwa [pending_noRow, List.append_nil]⟩
    show (b'.columns.mapIdx _)[i]? = some c
    rw [normalize, List.getElem?_map] at hc
    rw [List.getElem?_mapIdx, hclean i]
    exact hc
  · show (b'.columns.mapIdx _).length ≤ b'.rowDirty.capacity
    have hroom := hs.holds.room
    rw [show b.trim.columns.length = b.columns.length from List.length_mapIdx] at hroom
    rw [List.length_mapIdx, hlen, hcap]
    exact hroom
  · intro name hname
    cases hname
  · show b'.columnOrder.Perm _
    rw [hsame.order, hnames]
    exact hs.order
  · show ∀ frozen, b'.frozen = some frozen → _
    rw [hsame.frozen, hnames]
    exact hs.known
  · show b'.rowBuf.isSome = b'.plan.filter.isSome
    rw [hrowBuf, hsame.plan]
    exact hs.rowBuf

/-! ## The null fill -/

/-- A cell of a column that holds the table and one cell more. -/
theorem getTypedValue_of_stores {c : ColumnBuilder} {ty : FieldType}
    {cells : List (Option TypedValue)} (h : c.Stores ty cells) (i : Nat) :
    c.getTypedValue i = cells[i]?.join := by
  rw [ColumnBuilder.getTypedValue, h.cells, at?]

/-- **The null fill shows what is left over.** A column of the row that is ended holds the table and
then the cell that was there: the value of the row, or else the cell a rejected row left. If the column
is ahead after it, it is by a null. -/
theorem nullFill_stores (hs : b.trim.Sound t cur) (h : b.Loose t) {i : Nat}
    {p : String × FieldType} (hp : t.cols[i]? = some p) :
    ∃ c c' extra, b.columns[i]? = some c ∧ b.nullFill.columns[i]? = some c' ∧
      ColumnBuilder.Stores c' p.2
        (t.column store p.1 p.2 ++ c.getTypedValue b.rowCount :: extra) ∧ extra.length ≤ 1 ∧
      extra[0]?.join = none ∧
      ((cur p.1).isSome → c.getTypedValue b.rowCount = cell store p.2 p.1 cur) := by
  obtain ⟨c, extra, hc, hst, hle⟩ := h.stored i p hp
  have hlen : (t.column store p.1 p.2).length = b.rowCount := by
    rw [RowTable.length_column, h.rowCount]
  have hlast : c.getTypedValue b.rowCount = extra[0]?.join := by
    rw [getTypedValue_of_stores hst, ← hlen, List.getElem?_append_right le_rfl, Nat.sub_self]
  have hbit : b.rowDirty.test i = (cur p.1).isSome := hs.holds.marked i p hp
  have hfill : b.nullFill.columns[i]? = some (if b.rowDirty.test i then c else c.push none) := by
    rw [nullFill]
    split
    · next hfull =>
      have hset := WordSet.test_of_isFull (by decide) hfull (List.getElem?_eq_some_iff.mp hc).1
      rw [if_pos hset]
      exact hc
    · show (b.columns.mapIdx _)[i]? = _
      rw [List.getElem?_mapIdx, hc]
      rfl
  cases hcur : cur p.1 with
  | some value =>
      -- the row has assigned the column, and its value is the last cell
      rw [hcur, Option.isSome_some] at hbit
      obtain ⟨c', hc', hst'⟩ := hs.holds.stored i p hp
      obtain rfl : c' = c := by
        have htrim : (b.columns.mapIdx _)[i]? = some c' := hc'
        rw [List.getElem?_mapIdx, hc, Option.map_some, hbit] at htrim
        exact (Option.some.inj htrim).symm
      rw [pending_some hcur] at hst'
      have hvalue : c'.getTypedValue b.rowCount = store p.2 value := by
        rw [getTypedValue_of_stores hst', ← hlen, List.getElem?_append_right le_rfl, Nat.sub_self]
        rfl
      refine ⟨c', c', [], hc, by rw [hfill, hbit]; rfl, ?_, Nat.zero_le 1, rfl, fun _ => ?_⟩
      · rwa [hvalue]
      · rw [hvalue, cell, hcur]
        rfl
  | none =>
      rw [hcur, Option.isSome_none] at hbit
      have hpush := hst.pushNull
      rw [List.append_assoc] at hpush
      have hfilled : b.nullFill.columns[i]? = some (c.push none) := by
        rw [hfill, hbit]
        rfl
      cases extra with
      | nil =>
          refine ⟨c, c.push none, [], hc, hfilled, ?_, Nat.zero_le 1, rfl,
            fun hsome => by cases hsome⟩
          rw [hlast]
          exact hpush
      | cons x rest =>
          obtain rfl : rest = [] := by
            rw [List.length_cons] at hle
            exact List.eq_nil_of_length_eq_zero (by omega)
          refine ⟨c, c.push none, [none], hc, hfilled, ?_, le_rfl, rfl, fun hsome => by cases hsome⟩
          rw [hlast]
          exact hpush

/-! ## The end of a row -/

/-- What a null fill changes of a builder. -/
theorem nullFill_frame (b : TableBuilder) : b.nullFill.columns.length = b.columns.length ∧
    (∀ i, b.nullFill.rowDirty.test i = false) ∧
    b.nullFill.rowDirty.capacity = b.rowDirty.capacity := by
  rw [nullFill]
  split
  · exact ⟨rfl, fun i => WordSet.test_clear _ i, WordSet.capacity_clear _⟩
  · exact ⟨List.length_mapIdx, fun i => WordSet.test_clear _ i, WordSet.capacity_clear _⟩

/-- A builder with a row more in which some column shows another cell than the row's. -/
def Leaks (b : TableBuilder) (t : Table) (cur : CurrentRow) : Prop :=
  ∃ (i : Nat) (p : String × FieldType) (c : ColumnBuilder), t.cols[i]? = some p ∧
    b.columns[i]? = some c ∧ c.Valid ∧ c.getTypedValue t.rows.length ≠ cell store p.2 p.1 cur

/-- No column without a value in the row is ahead with a value. -/
def Bare (b : TableBuilder) : Prop :=
  ∀ (i : Nat) (c : ColumnBuilder), b.columns[i]? = some c → b.rowDirty.test i = false →
    c.getTypedValue b.rowCount = none

/-- No column is ahead with a value. -/
def EmptyAhead (b : TableBuilder) : Prop := ∀ c ∈ b.columns, c.getTypedValue b.rowCount = none

/-- A row that is accepted is added to the table, if no column without a value in it is ahead with one;
and otherwise it shows what was left over. Nothing is left over after it. -/
theorem accept_nullFill (hs : b.trim.Sound t cur) (h : b.Loose t) :
    (b.Bare → b.nullFill.acceptRow.Rests (t.commit cur hs.holds.within)) ∧
      (¬ b.Bare → b.nullFill.acceptRow.Leaks t cur) ∧ b.nullFill.acceptRow.EmptyAhead := by
  obtain ⟨hlen, hclean, hcap⟩ := b.nullFill_frame
  refine ⟨fun hbare => ?_, fun hnot => ?_, fun c' hc' => ?_⟩
  · have hloose : b.nullFill.acceptRow.Loose (t.commit cur hs.holds.within) := by
      refine ⟨?_, hlen.trans h.size, fun i p hp => ?_⟩
      · show b.nullFill.rowCount + 1 = (t.rows ++ [cur]).length
        rw [nullFill_rowCount, h.rowCount, List.length_append, List.length_singleton]
      · obtain ⟨c, c', extra, hc, hc', hst, hle, -, hvalue⟩ := nullFill_stores hs h hp
        refine ⟨c', extra, hc', ?_, hle⟩
        -- without a leftover the cell at the row's position is the row's own value
        have hcell : c.getTypedValue b.rowCount = cell store p.2 p.1 cur := by
          cases hcur : cur p.1 with
          | some value => exact hvalue (by rw [hcur]; rfl)
          | none =>
              have hbit : b.rowDirty.test i = false := by
                have hbit := hs.holds.marked i p hp
                rwa [hcur] at hbit
              rw [hbare i c hc hbit, cell, hcur]
              rfl
        rw [RowTable.column_commit, List.append_assoc, ← hcell]
        exact hst
    exact hloose.rests hs rfl (b.quiet_nullFill.trans (quiet_acceptRow _)).toSameColumns hclean
      hcap (congrArg Option.isSome b.nullFill_rowBuf)
  · rw [Bare] at hnot
    push Not at hnot
    -- otherwise some column that the row does not write shows a cell of an earlier one
    obtain ⟨i, c₀, hc₀, hbit, hvalue⟩ := hnot
    obtain ⟨p, hp⟩ : ∃ p, t.cols[i]? = some p :=
      ⟨_, List.getElem?_eq_getElem (h.size ▸ (List.getElem?_eq_some_iff.mp hc₀).1)⟩
    obtain ⟨c, c', extra, hc, hc', hst, -, -, -⟩ := nullFill_stores hs h hp
    obtain rfl : c₀ = c := Option.some.inj (hc₀.symm.trans hc)
    have hnone : cur p.1 = none := by
      have hmark : b.rowDirty.test i = (cur p.1).isSome := hs.holds.marked i p hp
      rw [hbit] at hmark
      exact Option.isNone_iff_eq_none.mp (Option.isSome_eq_false_iff.mp hmark.symm)
    refine ⟨i, p, c', hp, hc', hst.valid, ?_⟩
    have hlen' : (t.column store p.1 p.2).length = t.rows.length := RowTable.length_column ..
    rw [getTypedValue_of_stores hst, List.getElem?_append_right hlen'.le, hlen', Nat.sub_self,
      cell, hnone]
    exact hvalue
  · obtain ⟨i, hi⟩ := List.mem_iff_getElem?.mp hc'
    obtain ⟨p, hp⟩ : ∃ p, t.cols[i]? = some p :=
      ⟨_, List.getElem?_eq_getElem (h.size ▸ hlen ▸ (List.getElem?_eq_some_iff.mp hi).1)⟩
    obtain ⟨c, c'', extra, -, hc'', hst, -, hnull, -⟩ := nullFill_stores hs h hp
    obtain rfl : c' = c'' := Option.some.inj (hi.symm.trans hc'')
    -- and no column has a cell beyond the row just accepted
    have hlen' : (t.column store p.1 p.2).length = b.rowCount := by
      rw [RowTable.length_column, h.rowCount]
    show c'.getTypedValue (b.nullFill.rowCount + 1) = none
    rw [nullFill_rowCount, getTypedValue_of_stores hst, ← hlen',
      List.getElem?_append_right (Nat.le_add_right _ 1), Nat.add_sub_cancel_left]
    exact hnull

/-- A row that is popped again leaves the table. The null fill makes all columns equally long, so
that the pop takes the row off each of them. -/
theorem reject_nullFill (hs : b.trim.Sound t cur) (h : b.Loose t) :
    b.nullFill.popRow.rejectRow.Rests t := by
  obtain ⟨hlen, hclean, hcap⟩ := b.nullFill_frame
  have hsize : (b.nullFill.columns.map ColumnBuilder.pop).length = b.columns.length := by
    rw [List.length_map, hlen]
  have hloose : b.nullFill.popRow.rejectRow.Loose t := by
    refine ⟨b.nullFill_rowCount.trans h.rowCount, hsize.trans h.size, fun i p hp => ?_⟩
    obtain ⟨c, c', extra, -, hc', hst, hle, -, -⟩ := nullFill_stores hs h hp
    refine ⟨c'.pop, (c.getTypedValue b.rowCount :: extra).dropLast, ?_, ?_, ?_⟩
    · show (b.nullFill.columns.map ColumnBuilder.pop)[i]? = _
      rw [List.getElem?_map, hc', Option.map_some]
    · have hpop := hst.pop
      rwa [List.dropLast_append_of_ne_nil (List.cons_ne_nil _ _)] at hpop
    · rw [List.length_dropLast, List.length_cons]
      omega
  exact hloose.rests hs rfl
    ((b.quiet_nullFill.trans (quiet_popRow _)).trans (quiet_rejectRow _)).toSameColumns hclean hcap
    (congrArg Option.isSome b.nullFill_rowBuf)

/-- A row that only clears the dirty mask leaves the table. -/
theorem reject_written (hs : b.trim.Sound t cur) (h : b.Loose t) :
    ({ b with rowDirty := b.rowDirty.clear } : TableBuilder).rejectRow.Rests t := by
  have hloose : ({ b with rowDirty := b.rowDirty.clear } : TableBuilder).rejectRow.Loose t :=
    h.congr rfl rfl
  exact hloose.rests hs rfl ⟨rfl, rfl, rfl, rfl, rfl⟩ (fun i => WordSet.test_clear _ i)
    (WordSet.capacity_clear _) rfl

/-- A change of the row buffer leaves the table. -/
theorem Rests.mapRowBuf (h : b.Rests t) (f : RowBuffer → RowBuffer) : (b.mapRowBuf f).Rests t := by
  refine ⟨⟨⟨h.trim.sound.holds, h.trim.sound.order, h.trim.sound.known, ?_⟩, h.trim.rowCount⟩,
    h.loose.congr rfl rfl⟩
  show (b.rowBuf.map f).isSome = b.plan.filter.isSome
  rw [Option.isSome_map]
  exact h.trim.sound.rowBuf

end Trim

end TableBuilder

end Rypipe
