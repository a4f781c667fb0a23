import Rypipe.Engine.PutShape

/-! # Columns never fall behind the row count

In a run of complete rows through the name-based entry points a column can get more cells than rows
are counted, after a row that was drained in the middle, but never fewer. So truncating the columns
to the row count leaves every one of them with exactly that many cells. -/

namespace Rypipe

variable [Platform]

namespace ColumnBuilder

variable {c : ColumnBuilder}

/-- Overwriting the cell of the row after the first `rowCount`. -/
theorem Stores.overwrite {ty : FieldType} {cells : List (Option TypedValue)}
    (h : c.Stores ty cells) (rowCount : Nat) (value : Value) :
    (TableBuilder.overwrite rowCount value c).Stores ty
      ((if rowCount < cells.length then cells.dropLast else cells) ++ [store ty value]) := by
  rw [TableBuilder.overwrite, h.len_eq]
  split
  · exact h.pop.pushValue value
  · exact h.pushValue value

/-- Overwriting the cell of a row keeps a column valid. -/
theorem Valid.overwrite (hc : c.Valid) (rowCount : Nat) (value : Value) :
    (TableBuilder.overwrite rowCount value c).Valid :=
  ((stores_self hc).overwrite rowCount value).valid

/-- A column has the cell of the row after it was overwritten. -/
theorem lt_len_overwrite (hc : c.Valid) {n rowCount : Nat} (hn : n ≤ c.len) (hrow : n ≤ rowCount)
    (value : Value) : n < (TableBuilder.overwrite rowCount value c).len := by
  have hlen := ((stores_self hc).overwrite rowCount value).len_eq
  have hcells := length_cells c
  rw [List.length_append, List.length_singleton] at hlen
  split at hlen
  · rw [List.length_dropLast] at hlen
    omega
  · omega

/-- A missing cell at the end keeps a column valid. -/
theorem Valid.push_none (hc : c.Valid) : (c.push none).Valid := (stores_self hc).pushNull.valid

/-- It makes the column one cell longer. -/
theorem len_push_none (hc : c.Valid) : (c.push none).len = c.len + 1 := by
  rw [(stores_self hc).pushNull.len_eq, List.length_append, length_cells, List.length_singleton]

/-- Popping the last cell keeps a column valid. -/
theorem Valid.pop (hc : c.Valid) : c.pop.Valid := (stores_self hc).pop.valid

/-- It makes the column one cell shorter, if it has one. -/
theorem len_pop (hc : c.Valid) : c.pop.len = c.len - 1 := by
  rw [(stores_self hc).pop.len_eq, List.length_dropLast, length_cells]

end ColumnBuilder

namespace TableBuilder

/-- Between rows: valid columns with a cell for every counted row, and no dirty slot. -/
structure Tall (b : TableBuilder) : Prop where
  frozen : b.frozen = none
  armed : b.rowBuf.isSome = b.plan.filter.isSome
  valid : ∀ c ∈ b.columns, c.Valid
  tall : ∀ c ∈ b.columns, b.rowCount ≤ c.len
  clean : ∀ i, b.rowDirty.test i = false
  indexed : ∀ name i, b.fieldIndex.lookup name = some i → i < b.columns.length

/-- In a row: valid columns with a cell for every row counted before it, and for this one where
the slot is dirty. -/
structure Stacked (b : TableBuilder) : Prop where
  frozen : b.frozen = none
  armed : b.rowBuf.isSome = b.plan.filter.isSome
  counted : b.IsDirect → 0 < b.rowCount ∧ b.buffering = true
  valid : ∀ c ∈ b.columns, c.Valid
  tall : ∀ (i : Nat) c, b.columns[i]? = some c → b.backfill + (b.rowDirty.test i).toNat ≤ c.len
  unmarked : ∀ i, b.columns.length ≤ i → b.rowDirty.test i = false
  indexed : ∀ name i, b.fieldIndex.lookup name = some i → i < b.columns.length
  held : ∀ buf, b.rowBuf = some buf → ∀ p ∈ buf.fields, p.1 < b.columns.length

section Steps

variable {b : TableBuilder}

/-- In a row that was drained in the middle, the count already includes the row, so a new column is
filled for the rows before it. -/
theorem backfill_of_direct (h : b.IsDirect) : b.backfill = b.rowCount - 1 := if_pos h

/-- Otherwise a new column is filled for all rows that were counted. -/
theorem backfill_of_not_direct (h : ¬ b.IsDirect) : b.backfill = b.rowCount := if_neg h

/-- In either case no more than the row count. -/
theorem backfill_le (b : TableBuilder) : b.backfill ≤ b.rowCount := by
  rw [TableBuilder.backfill]
  split <;> omega

/-- The account of the columns reads the columns, their index, the counts, the modes and the bits of
a builder; another builder with the same ones is accounted for as well. -/
theorem Stacked.congr {b' : TableBuilder} (h : b.Stacked) (hcolumns : b'.columns = b.columns)
    (hindex : b'.fieldIndex = b.fieldIndex) (hcount : b'.rowCount = b.rowCount)
    (hplan : b'.plan = b.plan) (hdirty : b'.rowDirty = b.rowDirty)
    (hfrozen : b'.frozen = b.frozen) (hbuf : b'.rowBuf = b.rowBuf) : b'.Stacked := by
  have hback : b'.backfill = b.backfill := by
    rw [TableBuilder.backfill, TableBuilder.backfill, hbuf, hcount]
  refine ⟨hfrozen.trans h.frozen, ?_, ?_, ?_, ?_, ?_, ?_, ?_⟩
  · rw [hbuf, hplan]
    exact h.armed
  · rw [IsDirect, TableBuilder.buffering, hbuf, hcount, hplan]
    exact h.counted
  · rw [hcolumns]
    exact h.valid
  · rw [hcolumns, hback, hdirty]
    exact h.tall
  · rw [hcolumns, hdirty]
    exact h.unmarked
  · rw [hcolumns, hindex]
    exact h.indexed
  · rw [hcolumns, hbuf]
    exact h.held

/-- A new row is in no mode yet. -/
theorem not_isDirect_beginRow (b : TableBuilder) : ¬ b.beginRow.IsDirect := by
  show ¬ (b.rowBuf.map _).any _ = true
  cases b.rowBuf <;> simp

/-- Between rows no column is shorter than the row count, and `begin_row` starts the row in that
state. -/
theorem Tall.beginRow (h : b.Tall) : b.beginRow.Stacked where
  frozen := h.frozen
  armed := by
    show (b.rowBuf.map _).isSome = _
    rw [Option.isSome_map]
    exact h.armed
  counted hdirect := absurd hdirect b.not_isDirect_beginRow
  valid := h.valid
  tall i c hc := by
    rw [backfill_of_not_direct b.not_isDirect_beginRow]
    show b.rowCount + (b.rowDirty.test i).toNat ≤ _
    rw [h.clean]
    exact h.tall c (List.mem_of_getElem? hc)
  unmarked i _ := h.clean i
  indexed := h.indexed
  held buf hbuf p hp := by
    obtain ⟨buf₀, -, rfl⟩ := Option.map_eq_some_iff.mp hbuf
    cases hp

/-- Making sure of a column leaves the row buffer as it is. -/
theorem ensureColumnIdx_frame (b : TableBuilder) (name : String) :
    (b.ensureColumnIdx name).1.rowBuf = b.rowBuf ∧
      (b.ensureColumnIdx name).1.rowCount = b.rowCount ∧
      (b.ensureColumnIdx name).1.plan = b.plan ∧
      (b.ensureColumnIdx name).1.frozen = b.frozen := by
  rw [TableBuilder.ensureColumnIdx]
  split
  · exact ⟨rfl, rfl, rfl, rfl⟩
  · split <;> exact ⟨rfl, rfl, rfl, rfl⟩

/-- Making sure of a column keeps the columns tall: a new one is back-filled. In a row that was
drained in the middle the count is ahead by that row, and the back-fill is one less. -/
theorem Stacked.ensureColumnIdx (h : b.Stacked) (name : String) :
    (b.ensureColumnIdx name).1.Stacked ∧
      (b.ensureColumnIdx name).2 < (b.ensureColumnIdx name).1.columns.length := by
  rw [TableBuilder.ensureColumnIdx]
  cases hlook : b.fieldIndex.lookup name with
  | some idx => exact ⟨h, h.indexed name idx hlook⟩
  | none =>
      rw [exactWithout_of_frozen h.frozen]
      -- the new column is filled with nulls up to the row that is being written
      have hnew := (ColumnBuilder.ofType_stores (b.plan.columnType name)).pushNulls b.backfill
      have hlen : (b.createColumn name).columns.length = b.columns.length + 1 := by
        show (b.columns ++ [_]).length = _
        rw [List.length_append, List.length_singleton]
      refine ⟨⟨h.frozen, h.armed, h.counted, ?_, ?_, ?_, ?_, ?_⟩, hlen.symm ▸ Nat.lt_succ_self _⟩
      · intro c hc
        rcases List.mem_append.mp hc with hc | hc
        · exact h.valid c hc
        · rw [List.mem_singleton.mp hc]
          exact hnew.valid
      · intro i c hc
        -- a column is as tall as the rows that are complete, and one taller with its bit set
        show b.backfill + ((b.rowDirty.growFor _).test i).toNat ≤ c.len
        rw [WordSet.test_growFor]
        replace hc : (b.columns ++ [_])[i]? = some c := hc
        rw [List.getElem?_append] at hc
        split at hc
        · exact h.tall i c hc
        · next hi =>
          rw [h.unmarked i (Nat.le_of_not_lt hi)]
          rw [List.getElem?_singleton] at hc
          split at hc
          · cases hc
            rw [hnew.len_eq]
            simp
          · cases hc
      · intro i hi
        rw [hlen] at hi
        show (b.rowDirty.growFor _).test i = false
        rw [WordSet.test_growFor]
        exact h.unmarked i (by omega)
      · intro n i hn
        rw [hlen]
        replace hn : (b.fieldIndex.insert name b.columns.length).lookup n = some i := hn
        by_cases heq : n = name
        · subst heq
          rw [AList.lookup_insert, Option.some.injEq] at hn
          omega
        · rw [AList.lookup_insert_ne heq] at hn
          exact Nat.lt_succ_of_lt (h.indexed n i hn)
      · intro buf hbuf p hp
        rw [hlen]
        exact Nat.lt_succ_of_lt (h.held buf hbuf p hp)

/-- Writing a cell of the row keeps the columns tall. A column that already has a cell for the row
is popped first, so it is as long afterwards as before, and any other gets one cell longer. -/
theorem Stacked.writeSlot (h : b.Stacked) {idx : Nat} (hidx : idx < b.columns.length)
    (value : Value) : (b.writeSlot idx value).Stacked := by
  have hget : ∀ i, (b.writeSlot idx value).columns[i]? =
      if idx = i then (b.columns[i]?).map (overwrite b.rowCount value) else b.columns[i]? := by
    intro i
    show (b.columns.modify idx _)[i]? = _
    rw [List.getElem?_modify]
    split <;> simp
  have hlen : (b.writeSlot idx value).columns.length = b.columns.length :=
    List.length_modify _ _ _
  refine ⟨h.frozen, h.armed, h.counted, ?_, ?_, ?_, ?_, ?_⟩
  · intro c hc
    obtain ⟨i, hi⟩ := List.mem_iff_getElem?.mp hc
    rw [hget] at hi
    split at hi
    · obtain ⟨c₀, hc₀, rfl⟩ := Option.map_eq_some_iff.mp hi
      exact (h.valid c₀ (List.mem_of_getElem? hc₀)).overwrite _ _
    · exact h.valid c (List.mem_of_getElem? hi)
  · intro i c hi
    show b.backfill + ((b.rowDirty.insert idx).test i).toNat ≤ c.len
    rw [hget] at hi
    split at hi
    · obtain ⟨c₀, hc₀, rfl⟩ := Option.map_eq_some_iff.mp hi
      have hlt := ColumnBuilder.lt_len_overwrite (h.valid c₀ (List.mem_of_getElem? hc₀))
        (Nat.le_of_add_right_le (h.tall i c₀ hc₀)) b.backfill_le value
      have hbit := Bool.toNat_le ((b.rowDirty.insert idx).test i)
      omega
    -- all other columns are as tall as before
    · next hne =>
      rw [WordSet.test_insert_ne _ (Ne.symm hne)]
      exact h.tall i c hi
  · intro i hi
    rw [hlen] at hi
    show (b.rowDirty.insert idx).test i = false
    rw [WordSet.test_insert_ne _ (by omega)]
    exact h.unmarked i hi
  · rw [hlen]
    exact h.indexed
  · rw [hlen]
    exact h.held

/-- Pushing a value keeps the columns tall. -/
theorem Stacked.pushFieldResolved (h : b.Stacked) (name : String) (value : Value) :
    (b.pushFieldResolved name value).Stacked := by
  obtain ⟨hensure, hslot⟩ := h.ensureColumnIdx name
  rw [TableBuilder.pushFieldResolved, exactWithout_of_frozen h.frozen]
  dsimp only
  generalize b.ensureColumnIdx name = ensured at hensure hslot ⊢
  have hpushed : (((ensured.1.recordStrictViolationAt ensured.2 value).notifyPutField ensured.2
      value).recordOrdinal ensured.2 name).Stacked := hensure.congr rfl rfl rfl rfl rfl rfl rfl
  exact hpushed.writeSlot hslot value

/-- Writing a value under its name does not touch the row buffer. -/
theorem rowBuf_pushFieldResolved (hfrozen : b.frozen = none) (name : String) (value : Value) :
    (b.pushFieldResolved name value).rowBuf = b.rowBuf := by
  obtain ⟨hbuf, -, -, -⟩ := b.ensureColumnIdx_frame name
  rw [TableBuilder.pushFieldResolved, exactWithout_of_frozen hfrozen]
  dsimp only
  generalize b.ensureColumnIdx name = ensured at hbuf ⊢
  exact hbuf

/-- A value kept in the row buffer keeps the columns tall. Staging it may create its column, and the
drain that may follow writes each buffered value to a column that exists. -/
theorem Stacked.keep {b' : TableBuilder} {name : String} {value : Value} (h : b.Stacked)
    (hheld : b.Held name value b') :
    b'.Stacked ∧ (b'.IsDirect ↔ b.IsDirect) := by
  obtain ⟨err, g, rfl, hg⟩ := hheld.shape
  obtain ⟨hensure, hslot⟩ := h.ensureColumnIdx name
  have hsame : (b.ensureColumnIdx name).1.IsDirect ↔ b.IsDirect := by
    rw [IsDirect, IsDirect, (b.ensureColumnIdx_frame name).1]
  generalize (b.ensureColumnIdx name).1 = b₁ at hensure hslot hsame ⊢
  generalize (b.ensureColumnIdx name).2 = slot at hslot hg
  -- holding a value changes neither the mode of the row nor its backfill
  have hdirect : (({ b₁ with strictError := err } : TableBuilder).mapRowBuf g).IsDirect ↔
      b₁.IsDirect := by
    show (b₁.rowBuf.map g).any _ = true ↔ b₁.rowBuf.any _ = true
    cases b₁.rowBuf with
    | none => rfl
    | some buf => rw [Option.map_some, Option.any_some, Option.any_some, (hg buf).2.1]
  have hbuffering : (({ b₁ with strictError := err } : TableBuilder).mapRowBuf g).buffering =
      b₁.buffering := by
    show (b₁.plan.filter.isSome && (b₁.rowBuf.map g).all _) = (b₁.plan.filter.isSome && _)
    cases b₁.rowBuf with
    | none => rfl
    | some buf => rw [Option.map_some, Option.all_some, Option.all_some, (hg buf).2.2]
  have hback : (({ b₁ with strictError := err } : TableBuilder).mapRowBuf g).backfill =
      b₁.backfill := by
    by_cases h₁ : b₁.IsDirect
    · rw [backfill_of_direct h₁, backfill_of_direct (hdirect.mpr h₁)]
      rfl
    · rw [backfill_of_not_direct h₁, backfill_of_not_direct (mt hdirect.mp h₁)]
      rfl
  refine ⟨⟨hensure.frozen, ?_, fun hd => ?_, hensure.valid, ?_, hensure.unmarked, hensure.indexed,
    ?_⟩, hdirect.trans hsame⟩
  · show (b₁.rowBuf.map g).isSome = _
    rw [Option.isSome_map]
    exact hensure.armed
  · rw [hbuffering]
    exact hensure.counted (hdirect.mp hd)
  · intro i c hc
    rw [hback]
    exact hensure.tall i c hc
  · intro buf hbuf p hp
    obtain ⟨buf₀, hbuf₀, rfl⟩ := Option.map_eq_some_iff.mp hbuf
    rw [(hg buf₀).1] at hp
    -- the value held is for the slot just ensured, or was held before
    rcases Assoc.mem_put hp with rfl | hp
    · exact hslot
    · exact hensure.held buf₀ hbuf₀ p hp

/-- Writing buffered values keeps the columns tall. Each write brings its column to the row's
position and sets its bit, so a column with its bit has the cell of the row. -/
theorem Stacked.drainFields (h : b.Stacked) (seen : WordSet 64) {fields : List (Nat × Value)}
    (hfields : ∀ p ∈ fields, p.1 < b.columns.length) : (b.drainFields seen fields).Stacked := by
  induction fields generalizing b seen with
  | nil => exact h
  | cons p fields ih =>
      obtain ⟨hp, hrest⟩ := List.forall_mem_cons.mp hfields
      rw [TableBuilder.drainFields]
      split
      · exact ih h seen hrest
      · have hwrite := h.writeSlot hp p.2
        refine ih (b := (b.writeSlot p.1 p.2).notifyPutField p.1 p.2) ?_ _ ?_
        · exact ⟨hwrite.frozen, hwrite.armed, hwrite.counted, hwrite.valid, hwrite.tall,
            hwrite.unmarked, hwrite.indexed, hwrite.held⟩
        · intro q hq
          show q.1 < (b.columns.modify p.1 _).length
          rw [List.length_modify]
          exact hrest q hq

/-- The writes of a drain keep the columns up with the row count, when each held field is within the
columns. -/
theorem Stacked.withDrained (h : b.Stacked) {fields : List (Nat × Value)}
    (hfields : ∀ p ∈ fields, p.1 < b.columns.length) : (b.withDrained fields).Stacked := by
  refine Stacked.drainFields (b := b.growDirty) ?_ _ fun p hp => hfields p (List.mem_reverse.mp hp)
  refine ⟨h.frozen, h.armed, h.counted, h.valid, fun i c hc => ?_, fun i hi => ?_, h.indexed,
    h.held⟩
  · show b.backfill + ((b.rowDirty.growFor _).test i).toNat ≤ c.len
    rw [WordSet.test_growFor]
    exact h.tall i c hc
  · show (b.rowDirty.growFor _).test i = false
    rw [WordSet.test_growFor]
    exact h.unmarked i hi

/-- After null-filling every column has the cell of the row: the written ones had it before, and the
others get a null. No bit is left set. -/
theorem Stacked.nullFill (h : b.Stacked) :
    (∀ c ∈ b.nullFill.columns, c.Valid ∧ b.backfill < c.len) ∧
      (∀ i, b.nullFill.rowDirty.test i = false) ∧
      b.nullFill.columns.length = b.columns.length := by
  rw [TableBuilder.nullFill]
  split
  · next hfull =>
    refine ⟨fun c hc => ?_, fun i => WordSet.test_clear _ i, rfl⟩
    obtain ⟨i, hi⟩ := List.mem_iff_getElem?.mp hc
    have htall := h.tall i c hi
    rw [WordSet.test_of_isFull (by decide) hfull (List.getElem?_eq_some_iff.mp hi).1] at htall
    exact ⟨h.valid c hc, htall⟩
  · refine ⟨fun c hc => ?_, fun i => WordSet.test_clear _ i, List.length_mapIdx⟩
    obtain ⟨i, hi⟩ := List.mem_iff_getElem?.mp hc
    rw [List.getElem?_mapIdx] at hi
    obtain ⟨c₀, hc₀, rfl⟩ := Option.map_eq_some_iff.mp hi
    have hvalid := h.valid c₀ (List.mem_of_getElem? hc₀)
    have htall := h.tall i c₀ hc₀
    cases hbit : b.rowDirty.test i with
    | true =>
        rw [hbit] at htall
        rw [if_pos rfl]
        exact ⟨hvalid, htall⟩
    | false =>
        rw [hbit] at htall
        rw [if_neg Bool.false_ne_true]
        refine ⟨hvalid.push_none, ?_⟩
        rw [ColumnBuilder.len_push_none hvalid]
        exact Nat.lt_succ_of_le htall

/-- Draining writes columns and leaves the row buffer as it is, so it commutes with any change of
the buffer. -/
theorem drainFields_mapRowBuf (b : TableBuilder) (f : RowBuffer → RowBuffer) (seen : WordSet 64)
    (fields : List (Nat × Value)) :
    (b.mapRowBuf f).drainFields seen fields = (b.drainFields seen fields).mapRowBuf f := by
  induction fields generalizing b seen with
  | nil => rfl
  | cons p fields ih =>
      rw [TableBuilder.drainFields, TableBuilder.drainFields]
      split
      · exact ih b seen
      · exact ih ((b.writeSlot p.1 p.2).notifyPutField p.1 p.2) _

/-- Writing the buffered values to their columns leaves alone the row buffer, the row count and the
plan. -/
theorem withDrained_frame (b : TableBuilder) (fields : List (Nat × Value)) :
    (b.withDrained fields).rowBuf = b.rowBuf ∧ (b.withDrained fields).rowCount = b.rowCount ∧
      (b.withDrained fields).plan = b.plan := by
  have hfields : ∀ (fields : List (Nat × Value)) (b : TableBuilder) (seen : WordSet 64),
      (b.drainFields seen fields).rowBuf = b.rowBuf ∧
        (b.drainFields seen fields).rowCount = b.rowCount ∧
        (b.drainFields seen fields).plan = b.plan := by
    intro fields
    induction fields with
    | nil => exact fun b seen => ⟨rfl, rfl, rfl⟩
    | cons p fields ih =>
        intro b seen
        rw [TableBuilder.drainFields]
        split
        · exact ih b seen
        · exact ih ((b.writeSlot p.1 p.2).notifyPutField p.1 p.2) _
  exact hfields _ b.growDirty _

/-- Draining in the middle of the row writes the columns, and counts the row. -/
theorem drainMidRow_eq {buf : RowBuffer} (hbuf : b.rowBuf = some buf) :
    b.drainMidRow =
      ((b.withDrained buf.fields).mapRowBuf fun buf => { buf with direct := true
        }).acceptRow.clearBuffered := by
  have hset : (b.mapRowBuf fun buf => { buf with direct := true }).rowBuf =
      some { buf with direct := true } := by
    rw [TableBuilder.mapRowBuf, hbuf]
    rfl
  rw [drainMidRow, drainBuffered_true _ hset, if_pos rfl]
  congr 2
  exact drainFields_mapRowBuf b.growDirty _ _ _

/-- A mid-row drain keeps the columns tall. It writes the buffered values and counts the row, and
from then on a column without a value in the row is one cell behind the count, until the null-fill
at the end. -/
theorem Stacked.drainMidRow (h : b.Stacked) (hbuffering : b.buffering = true)
    (hdirect : ¬ b.IsDirect) : b.drainMidRow.Stacked ∧ b.drainMidRow.IsDirect := by
  obtain ⟨buf, hbuf⟩ : ∃ buf, b.rowBuf = some buf := by
    rw [TableBuilder.buffering, Bool.and_eq_true, ← h.armed] at hbuffering
    exact Option.isSome_iff_exists.mp hbuffering.1
  have hdrained := h.withDrained (h.held buf hbuf)
  obtain ⟨hbuf', hcount, hplan⟩ := b.withDrained_frame buf.fields
  have hback := backfill_of_not_direct (b := b.withDrained buf.fields)
    (by rwa [IsDirect, hbuf'])
  rw [drainMidRow_eq hbuf]
  generalize b.withDrained buf.fields = d at hdrained hbuf' hcount hplan hback ⊢
  -- the drained row is counted at once, and its buffer is empty and direct
  have hset : ((d.mapRowBuf fun buf => { buf with direct := true }).acceptRow.clearBuffered).rowBuf =
      some { buf with direct := true, fields := [], state := .undecided } := by
    show Option.map _ (Option.map _ d.rowBuf) = _
    rw [hbuf', hbuf]
    rfl
  have hisDirect :
      ((d.mapRowBuf fun buf => { buf with direct := true }).acceptRow.clearBuffered).IsDirect := by
    rw [IsDirect, hset]
    rfl
  have hback' :
      ((d.mapRowBuf fun buf => { buf with direct := true }).acceptRow.clearBuffered).backfill =
        d.backfill := by
    rw [backfill_of_direct hisDirect, hback]
    rfl
  refine ⟨⟨hdrained.frozen, ?_, fun _ => ⟨Nat.succ_pos _, ?_⟩, hdrained.valid, ?_,
    hdrained.unmarked, hdrained.indexed, ?_⟩, hisDirect⟩
  · rw [hset]
    have harmed := hdrained.armed
    rw [hbuf', hbuf] at harmed
    exact harmed
  · rw [TableBuilder.buffering, hset]
    rw [TableBuilder.buffering, hbuf, ← hplan] at hbuffering
    exact hbuffering
  · rw [hback']
    exact hdrained.tall
  · rw [hset]
    rintro _ ⟨⟩ p hp
    cases hp

/-- A put that is held in the row buffer leaves the builder buffering. -/
theorem Held.buffering {b' : TableBuilder} {name : String} {value : Value}
    (h : b.Held name value b') : b'.buffering = b.buffering := by
  obtain ⟨err, g, rfl, hg⟩ := h.shape
  obtain ⟨hbuf, -, hplan, -⟩ := b.ensureColumnIdx_frame name
  show ((b.ensureColumnIdx name).1.plan.filter.isSome &&
    ((b.ensureColumnIdx name).1.rowBuf.map g).all _) = _
  rw [TableBuilder.buffering, hplan, hbuf]
  cases b.rowBuf with
  | none => rfl
  | some buf => rw [Option.map_some, Option.all_some, Option.all_some, (hg buf).2.2]

/-- A put that drains the row. -/
theorem Stacked.drainHeld (h : b.Stacked) {name : String} {value : Value} {b' : TableBuilder}
    (hheld : b.Held name value b') (hbuffering : b.buffering = true) (hdirect : ¬ b.IsDirect) :
    b'.drainMidRow.Stacked ∧ b'.drainMidRow.IsDirect := by
  obtain ⟨hstacked, hsame⟩ := h.keep hheld
  exact hstacked.drainMidRow (hheld.buffering.trans hbuffering) (mt hsame.mp hdirect)

/-- **A put keeps the columns tall**, and a row that was drained in the middle stays so. -/
theorem Stacked.put (h : b.Stacked) (p : Put) :
    (b.put p).Stacked ∧ (b.IsDirect → (b.put p).IsDirect) := by
  cases htarget : p.target b.plan with
  | none =>
      rw [put_of_dropped htarget]
      exact ⟨h, id⟩
  | some name =>
      cases put_shape h.frozen htarget with
      | pushed _ heq =>
          rw [heq]
          refine ⟨h.pushFieldResolved name p.value, fun hdirect => ?_⟩
          rw [IsDirect, rowBuf_pushFieldResolved h.frozen]
          exact hdirect
      | held _ hheld =>
          obtain ⟨hstacked, hsame⟩ := h.keep hheld
          exact ⟨hstacked, hsame.mpr⟩
      | drained hbuffering hdirect b' hheld heq =>
          rw [heq]
          obtain ⟨hdrained, hisDirect⟩ := h.drainHeld hheld hbuffering hdirect
          exact ⟨hdrained, fun _ => hisDirect⟩

/-- Counting the row once every column has its cell: all columns then have as many cells as there
are rows. -/
theorem Stacked.accept (h : b.Stacked) (hdirect : ¬ b.IsDirect) :
    b.nullFill.acceptRow.Tall := by
  obtain ⟨hfill, hclean, hlength⟩ := h.nullFill
  rw [backfill_of_not_direct hdirect, ← nullFill_rowCount] at hfill
  refine ⟨b.nullFill_frozen.trans h.frozen, ?_, fun c hc => (hfill c hc).1,
    fun c hc => (hfill c hc).2, hclean, ?_⟩
  · show b.nullFill.rowBuf.isSome = b.nullFill.plan.filter.isSome
    rw [nullFill_rowBuf, nullFill_plan]
    exact h.armed
  · show ∀ name i, b.nullFill.fieldIndex.lookup name = some i → i < b.nullFill.columns.length
    rw [nullFill_fieldIndex, hlength]
    exact h.indexed

/-- A rejected row has its cell popped off every column again, so that the columns are as tall as
the rows before it. -/
theorem Stacked.reject (h : b.Stacked) (hdirect : ¬ b.IsDirect) :
    b.nullFill.popRow.rejectRow.Tall := by
  obtain ⟨hfill, hclean, hlength⟩ := h.nullFill
  rw [backfill_of_not_direct hdirect, ← nullFill_rowCount] at hfill
  have hpop : ∀ c ∈ b.nullFill.popRow.columns, c.Valid ∧ b.nullFill.rowCount ≤ c.len := by
    intro c hc
    obtain ⟨c₀, hc₀, rfl⟩ := List.mem_map.mp hc
    obtain ⟨hvalid, hlt⟩ := hfill c₀ hc₀
    refine ⟨hvalid.pop, ?_⟩
    rw [ColumnBuilder.len_pop hvalid]
    omega
  refine ⟨b.nullFill_frozen.trans h.frozen, ?_, fun c hc => (hpop c hc).1,
    fun c hc => (hpop c hc).2, hclean, ?_⟩
  · show b.nullFill.rowBuf.isSome = b.nullFill.plan.filter.isSome
    rw [nullFill_rowBuf, nullFill_plan]
    exact h.armed
  · intro name i hi
    show i < (b.nullFill.columns.map ColumnBuilder.pop).length
    rw [List.length_map, hlength]
    refine h.indexed name i ?_
    rw [← nullFill_fieldIndex]
    exact hi

/-- Clearing the row buffer at the end of a drain. -/
theorem Tall.clearBuffered (h : b.Tall) : b.clearBuffered.Tall := by
  refine ⟨h.frozen, ?_, h.valid, h.tall, h.clean, h.indexed⟩
  show (b.rowBuf.map _).isSome = _
  rw [Option.isSome_map]
  exact h.armed

/-- **`end_row` leaves every column with a cell for each counted row.** The cases are the modes of
the row: it is null-filled and counted, or popped, or drained, or dropped from the buffer, or only
null-filled when it was counted in the middle. -/
theorem Stacked.endRow (h : b.Stacked) : b.endRow.Tall := by
  rw [TableBuilder.endRow]
  by_cases hbuffering : b.buffering = true
  · obtain ⟨buf, hbuf⟩ : ∃ buf, b.rowBuf = some buf := by
      have hsome := hbuffering
      rw [TableBuilder.buffering, Bool.and_eq_true, ← h.armed] at hsome
      exact Option.isSome_iff_exists.mp hsome.1
    simp only [hbuffering, Bool.not_true, Bool.false_eq_true, ↓reduceIte, hbuf]
    by_cases hdirect : buf.direct = true
    · -- the row is counted already
      have hisDirect : b.IsDirect := by
        rw [IsDirect, hbuf]
        exact hdirect
      obtain ⟨hfill, hclean, hlength⟩ := h.nullFill
      rw [backfill_of_direct hisDirect] at hfill
      rw [if_pos hdirect, nullFillMissing]
      refine ⟨b.nullFill_frozen.trans h.frozen, ?_, fun c hc => (hfill c hc).1, fun c hc => ?_,
        hclean, ?_⟩
      · rw [nullFill_rowBuf, nullFill_plan]
        exact h.armed
      · have hlt := (hfill c hc).2
        rw [nullFill_rowCount]
        omega
      · rw [nullFill_fieldIndex, hlength]
        exact h.indexed
    · have hisDirect : ¬ b.IsDirect := by
        rw [IsDirect, hbuf]
        exact hdirect
      rw [if_neg hdirect]
      generalize decide (_ = Verdict.pass) = pass
      cases pass with
      | true =>
          have hdrained := h.withDrained (h.held buf hbuf)
          rw [drainBuffered_true _ hbuf, if_neg hdirect]
          refine (hdrained.accept ?_).clearBuffered
          rwa [IsDirect, (b.withDrained_frame buf.fields).1]
      | false =>
          rw [drainBuffered_false _ hbuf]
          refine Tall.clearBuffered ⟨h.frozen, h.armed, h.valid, fun c hc => ?_,
            fun i => WordSet.test_clear _ i, h.indexed⟩
          obtain ⟨i, hi⟩ := List.mem_iff_getElem?.mp hc
          have htall := h.tall i c hi
          rw [backfill_of_not_direct hisDirect] at htall
          exact Nat.le_of_add_right_le htall
  · have hisDirect : ¬ b.IsDirect := fun hd => hbuffering (h.counted hd).2
    have haccept := h.accept hisDirect
    have hreject := h.reject hisDirect
    have hbuffering : b.buffering = false := by simpa using hbuffering
    simp only [hbuffering, Bool.not_false, ↓reduceIte, finishRow]
    split
    · split
      · exact haccept
      · exact hreject
    · exact haccept

/-- A list of puts keeps the columns tall. -/
theorem Stacked.putAll (h : b.Stacked) (puts : List Put) :
    (b.putAll puts).Stacked ∧ (b.IsDirect → (b.putAll puts).IsDirect) := by
  induction puts generalizing b with
  | nil => exact ⟨h, id⟩
  | cons p puts ih =>
      obtain ⟨hput, hdirect⟩ := h.put p
      obtain ⟨hrest, hdirect'⟩ := ih hput
      exact ⟨hrest, hdirect' ∘ hdirect⟩

/-- **A complete row leaves every column with a cell for each counted row**, whatever its puts. -/
theorem Tall.row (h : b.Tall) (puts : List Put) : (b.row puts).Tall :=
  (h.beginRow.putAll puts).1.endRow

/-- Complete rows leave every column with a cell for each counted row. -/
theorem Tall.feed (h : b.Tall) (rows : List (List Put)) : (b.feed rows).Tall := by
  induction rows generalizing b with
  | nil => exact h
  | cons puts rows ih => exact ih (h.row puts)

/-- A builder that describes a table has a cell for each of its rows in every column. -/
theorem Between.toTall {t : Table} (h : b.Between t) (hfrozen : b.frozen = none) : b.Tall := by
  have hcolumn : ∀ c ∈ b.columns, c.Valid ∧ b.rowCount ≤ c.len := by
    intro c hc
    obtain ⟨i, hi⟩ := List.mem_iff_getElem?.mp hc
    have hlt : i < t.cols.length := by
      rw [← h.sound.holds.size]
      exact (List.getElem?_eq_some_iff.mp hi).1
    obtain ⟨c', hc', hst⟩ := h.sound.holds.stored i _ (List.getElem?_eq_getElem hlt)
    obtain rfl : c = c' := Option.some.inj (hi.symm.trans hc')
    refine ⟨hst.valid, ?_⟩
    rw [h.rowCount, hst.len_eq, List.length_append, RowTable.length_column]
    exact Nat.le_add_right _ _
  exact ⟨hfrozen, h.sound.rowBuf, fun c hc => (hcolumn c hc).1, fun c hc => (hcolumn c hc).2,
    h.sound.holds.clean, fun name i hi => h.sound.holds.lookup_lt hi⟩

/-- A new builder has no row. -/
theorem tall_withPlan (plan : ExecutionPlan) : (withPlan plan).Tall :=
  (between_withPlan plan).toTall (withPlan_frame plan).2

end Steps

end TableBuilder

end Rypipe
