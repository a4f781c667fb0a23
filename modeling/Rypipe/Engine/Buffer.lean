import Rypipe.Engine.Rows

/-! # The row buffer

What buffering, evaluating and draining do to a builder whose row is kept in the row buffer.
`Holding` describes such a builder: the buffered fields are the row in progress, apart from the values
that were written to slots, which are in the columns. `Buffered` is the case without such values. -/

namespace Rypipe

variable [Platform]

/-- The values a filter field reads from a row, through the plan. -/
def rowGet (plan : ExecutionPlan) (cur : CurrentRow) (field : String) : Option Value :=
  (plan.resolveField field).bind cur

/-- The values of a row in the columns and in the row buffer, which win. -/
def overlay (cells held : CurrentRow) : CurrentRow := fun name => (held name).or (cells name)

@[simp] theorem overlay_noRow (held : CurrentRow) : overlay noRow held = held :=
  funext fun _ => Option.or_none

/-- A value that is buffered. -/
theorem overlay_update_held (cells held : CurrentRow) (name : String) (value : Value) :
    overlay cells (Function.update held name (some value)) =
      Function.update (overlay cells held) name (some value) := by
  funext n
  by_cases hn : n = name
  · subst hn
    simp [overlay]
  · simp [overlay, hn]

/-- A value that goes to the columns, where none is buffered. -/
theorem overlay_update_cells (cells : CurrentRow) {held : CurrentRow} {name : String}
    (hname : held name = none) (value : Value) :
    overlay (Function.update cells name (some value)) held =
      Function.update (overlay cells held) name (some value) := by
  funext n
  by_cases hn : n = name
  · subst hn
    simp [overlay, hname]
  · simp [overlay, hn]

namespace TableBuilder

/-- The row in progress is in the row buffer as `cur`, apart from the values `cells`, which the columns
hold after the rows before it. -/
structure Holding (b : TableBuilder) (t : Table) (cells cur : CurrentRow) (buf : RowBuffer) :
    Prop where
  rowBuf : b.rowBuf = some buf
  worthwhile : buf.bufferWorthwhile = true
  direct : buf.direct = false
  sound : b.Sound t cells
  rowCount : b.rowCount = t.rows.length
  distinct : (buf.fields.map Prod.fst).Nodup
  fields : ∀ name, (b.fieldIndex.lookup name).bind (Assoc.get buf.fields) = cur name
  inRange : ∀ p ∈ buf.fields, p.1 < b.columns.length

/-- The row in progress is in the row buffer, and the columns hold the rows before it. -/
abbrev Buffered (b : TableBuilder) (t : Table) (cur : CurrentRow) (buf : RowBuffer) : Prop :=
  b.Holding t noRow cur buf

/-- The filter has passed: the row in progress is already in the columns and counted. -/
structure Drained (b : TableBuilder) (t : Table) (cur : CurrentRow) (buf : RowBuffer) : Prop where
  rowBuf : b.rowBuf = some buf
  worthwhile : buf.bufferWorthwhile = true
  direct : buf.direct = true
  sound : b.Sound t cur
  rowCount : b.rowCount = t.rows.length + 1

/-- The fields in the row buffer are the values of the row `held`, in a builder whose new columns
are back-filled up to the committed rows. -/
structure Staged (b : TableBuilder) (t : Table) (cur held : CurrentRow) (buf : RowBuffer) :
    Prop where
  rowBuf : b.rowBuf = some buf
  sound : b.Sound t cur
  back : b.backfill = t.rows.length
  distinct : (buf.fields.map Prod.fst).Nodup
  fields : ∀ name, (b.fieldIndex.lookup name).bind (Assoc.get buf.fields) = held name
  inRange : ∀ p ∈ buf.fields, p.1 < b.columns.length

/-- The row buffers agree on everything but the filter's slots. -/
structure SameFields (buf buf' : RowBuffer) : Prop where
  fields : buf'.fields = buf.fields
  direct : buf'.direct = buf.direct
  worthwhile : buf'.bufferWorthwhile = buf.bufferWorthwhile
  state : buf'.state = buf.state

/-- Two changes of the row buffer are one. -/
theorem mapRowBuf_mapRowBuf (b : TableBuilder) (f g : RowBuffer → RowBuffer) :
    (b.mapRowBuf f).mapRowBuf g = b.mapRowBuf (g ∘ f) := by
  simp [mapRowBuf]

/-- The change that does nothing changes nothing. -/
theorem mapRowBuf_id (b : TableBuilder) : b.mapRowBuf id = b := by
  simp [mapRowBuf]

/-- Building the mask only touches the filter's slots. -/
theorem buildPredicateMask_eq (b : TableBuilder) :
    ∃ f, b.buildPredicateMask = b.mapRowBuf f ∧ ∀ buf, SameFields buf (f buf) := by
  refine ⟨_, rfl, fun buf => ?_⟩
  split
  · exact ⟨rfl, rfl, rfl, rfl⟩
  · exact ⟨rfl, rfl, rfl, rfl⟩

/-- Marking a slot only touches the filter's slots: it changes the row buffer, and nothing in it
that belongs to the row. -/
theorem markPredicateSlot_eq (b : TableBuilder) (slot : Nat) :
    ∃ f, b.markPredicateSlot slot = b.mapRowBuf f ∧ ∀ buf, SameFields buf (f buf) := by
  have hid : ∀ buf : RowBuffer, SameFields buf (id buf) := fun buf => ⟨rfl, rfl, rfl, rfl⟩
  have hbuild : ∃ f, (if b.rowBuf.any fun buf => !buf.predicateMask.test slot &&
      buf.predNames.isEmpty then b.buildPredicateMask else b) = b.mapRowBuf f ∧
      ∀ buf, SameFields buf (f buf) := by
    split
    · exact b.buildPredicateMask_eq
    · exact ⟨id, b.mapRowBuf_id.symm, hid⟩
  obtain ⟨f, hf, hsame⟩ := hbuild
  rw [markPredicateSlot]
  split
  · exact ⟨id, b.mapRowBuf_id.symm, hid⟩
  · simp only [hf]
    split
    · exact ⟨f, rfl, hsame⟩
    · split
      · rw [mapRowBuf_mapRowBuf]
        refine ⟨_, rfl, fun buf => ?_⟩
        have h := hsame buf
        simp only [Function.comp_apply]
        split
        · exact ⟨h.fields, h.direct, h.worthwhile, h.state⟩
        · exact h
      · exact ⟨f, rfl, hsame⟩

/-- Staging a field buffers the value under the slot of its column. -/
theorem stageField_eq {b b₁ : TableBuilder} {resolved : String} {slot : Nat}
    (hens : b.ensureColumnIdx resolved = (b₁, slot)) (value : Value) :
    ∃ err g, b.stageField resolved value =
        ({ b₁ with strictError := err }.mapRowBuf g, slot) ∧
      ∀ buf, (g buf).fields = Assoc.put buf.fields slot value ∧ (g buf).direct = buf.direct ∧
        (g buf).bufferWorthwhile = buf.bufferWorthwhile ∧ (g buf).state = buf.state := by
  obtain ⟨f, hf, hsame⟩ := (b₁.recordStrictViolationAt slot value).markPredicateSlot_eq slot
  refine ⟨(b₁.recordStrictViolationAt slot value).strictError,
    (fun buf => { buf with fields := Assoc.put buf.fields slot value }) ∘ f, ?_, ?_⟩
  · rw [stageField, hens]
    simp only [hf, mapRowBuf_mapRowBuf]
    rfl
  · intro buf
    have h := hsame buf
    exact ⟨by simp [h.fields], h.direct, h.worthwhile, h.state⟩

/-- The evaluation reads the buffered fields, the index and the plan. -/
theorem evaluatePredicateState_congr {b b' : TableBuilder} (hplan : b'.plan = b.plan)
    (hindex : b'.fieldIndex = b.fieldIndex)
    (hfields : b'.rowBuf.map (·.fields) = b.rowBuf.map (·.fields)) :
    b'.evaluatePredicateState = b.evaluatePredicateState := by
  have hget : b'.getBufferedValue = b.getBufferedValue := by
    funext field
    rw [getBufferedValue, getBufferedValue, hplan, hindex]
    cases hb : b.rowBuf <;> cases hb' : b'.rowBuf <;> simp_all
  rw [evaluatePredicateState, evaluatePredicateState, hplan, hget]

/-- Evaluating a row stores the verdict on its buffered fields, and leaves those fields and the mode
of the row. -/
theorem evaluateRow_eq (b : TableBuilder) (slot : Nat) :
    ∃ g, b.evaluateRow slot = b.mapRowBuf g ∧ ∀ buf, (g buf).fields = buf.fields ∧
      (g buf).direct = buf.direct ∧ (g buf).bufferWorthwhile = buf.bufferWorthwhile ∧
      (g buf).state = b.evaluatePredicateState := by
  have hstate : (b.mapRowBuf fun buf =>
      { buf with predicateOrdinal := buf.predicateOrdinal.or (some slot) }).evaluatePredicateState =
      b.evaluatePredicateState := by
    refine evaluatePredicateState_congr rfl rfl ?_
    cases hb : b.rowBuf <;> simp [mapRowBuf, hb]
  refine ⟨(fun buf => { buf with state := b.evaluatePredicateState }) ∘ fun buf =>
    { buf with predicateOrdinal := buf.predicateOrdinal.or (some slot) }, ?_,
    fun buf => ⟨rfl, rfl, rfl, rfl⟩⟩
  simp only [evaluateRow, hstate, mapRowBuf_mapRowBuf]

/-- Staging a field assigns its name in the row that the buffer holds. The column is created or
found, its slot is marked if the filter reads it, and the last value that is staged for a slot is
the one that the evaluation and the drain will see. -/
theorem Staged.stageField {b : TableBuilder} {t : Table} {cur held : CurrentRow} {buf : RowBuffer}
    (h : b.Staged t cur held buf) {resolved : String} (value : Value)
    (hname : b.exactWithout resolved = none) :
    ∃ b' slot buf', b.stageField resolved value = (b', slot) ∧
      b'.Staged (t.declare resolved (b.plan.columnType resolved)) cur
        (Function.update held resolved (some value)) buf' ∧
      buf'.direct = buf.direct ∧ buf'.bufferWorthwhile = buf.bufferWorthwhile ∧
      buf'.state = buf.state ∧ b.Frame b' ∧ b'.unknownError = b.unknownError := by
  obtain ⟨b₁, slot, ty, heq, hs, hslot, hframe, hbuf, hunk⟩ :=
    h.sound.ensureColumnIdx h.back hname
  obtain ⟨err, g, hstage, hg⟩ := stageField_eq heq value
  obtain ⟨hgf, hgd, hgw, hgs⟩ := hg buf
  have hlook : ∀ name, b₁.fieldIndex.lookup name = some slot ↔ name = resolved := by
    intro name
    have hres : (t.declare resolved (b.plan.columnType resolved)).names[slot]? = some resolved := by
      rw [RowTable.names, List.getElem?_map, hslot]
      rfl
    rw [hs.holds.indexed, hres, Option.some.injEq, eq_comm]
  have hlt : slot < b₁.columns.length := hs.holds.lookup_lt ((hlook resolved).mpr rfl)
  have hbuf' : ({ b₁ with strictError := err }.mapRowBuf g).rowBuf = some (g buf) := by
    show b₁.rowBuf.map g = _
    rw [hbuf, h.rowBuf, Option.map_some]
  refine ⟨_, slot, g buf, hstage, ⟨hbuf', ?_, ?_, ?_, ?_, ?_⟩, hgd, hgw, hgs,
    ⟨hframe.rowCount, hframe.plan, hframe.frozen⟩, hunk⟩
  · refine ⟨hs.holds, hs.order, hs.known, ?_⟩
    show (b₁.rowBuf.map g).isSome = b₁.plan.filter.isSome
    rw [Option.isSome_map, hs.rowBuf]
  · have hback := h.back
    rw [TableBuilder.backfill, h.rowBuf] at hback
    rw [TableBuilder.backfill, hbuf', RowTable.rows_declare, ← hback]
    show (if (g buf).direct = true then b₁.rowCount - 1 else b₁.rowCount) = _
    rw [hgd, hframe.rowCount]
    rfl
  · rw [hgf]
    exact Assoc.nodup_put h.distinct slot value
  · intro name
    rw [hgf]
    show (b₁.fieldIndex.lookup name).bind _ = _
    by_cases hn : name = resolved
    · subst hn
      rw [(hlook name).mpr rfl, Function.update_self]
      simp [Assoc.get_put h.distinct]
    · -- the other names keep their slots, and the put is at another one
      have hsame : b₁.fieldIndex.lookup name = b.fieldIndex.lookup name := by
        refine Option.ext fun i => ?_
        rw [hs.holds.indexed, h.sound.holds.indexed]
        exact RowTable.getElem?_names_declare hn _ i
      rw [Function.update_of_ne hn, ← h.fields name]
      cases hi : b.fieldIndex.lookup name with
      | none => simp [hsame, hi]
      | some i =>
          have hne : i ≠ slot := by
            rintro rfl
            exact hn ((hlook name).mp (hsame.trans hi))
          simp [hsame, hi, Assoc.get_put h.distinct, hne]
  · intro p hp
    rw [hgf] at hp
    have hkey := (Assoc.mem_keys_put buf.fields slot value p.1).mp (List.mem_map_of_mem hp)
    rcases hkey with hkey | hkey
    · exact hkey ▸ hlt
    · obtain ⟨q, hq, hqp⟩ := List.mem_map.mp hkey
      have hle := (RowTable.cols_prefix_declare t resolved (b.plan.columnType resolved)).length_le
      rw [← hs.holds.size, ← h.sound.holds.size] at hle
      exact hqp ▸ lt_of_lt_of_le (h.inRange q hq) hle

/-- The filter reads the row that the buffer holds: the value under a field is that of the column
its name resolves to. -/
theorem Staged.getBufferedValue {b : TableBuilder} {t : Table} {cur held : CurrentRow}
    {buf : RowBuffer} (h : b.Staged t cur held buf) :
    b.getBufferedValue = rowGet b.plan held := by
  funext field
  rw [TableBuilder.getBufferedValue, h.rowBuf, rowGet]
  cases hres : b.plan.resolveField field with
  | none => rfl
  | some resolved =>
      rw [Option.bind_some, ← h.fields resolved]
      rfl

/-- The verdict on the row that the buffer holds. -/
theorem Staged.evaluatePredicateState {b : TableBuilder} {t : Table} {cur held : CurrentRow}
    {buf : RowBuffer} (h : b.Staged t cur held buf) {f : FilterPredicate}
    (hf : b.plan.filter = some f) :
    b.evaluatePredicateState = evalPredicate b.plan (rowGet b.plan held) f := by
  rw [TableBuilder.evaluatePredicateState, hf, h.getBufferedValue]

namespace Holding

variable {b : TableBuilder} {t : Table} {cells cur : CurrentRow} {buf : RowBuffer}

/-- There is a row buffer only with a filter. -/
theorem filter (h : b.Holding t cells cur buf) : b.plan.filter.isSome = true := by
  rw [← h.sound.rowBuf, h.rowBuf]
  rfl

/-- A builder that holds a row in its buffer is buffering. -/
theorem buffering (h : b.Holding t cells cur buf) : b.buffering = true := by
  rw [TableBuilder.buffering, h.filter, h.rowBuf]
  simp [h.worthwhile]

/-- A column that is created while the row is held is filled for the rows of the table. -/
theorem backfill (h : b.Holding t cells cur buf) : b.backfill = t.rows.length := by
  rw [TableBuilder.backfill, h.rowBuf]
  simp [h.direct, h.rowCount]

/-- The values in the row buffer are of columns of the table. -/
theorem within_held (h : b.Holding t cells cur buf) (name : String) (hn : (cur name).isSome) :
    name ∈ t.names := by
  rw [← h.fields name] at hn
  cases hlook : b.fieldIndex.lookup name with
  | none => simp [hlook] at hn
  | some i => exact List.mem_of_getElem? ((h.sound.holds.indexed name i).mp hlook)

/-- The buffer holds the row in progress. -/
theorem staged (h : b.Holding t cells cur buf) : b.Staged t cells cur buf :=
  ⟨h.rowBuf, h.sound, h.backfill, h.distinct, h.fields, h.inRange⟩

/-- The filter reads the row in progress. -/
theorem getBufferedValue (h : b.Holding t cells cur buf) : b.getBufferedValue = rowGet b.plan cur :=
  h.staged.getBufferedValue

/-- The verdict on the buffered row. -/
theorem evaluatePredicateState (h : b.Holding t cells cur buf) {f : FilterPredicate}
    (hf : b.plan.filter = some f) :
    b.evaluatePredicateState = evalPredicate b.plan (rowGet b.plan cur) f :=
  h.staged.evaluatePredicateState hf

/-- A change of the row buffer that keeps the fields keeps the row that is held, and so does one of
the verdict or of the marks. -/
theorem mapRowBuf (h : b.Holding t cells cur buf) {g : RowBuffer → RowBuffer}
    (hfields : (g buf).fields = buf.fields) (hdirect : (g buf).direct = buf.direct)
    (hworth : (g buf).bufferWorthwhile = buf.bufferWorthwhile) :
    (b.mapRowBuf g).Holding t cells cur (g buf) where
  rowBuf := by rw [TableBuilder.mapRowBuf, h.rowBuf, Option.map_some]
  worthwhile := hworth.trans h.worthwhile
  direct := hdirect.trans h.direct
  sound := by
    refine ⟨h.sound.holds, h.sound.order, h.sound.known, ?_⟩
    show (b.rowBuf.map g).isSome = b.plan.filter.isSome
    rw [Option.isSome_map, h.sound.rowBuf]
  rowCount := h.rowCount
  distinct := by rw [hfields]; exact h.distinct
  fields name := by rw [hfields]; exact h.fields name
  inRange p hp := h.inRange p (hfields ▸ hp)

/-- Staging a field assigns its name in the row in progress, and declares its column with the type
of the plan if it is new. -/
theorem stageField (h : b.Holding t cells cur buf) {resolved : String} (value : Value)
    (hname : b.exactWithout resolved = none) :
    ∃ b' slot buf', b.stageField resolved value = (b', slot) ∧
      b'.Holding (t.declare resolved (b.plan.columnType resolved)) cells
        (Function.update cur resolved (some value)) buf' ∧
      buf'.state = buf.state ∧ b.Frame b' ∧ b'.unknownError = b.unknownError := by
  obtain ⟨b', slot, buf', hstage, h', hdirect, hworth, hstate, hframe, hunk⟩ :=
    h.staged.stageField value hname
  refine ⟨b', slot, buf', hstage, ⟨h'.rowBuf, hworth.trans h.worthwhile, hdirect.trans h.direct,
    h'.sound, ?_, h'.distinct, h'.fields, h'.inRange⟩, hstate, hframe, hunk⟩
  rw [hframe.rowCount, h.rowCount, RowTable.rows_declare]

end Holding

/-- The row a drain loop leaves: the values still to be written win over the row before, unless
their slot has been written already. -/
def drainedRow (index : StrMap Nat) (seen : WordSet 64) (rest : List (Nat × Value))
    (cur : CurrentRow) : CurrentRow := fun name =>
  ((index.lookup name).bind fun slot =>
    if seen.test slot then none else (rest.find? fun p => p.1 == slot).map Prod.snd).or (cur name)

/-- What a drain changes of a builder. -/
structure DrainFrame (b b' : TableBuilder) : Prop where
  fieldIndex : b'.fieldIndex = b.fieldIndex
  columnOrder : b'.columnOrder = b.columnOrder
  rowCount : b'.rowCount = b.rowCount
  plan : b'.plan = b.plan
  frozen : b'.frozen = b.frozen
  rowBuf : b'.rowBuf = b.rowBuf
  unknownError : b'.unknownError = b.unknownError

/-- The drain loop writes the buffered row to the columns. It goes through the buffered values from
the last one back and skips slots it has seen, so each column gets the last value that was put for
it. By induction on the values that are left, with the set of the slots seen. -/
theorem drainFields_holds {b : TableBuilder} {t : Table} {cur : CurrentRow} (h : b.Holds t cur)
    (hrow : b.rowCount = t.rows.length) {seen : WordSet 64} {rest : List (Nat × Value)}
    (hrange : ∀ p ∈ rest, p.1 < b.columns.length) (hseen : b.columns.length ≤ seen.capacity) :
    (b.drainFields seen rest).Holds t (drainedRow b.fieldIndex seen rest cur) ∧
      DrainFrame b (b.drainFields seen rest) := by
  induction rest generalizing b cur seen with
  | nil =>
      have hcur : drainedRow b.fieldIndex seen [] cur = cur := by
        funext name
        cases hlook : b.fieldIndex.lookup name <;> simp [drainedRow, hlook]
      rw [hcur]
      exact ⟨h, rfl, rfl, rfl, rfl, rfl, rfl, rfl⟩
  | cons p rest ih =>
      obtain ⟨slot, value⟩ := p
      have hslot : slot < b.columns.length := hrange (slot, value) List.mem_cons_self
      have hrest : ∀ p ∈ rest, p.1 < b.columns.length := fun p hp =>
        hrange p (List.mem_cons_of_mem _ hp)
      rw [drainFields]
      split
      · next hdone =>
        -- the slot has been written by a later value
        have hcur : drainedRow b.fieldIndex seen ((slot, value) :: rest) cur =
            drainedRow b.fieldIndex seen rest cur := by
          funext name
          cases hlook : b.fieldIndex.lookup name with
          | none => simp [drainedRow, hlook]
          | some i =>
              by_cases hi : slot = i
              · subst hi
                simp [drainedRow, hlook, hdone]
              · simp [drainedRow, hlook, hi]
        rw [hcur]
        exact ih h hrow hrest hseen
      · next hnew =>
        have hslot' : slot < t.cols.length := by rw [← h.size]; exact hslot
        obtain ⟨q, hq⟩ : ∃ q, t.cols[slot]? = some q := ⟨_, List.getElem?_eq_getElem hslot'⟩
        have hwrite : ((b.writeSlot slot value).notifyPutField slot value).Holds t
            (Function.update cur q.1 (some value)) := h.write hq value (Or.inl hrow)
        have hlook : b.fieldIndex.lookup q.1 = some slot := h.lookup_of_cols hq
        have hcur : drainedRow b.fieldIndex seen ((slot, value) :: rest) cur =
            drainedRow b.fieldIndex (seen.insert slot) rest
              (Function.update cur q.1 (some value)) := by
          funext name
          by_cases hname : name = q.1
          · subst hname
            have hbit := WordSet.test_insert_self seen (lt_of_lt_of_le hslot hseen)
            simp [drainedRow, hlook, hnew, hbit]
          · cases hlook' : b.fieldIndex.lookup name with
            | none => simp [drainedRow, hlook', Function.update_of_ne hname]
            | some i =>
                have hi : i ≠ slot := by
                  rintro rfl
                  have hn := (h.indexed name i).mp hlook'
                  rw [(h.indexed q.1 i).mp hlook] at hn
                  exact hname (Option.some.inj hn).symm
                simp [drainedRow, hlook', Function.update_of_ne hname, Ne.symm hi,
                  WordSet.test_insert_ne seen hi]
        rw [hcur]
        have hlen : (b.columns.modify slot (overwrite b.rowCount value)).length =
            b.columns.length := by rw [List.length_modify]
        have hcap : (b.columns.modify slot (overwrite b.rowCount value)).length ≤
            (seen.insert slot).capacity := by rw [WordSet.capacity_insert, hlen]; exact hseen
        obtain ⟨hholds, hf⟩ := ih hwrite hrow (fun p hp => hlen.symm ▸ hrest p hp) hcap
        exact ⟨hholds, hf.fieldIndex, hf.columnOrder, hf.rowCount, hf.plan, hf.frozen, hf.rowBuf,
          hf.unknownError⟩

/-- The builder in which a drain runs: the dirty mask covers the columns. -/
def growDirty (b : TableBuilder) : TableBuilder :=
  { b with rowDirty := b.rowDirty.growFor b.columns.length }

/-- The builder with the buffered values written to its columns. -/
def withDrained (b : TableBuilder) (fields : List (Nat × Value)) : TableBuilder :=
  b.growDirty.drainFields (WordSet.empty.resize (max 1 ((b.columns.length + 63) / 64)))
    fields.reverse

/-- Writing a list of buffered values to the columns assigns them in the row in progress. -/
theorem Sound.withDrained {b : TableBuilder} {t : Table} {cells : CurrentRow} (h : b.Sound t cells)
    (hrow : b.rowCount = t.rows.length) {fields : List (Nat × Value)} {cur : CurrentRow}
    (hfields : ∀ name, (b.fieldIndex.lookup name).bind (Assoc.get fields) = cur name)
    (hrange : ∀ p ∈ fields, p.1 < b.columns.length) :
    (b.withDrained fields).Sound t (overlay cells cur) ∧ DrainFrame b (b.withDrained fields) := by
  generalize hw : max 1 ((b.columns.length + 63) / 64) = words
  have hwords : (b.columns.length + 63) / 64 ≤ words := hw ▸ le_max_right _ _
  have hgrow : b.growDirty.Holds t cells :=
    h.holds.congr_dirty (fun i => WordSet.test_growFor _ _ i)
      (WordSet.capacity_growFor (by decide) _ _)
  have hcap : b.columns.length ≤ ((WordSet.empty : WordSet 64).resize words).capacity := by
    rw [WordSet.capacity_resize]
    calc b.columns.length ≤ 64 * ((b.columns.length + 64 - 1) / 64) :=
          WordSet.le_mul_ceil (by decide) b.columns.length
      _ ≤ 64 * words := Nat.mul_le_mul_left 64 hwords
  rw [TableBuilder.withDrained, hw]
  have hrange' : ∀ p ∈ fields.reverse, p.1 < b.growDirty.columns.length := fun p hp =>
    hrange p (List.mem_reverse.mp hp)
  obtain ⟨hholds, hf⟩ := drainFields_holds hgrow hrow hrange' hcap
  -- at first no slot has been drained, so all values of the buffer reach their columns
  have hempty : ∀ i, ((WordSet.empty : WordSet 64).resize words).test i = false := by
    intro i
    rw [WordSet.test_resize _ (Nat.zero_le words), WordSet.test_empty]
  have hcur : drainedRow b.growDirty.fieldIndex (WordSet.empty.resize words) fields.reverse
      cells = overlay cells cur := by
    funext name
    rw [overlay, ← hfields name, drainedRow]
    simp only [hempty]
    rfl
  rw [hcur] at hholds
  refine ⟨⟨hholds, ?_, ?_, ?_⟩, hf.fieldIndex, hf.columnOrder, hf.rowCount, hf.plan, hf.frozen,
    hf.rowBuf, hf.unknownError⟩
  · rw [hf.columnOrder]
    exact h.order
  · rw [hf.frozen]
    exact h.known
  · rw [hf.rowBuf, hf.plan]
    exact h.rowBuf

/-- A drain that accepts the row commits it, or in the middle of the row leaves it in progress. -/
theorem drainBuffered_true (b : TableBuilder) {buf : RowBuffer} (hbuf : b.rowBuf = some buf) :
    b.drainBuffered true =
      (if buf.direct then b.withDrained buf.fields
        else (b.withDrained buf.fields).nullFill).acceptRow.clearBuffered := by
  rw [drainBuffered]
  split
  · next h => cases hbuf.symm.trans h
  · next buf' h =>
    obtain rfl : buf = buf' := Option.some.inj (hbuf.symm.trans h)
    rfl

/-- A drain that rejects the row only clears the row buffer. -/
theorem drainBuffered_false (b : TableBuilder) {buf : RowBuffer} (hbuf : b.rowBuf = some buf) :
    b.drainBuffered false =
      ({ b with rowDirty := b.rowDirty.clear } : TableBuilder).rejectRow.clearBuffered := by
  rw [drainBuffered]
  split
  · next h => cases hbuf.symm.trans h
  · next buf' h =>
    obtain rfl : buf = buf' := Option.some.inj (hbuf.symm.trans h)
    rfl

/-- Clearing the row buffer keeps what the columns hold. -/
theorem Sound.clearBuffered {b : TableBuilder} {t : Table} {cur : CurrentRow}
    (h : b.Sound t cur) : b.clearBuffered.Sound t cur := by
  refine ⟨h.holds, h.order, h.known, ?_⟩
  show (b.rowBuf.map _).isSome = b.plan.filter.isSome
  rw [Option.isSome_map]
  exact h.rowBuf

/-- Counting the row keeps what the columns hold. -/
theorem Sound.acceptRow {b : TableBuilder} {t : Table} {cur : CurrentRow} (h : b.Sound t cur) :
    b.acceptRow.Sound t cur := ⟨h.holds, h.order, h.known, h.rowBuf⟩

/-- Counting a rejected row keeps what the columns hold. -/
theorem Sound.rejectRow {b : TableBuilder} {t : Table} {cur : CurrentRow} (h : b.Sound t cur) :
    b.rejectRow.Sound t cur := ⟨h.holds, h.order, h.known, h.rowBuf⟩

/-- The null fill commits the row in progress: the table gets the row, and the next row starts with
no value. -/
theorem Sound.nullFill {b : TableBuilder} {t : Table} {cur : CurrentRow} (h : b.Sound t cur) :
    b.nullFill.Sound (t.commit cur h.holds.within) noRow := by
  have hframe : b.nullFill.columnOrder = b.columnOrder ∧ b.nullFill.frozen = b.frozen ∧
      b.nullFill.rowBuf = b.rowBuf ∧ b.nullFill.plan = b.plan := by
    rw [TableBuilder.nullFill]
    split <;> exact ⟨rfl, rfl, rfl, rfl⟩
  refine ⟨h.holds.nullFill, ?_, ?_, ?_⟩
  · rw [hframe.1]
    exact h.order
  · rw [hframe.2.1]
    exact h.known
  · rw [hframe.2.2.1, hframe.2.2.2]
    exact h.rowBuf

@[simp] theorem nullFill_rowCount (b : TableBuilder) : b.nullFill.rowCount = b.rowCount := by
  rw [TableBuilder.nullFill]
  split <;> rfl

@[simp] theorem nullFill_plan (b : TableBuilder) : b.nullFill.plan = b.plan := by
  rw [TableBuilder.nullFill]
  split <;> rfl

@[simp] theorem nullFill_frozen (b : TableBuilder) : b.nullFill.frozen = b.frozen := by
  rw [TableBuilder.nullFill]
  split <;> rfl

@[simp] theorem nullFill_rowBuf (b : TableBuilder) : b.nullFill.rowBuf = b.rowBuf := by
  rw [TableBuilder.nullFill]
  split <;> rfl

@[simp] theorem nullFill_fieldIndex (b : TableBuilder) : b.nullFill.fieldIndex = b.fieldIndex := by
  rw [TableBuilder.nullFill]
  split <;> rfl

@[simp] theorem nullFill_columnOrder (b : TableBuilder) :
    b.nullFill.columnOrder = b.columnOrder := by
  rw [TableBuilder.nullFill]
  split <;> rfl

/-- The row in progress assigns columns of the table. -/
theorem Holding.within {b : TableBuilder} {t : Table} {cells cur : CurrentRow} {buf : RowBuffer}
    (h : b.Holding t cells cur buf) (name : String) (hn : (overlay cells cur name).isSome) :
    name ∈ t.names := by
  rw [overlay, Option.isSome_or, Bool.or_eq_true] at hn
  exact hn.elim (h.within_held name) (h.sound.holds.within name)

/-- Accepting the buffered row commits it, on top of what was written to the columns by slot. -/
theorem Holding.accept {b : TableBuilder} {t : Table} {cells cur : CurrentRow} {buf : RowBuffer}
    (h : b.Holding t cells cur buf) :
    (b.drainBuffered true).Sound (t.commit (overlay cells cur) h.within) noRow ∧
      (b.drainBuffered true).rowCount = t.rows.length + 1 ∧
      (b.drainBuffered true).plan = b.plan ∧ (b.drainBuffered true).frozen = b.frozen := by
  obtain ⟨hs, hf⟩ := h.sound.withDrained h.rowCount h.fields h.inRange
  rw [drainBuffered_true b h.rowBuf, h.direct]
  refine ⟨hs.nullFill.acceptRow.clearBuffered, ?_, ?_, ?_⟩
  · show (TableBuilder.nullFill _).rowCount + 1 = _
    rw [nullFill_rowCount, hf.rowCount, h.rowCount]
  · show (TableBuilder.nullFill _).plan = _
    rw [nullFill_plan, hf.plan]
  · show (TableBuilder.nullFill _).frozen = _
    rw [nullFill_frozen, hf.frozen]

/-- Rejecting the buffered row leaves the rows before it; the columns that its fields have created
stay. -/
theorem Buffered.reject {b : TableBuilder} {t : Table} {cur : CurrentRow} {buf : RowBuffer}
    (h : b.Buffered t cur buf) :
    (b.drainBuffered false).Sound t noRow ∧ (b.drainBuffered false).rowCount = t.rows.length ∧
      (b.drainBuffered false).plan = b.plan ∧ (b.drainBuffered false).frozen = b.frozen := by
  rw [drainBuffered_false b h.rowBuf]
  have hclear : ({ b with rowDirty := b.rowDirty.clear } : TableBuilder).Holds t noRow := by
    refine h.sound.holds.congr_dirty (fun i => ?_) ?_
    · rw [WordSet.test_clear]
      exact (h.sound.holds.clean i).symm
    · rw [WordSet.capacity_clear]
      exact h.sound.holds.room
  have hs : ({ b with rowDirty := b.rowDirty.clear } : TableBuilder).Sound t noRow :=
    ⟨hclear, h.sound.order, h.sound.known, h.sound.rowBuf⟩
  exact ⟨hs.rejectRow.clearBuffered, h.rowCount, rfl, rfl⟩

/-- The filter has passed: the buffered row moves to the columns, which count it already. -/
theorem Holding.drainMidRow {b : TableBuilder} {t : Table} {cells cur : CurrentRow} {buf : RowBuffer}
    (h : b.Holding t cells cur buf) :
    ∃ buf', b.drainMidRow.Drained t (overlay cells cur) buf' ∧
      b.drainMidRow.Staged t (overlay cells cur) noRow buf' ∧
      buf'.state = .undecided ∧ b.drainMidRow.plan = b.plan ∧
      b.drainMidRow.frozen = b.frozen := by
  -- the flag does not matter to the columns
  have hs' : (b.mapRowBuf fun buf => { buf with direct := true }).Sound t cells := by
    refine ⟨h.sound.holds, h.sound.order, h.sound.known, ?_⟩
    show (b.rowBuf.map _).isSome = b.plan.filter.isSome
    rw [Option.isSome_map]
    exact h.sound.rowBuf
  have hbuf : (b.mapRowBuf fun buf => { buf with direct := true }).rowBuf =
      some { buf with direct := true } := by
    rw [TableBuilder.mapRowBuf, h.rowBuf, Option.map_some]
  -- the buffered values go to the columns, and the row is counted at once
  obtain ⟨hs, hf⟩ := hs'.withDrained h.rowCount h.fields h.inRange
  have heq := drainBuffered_true _ hbuf
  simp only [↓reduceIte] at heq
  rw [TableBuilder.drainMidRow, heq]
  generalize (b.mapRowBuf fun buf => { buf with direct := true }).withDrained buf.fields = d
    at hs hf
  have hsound := hs.acceptRow.clearBuffered
  have hrow : d.acceptRow.clearBuffered.rowCount = t.rows.length + 1 := by
    show d.rowCount + 1 = _
    rw [hf.rowCount]
    exact congrArg (· + 1) h.rowCount
  have hbuf' : d.acceptRow.clearBuffered.rowBuf =
      some { buf with fields := [], state := .undecided, direct := true } := by
    show d.rowBuf.map _ = _
    rw [hf.rowBuf, hbuf, Option.map_some]
  refine ⟨_, ⟨hbuf', h.worthwhile, rfl, hsound, hrow⟩, ⟨hbuf', hsound, ?_, List.nodup_nil, ?_, ?_⟩,
    rfl, hf.plan, hf.frozen⟩
  · rw [TableBuilder.backfill, hbuf', hrow]
    rfl
  · intro name
    cases d.acceptRow.clearBuffered.fieldIndex.lookup name <;> rfl
  · intro p hp
    cases hp

end TableBuilder

end Rypipe
