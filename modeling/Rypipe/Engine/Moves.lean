import Rypipe.Engine.Quiet

/-! # What a call counts

Seen from the counters and the observer, a call of the row interface takes four kinds of moves: it
works on the columns and the row buffer, calls a hook of the row, or counts the row as accepted or
rejected. -/

namespace Rypipe

section Moves

variable [Platform]

/-- The hook is one of a row: not the report of a finished chunk. -/
def Event.OfRow : Event → Prop
  | .chunkFinished _ _ _ => False
  | _ => True

namespace TableBuilder

/-- The builders agree on the plan, the counters and the hooks. -/
structure SameCounts (b b' : TableBuilder) : Prop where
  plan : b'.plan = b.plan
  rowCount : b'.rowCount = b.rowCount
  accepted : b'.rowsAccepted = b.rowsAccepted
  rejected : b'.rowsRejected = b.rowsRejected
  events : b'.events = b.events

/-- The moves of a call. -/
inductive Moves : TableBuilder → TableBuilder → Prop
  | inner {b b'} (h : SameCounts b b') : Moves b b'
  | hook {b} (e : Event) (h : e.OfRow) : Moves b (b.notify e)
  | accept {b} : Moves b b.acceptRow
  | reject {b} : Moves b b.rejectRow
  | trans {b b' b''} (h : Moves b b') (h' : Moves b' b'') : Moves b b''

variable {b b' : TableBuilder}

/-- Doing nothing is a move within the columns and the row buffer. -/
theorem Moves.refl (b : TableBuilder) : Moves b b := .inner ⟨rfl, rfl, rfl, rfl, rfl⟩

/-- A change of the row buffer counts nothing. -/
theorem moves_mapRowBuf (b : TableBuilder) (f : RowBuffer → RowBuffer) : Moves b (b.mapRowBuf f) :=
  .inner ⟨rfl, rfl, rfl, rfl, rfl⟩

/-- The null-fill counts nothing. -/
theorem moves_nullFill (b : TableBuilder) : Moves b b.nullFill := by
  rw [nullFill]
  split
  · exact .inner ⟨rfl, rfl, rfl, rfl, rfl⟩
  · exact .inner ⟨rfl, rfl, rfl, rfl, rfl⟩

/-- `on_put_field` is a hook of the row, where there is an observer. -/
theorem moves_notifyPutField (b : TableBuilder) (idx : Nat) (value : Value) :
    Moves b (b.notifyPutField idx value) := by
  rw [notifyPutField]
  split
  · exact .hook _ trivial
  · exact .refl b

/-- Writing a checked value. -/
theorem moves_write (b : TableBuilder) (idx : Nat) (value : Value) :
    Moves b (((b.recordStrictViolationAt idx value).notifyPutField idx value).writeSlot idx value) := by
  have hchecked : Moves b (b.recordStrictViolationAt idx value) := .inner ⟨rfl, rfl, rfl, rfl, rfl⟩
  exact (hchecked.trans (moves_notifyPutField _ idx value)).trans (.inner ⟨rfl, rfl, rfl, rfl, rfl⟩)

/-- `finish_row` moves within the columns and then counts the row, as accepted or as rejected. -/
theorem moves_finishRow (b : TableBuilder) : Moves b b.finishRow := by
  have hfill := b.moves_nullFill
  rw [finishRow]
  split
  · split
    · exact hfill.trans .accept
    · have hpop : Moves b.nullFill b.nullFill.popRow := .inner ⟨rfl, rfl, rfl, rfl, rfl⟩
      exact hfill.trans (hpop.trans .reject)
  · exact hfill.trans .accept

/-- The drain writes each held field and calls its hook, by induction on the fields. -/
theorem moves_drainFields (b : TableBuilder) (seen : WordSet 64) (fields : List (Nat × Value)) :
    Moves b (b.drainFields seen fields) := by
  induction fields generalizing b seen with
  | nil => exact .refl b
  | cons p fields ih =>
      rw [drainFields]
      split
      · exact ih b seen
      · have hwrite : Moves b (b.writeSlot p.1 p.2) := .inner ⟨rfl, rfl, rfl, rfl, rfl⟩
        exact (hwrite.trans (moves_notifyPutField _ p.1 p.2)).trans (ih _ _)

/-- `drain_buffered` counts the row as accepted after its writes, or as rejected without them. -/
theorem moves_drainBuffered (b : TableBuilder) (pass : Bool) : Moves b (b.drainBuffered pass) := by
  have hclear : ∀ b' : TableBuilder, Moves b' b'.clearBuffered := fun b' => b'.moves_mapRowBuf _
  cases hbuf : b.rowBuf with
  | none =>
      rw [drainBuffered, hbuf]
      exact .refl b
  | some buf =>
      cases pass with
      | true =>
          have hgrow : Moves b b.growDirty := .inner ⟨rfl, rfl, rfl, rfl, rfl⟩
          have hdrained : Moves b (b.withDrained buf.fields) := hgrow.trans (moves_drainFields _ _ _)
          rw [drainBuffered_true _ hbuf]
          split
          · exact (hdrained.trans .accept).trans (hclear _)
          · exact ((hdrained.trans (moves_nullFill _)).trans .accept).trans (hclear _)
      | false =>
          have hdirty : Moves b { b with rowDirty := b.rowDirty.clear } :=
            .inner ⟨rfl, rfl, rfl, rfl, rfl⟩
          rw [drainBuffered_false _ hbuf]
          exact (hdirty.trans .reject).trans (hclear _)

/-- `end_row` counts at most the row it ends; one that was drained in the middle is counted
already. -/
theorem moves_endRow (b : TableBuilder) : Moves b b.endRow := by
  rw [endRow]
  split
  · exact b.moves_finishRow
  · split
    · exact b.moves_drainBuffered true
    · split
      · exact b.moves_nullFill
      · exact b.moves_drainBuffered _

/-- `begin_row` calls its hook and resets the row. -/
theorem moves_beginRow (b : TableBuilder) : Moves b b.beginRow := by
  have hnotify : Moves b (b.notify (.beginRow b.rowCount)) := .hook _ trivial
  exact hnotify.trans (.inner ⟨rfl, rfl, rfl, rfl, rfl⟩)

/-- Creating a column counts nothing and calls no hook. -/
theorem moves_ensureColumnIdx (b : TableBuilder) (name : String) :
    Moves b (b.ensureColumnIdx name).1 := by
  rw [ensureColumnIdx]
  split
  · exact .refl b
  · split
    · exact .inner ⟨rfl, rfl, rfl, rfl, rfl⟩
    · exact .inner ⟨rfl, rfl, rfl, rfl, rfl⟩

/-- `push_field_resolved` creates the column, checks and writes the value and calls the hook; a name
that the layout refuses only sets the error. -/
theorem moves_pushFieldResolved (b : TableBuilder) (name : String) (value : Value) :
    Moves b (b.pushFieldResolved name value) := by
  rw [pushFieldResolved]
  split
  · exact .inner ⟨rfl, rfl, rfl, rfl, rfl⟩
  · have hensure := b.moves_ensureColumnIdx name
    dsimp only
    generalize b.ensureColumnIdx name = ensured at hensure ⊢
    have hchecked : Moves ensured.1 (ensured.1.recordStrictViolationAt ensured.2 value) :=
      .inner ⟨rfl, rfl, rfl, rfl, rfl⟩
    have hnotified := hchecked.trans (moves_notifyPutField _ ensured.2 value)
    exact (hensure.trans hnotified).trans (.inner ⟨rfl, rfl, rfl, rfl, rfl⟩)

/-- Buffering a field calls no hook yet: it is called when the row is drained. -/
theorem moves_stageField (b : TableBuilder) (name : String) (value : Value) :
    Moves b (b.stageField name value).1 := by
  have hensure := b.moves_ensureColumnIdx name
  rw [stageField]
  dsimp only
  generalize b.ensureColumnIdx name = ensured at hensure ⊢
  obtain ⟨f, hf, -⟩ :=
    (ensured.1.recordStrictViolationAt ensured.2 value).markPredicateSlot_eq ensured.2
  rw [hf]
  exact hensure.trans (.inner ⟨rfl, rfl, rfl, rfl, rfl⟩)

/-- The evaluation of the filter changes the row buffer only. -/
theorem moves_evaluateRow (b : TableBuilder) (slot : Nat) : Moves b (b.evaluateRow slot) := by
  obtain ⟨g, hg, -⟩ := b.evaluateRow_eq slot
  rw [hg]
  exact b.moves_mapRowBuf g

/-- The buffered path of a put stages its field and evaluates the row. -/
theorem moves_bufferField (b : TableBuilder) (name : String) (value : Value) :
    Moves b (b.bufferField name value) := by
  rw [bufferField]
  dsimp only
  split
  · exact (b.moves_stageField name value).trans (moves_evaluateRow _ _)
  · exact b.moves_stageField name value

/-- A put moves within the columns and the row buffer, calls hooks, and may count its row if it
drains it. -/
theorem moves_put (b : TableBuilder) (p : Put) : Moves b (b.put p) := by
  have hreport : ∀ message, Moves b (b.reportUnknown message) :=
    fun _ => .inner ⟨rfl, rfl, rfl, rfl, rfl⟩
  by_cases hbuf : b.buffering = true
  · cases p with
    | field raw value =>
        simp only [put, putField, hbuf, Bool.not_true, Bool.false_eq_true, if_false]
        split
        · exact .refl b
        · split
          · exact hreport _
          · exact b.moves_bufferField _ value
    | fieldResolved resolved value =>
        simp only [put, putFieldResolved, hbuf, Bool.not_true, Bool.false_eq_true, if_false]
        split
        · exact hreport _
        · exact b.moves_bufferField resolved value
    | resolveAndPut raw value =>
        simp only [put, resolveAndPut, hbuf, Bool.not_true, Bool.false_eq_true, if_false]
        split
        · exact .refl b
        · next resolved _ =>
          have hstage := b.moves_stageField resolved value
          split
          · exact hreport _
          · split
            · exact b.moves_pushFieldResolved resolved value
            · split
              · have heval := hstage.trans (moves_evaluateRow _ (b.stageField resolved value).2)
                split
                · exact (heval.trans (moves_mapRowBuf _ _)).trans (moves_drainBuffered _ true)
                · exact heval
              · exact hstage
  · rw [put_of_not_buffering (by simpa using hbuf)]
    split
    · exact b.moves_pushFieldResolved _ _
    · exact .refl b

/-- A put by slot calls the hook and writes the value. -/
theorem moves_putFieldAt (b : TableBuilder) (slot : Nat) (value : Value) :
    Moves b (b.putFieldAt slot value) := by
  rw [putFieldAt]
  split
  · exact .refl b
  · exact b.moves_write slot value

/-- **A call is made of moves.** By the cases of the call, each of which is a sequence of steps that
are moves. -/
theorem moves_call (b : TableBuilder) (c : Call) : Moves b (b.call c) := by
  cases c with
  | beginRow => exact b.moves_beginRow
  | put p => exact b.moves_put p
  | putFieldAt slot value => exact b.moves_putFieldAt slot value
  | putStrAt slot value =>
      show Moves b (b.putStrAt slot value)
      rw [putStrAt]
      split
      · exact b.moves_putFieldAt slot _
      · split
        · exact .refl b
        · have hchecked : Moves b (b.recordStrictViolationAt slot (.str value)) :=
            .inner ⟨rfl, rfl, rfl, rfl, rfl⟩
          have hnotified := hchecked.trans (moves_notifyPutField _ slot (.str value))
          exact hnotified.trans (.inner ⟨rfl, rfl, rfl, rfl, rfl⟩)
  | endRow => exact b.moves_endRow

end TableBuilder

end Moves

end Rypipe
