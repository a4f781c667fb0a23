import Rypipe.Engine.Quiet
import Rypipe.Engine.Runs

/-! # What one put does, by its mode

Every put of an output name makes sure of the column and then pushes the value, or keeps it in the
row buffer, or keeps it there and drains the row because the filter has passed. The three shapes are
all that the accounts of whole runs need of the entry points. -/

namespace Rypipe

namespace TableBuilder

section Shapes

variable [Platform] {b : TableBuilder}

/-- The row in progress has been drained in the middle. -/
def IsDirect (b : TableBuilder) : Prop := b.rowBuf.any (·.direct) = true

/-- The builder with the column `name` and the value in the row buffer. -/
structure Held (b : TableBuilder) (name : String) (value : Value) (b' : TableBuilder) : Prop where
  shape : ∃ err g, b' = { (b.ensureColumnIdx name).1 with strictError := err }.mapRowBuf g ∧
    ∀ buf : RowBuffer,
      (g buf).fields = Assoc.put buf.fields (b.ensureColumnIdx name).2 value ∧
        (g buf).direct = buf.direct ∧ (g buf).bufferWorthwhile = buf.bufferWorthwhile

/-- What a put of the output name `name` comes to. -/
inductive PutShape (b : TableBuilder) (p : Put) (name : String) : Prop
  /-- The value goes to the column. -/
  | pushed (h : b.buffering = false ∨ b.IsDirect ∧ ∃ raw value, p = .resolveAndPut raw value)
      (heq : b.put p = b.pushFieldResolved name p.value)
  /-- The value is kept in the row buffer. -/
  | held (hbuf : b.buffering = true) (h : b.Held name p.value (b.put p))
  /-- The filter has passed: the row buffer is drained. -/
  | drained (hbuf : b.buffering = true) (hdirect : ¬ b.IsDirect) (b' : TableBuilder)
      (h : b.Held name p.value b') (heq : b.put p = b'.drainMidRow)

theorem held_stageField (b : TableBuilder) (name : String) (value : Value) :
    b.Held name value (b.stageField name value).1 ∧
      (b.stageField name value).2 = (b.ensureColumnIdx name).2 := by
  obtain ⟨err, g, heq, hg⟩ := @stageField_eq _ b _ name _ rfl value
  rw [heq]
  exact ⟨⟨err, g, rfl, fun buf => ⟨(hg buf).1, (hg buf).2.1, (hg buf).2.2.1⟩⟩, rfl⟩

/-- Evaluating the filter only changes the row buffer. -/
theorem Held.evaluateRow {b' : TableBuilder} {name : String} {value : Value}
    (h : b.Held name value b') (slot : Nat) : b.Held name value (b'.evaluateRow slot) := by
  obtain ⟨err, g, rfl, hg⟩ := h.shape
  obtain ⟨g', heq, hg'⟩ := evaluateRow_eq
    ({ (b.ensureColumnIdx name).1 with strictError := err }.mapRowBuf g) slot
  refine ⟨err, g' ∘ g, by rw [heq, mapRowBuf_mapRowBuf], fun buf => ?_⟩
  obtain ⟨hfields, hdirect, hworth, -⟩ := hg' (g buf)
  obtain ⟨hfields₀, hdirect₀, hworth₀⟩ := hg buf
  exact ⟨hfields.trans hfields₀, hdirect.trans hdirect₀, hworth.trans hworth₀⟩

theorem held_bufferField (b : TableBuilder) (name : String) (value : Value) :
    b.Held name value (b.bufferField name value) := by
  have h := (b.held_stageField name value).1
  rw [bufferField]
  dsimp only
  split
  · exact h.evaluateRow _
  · exact h

/-- Without a frozen layout no field is unknown. -/
theorem unknownTo_of_frozen (hfrozen : b.frozen = none) (name : String) : b.unknownTo name = none := by
  rw [unknownTo, exactWithout_of_frozen hfrozen]
  rfl

/-- `put_field` on a buffered row. -/
theorem put_field_of_buffering (hfrozen : b.frozen = none) (hbuf : b.buffering = true)
    {raw name : String} (hres : b.plan.resolveField raw = some name) (value : Value) :
    b.put (.field raw value) = b.bufferField name value := by
  simp [put, putField, hbuf, hres, unknownTo_of_frozen hfrozen]

/-- `put_field_resolved` on a buffered row. -/
theorem put_fieldResolved_of_buffering (hfrozen : b.frozen = none) (hbuf : b.buffering = true)
    (name : String) (value : Value) : b.put (.fieldResolved name value) = b.bufferField name value := by
  simp [put, putFieldResolved, hbuf, unknownTo_of_frozen hfrozen]

/-- `resolve_and_put` on a buffered row: a direct push if the row was drained, and otherwise a
buffered put that may drain it. -/
theorem put_resolveAndPut_of_buffering (hfrozen : b.frozen = none) (hbuf : b.buffering = true)
    {raw name : String} (hres : b.plan.resolveField raw = some name) (value : Value) :
    b.put (.resolveAndPut raw value) =
      if b.rowBuf.any (·.direct) then b.pushFieldResolved name value
      else
        let (b, slot) := b.stageField name value
        if b.isPredicateSlot slot then
          let b := b.evaluateRow slot
          if b.plan.isPlain && b.evaluatePredicateState == .pass then b.drainMidRow else b
        else b := by
  have hput : b.put (.resolveAndPut raw value) = b.resolveAndPut raw value := rfl
  rw [resolveAndPut, hbuf, hres] at hput
  simpa only [unknownTo_of_frozen hfrozen, Bool.not_true, Bool.false_eq_true, if_false] using hput

/-- **A put of an output name has one of the three shapes.** By the entry points and the mode of the
row; without a layout none of them is refused. -/
theorem put_shape (hfrozen : b.frozen = none) {p : Put} {name : String}
    (htarget : p.target b.plan = some name) : b.PutShape p name := by
  by_cases hbuf : b.buffering = true
  · cases p with
    | field raw value =>
        have hput := put_field_of_buffering hfrozen hbuf htarget value
        exact .held hbuf (hput ▸ b.held_bufferField name value)
    | fieldResolved resolved value =>
        obtain rfl : resolved = name := Option.some.inj htarget
        have hput := put_fieldResolved_of_buffering hfrozen hbuf resolved value
        exact .held hbuf (hput ▸ b.held_bufferField resolved value)
    | resolveAndPut raw value =>
        have hstage := (b.held_stageField name value).1
        have hput := put_resolveAndPut_of_buffering hfrozen hbuf htarget value
        by_cases hdirect : b.IsDirect
        · rw [if_pos (show b.rowBuf.any (·.direct) = true from hdirect)] at hput
          exact .pushed (.inr ⟨hdirect, raw, value, rfl⟩) hput
        · rw [if_neg (show ¬ b.rowBuf.any (·.direct) = true from hdirect)] at hput
          dsimp only at hput
          split at hput
          · have heval := hstage.evaluateRow (b.stageField name value).2
            split at hput
            · exact .drained hbuf hdirect _ heval hput
            · exact .held hbuf (hput ▸ heval)
          · exact .held hbuf (hput ▸ hstage)
  · have hbuf : b.buffering = false := by simpa using hbuf
    refine .pushed (.inl hbuf) ?_
    rw [put_of_not_buffering hbuf, htarget]

end Shapes

end TableBuilder

end Rypipe
