import Rypipe.Engine.Declared

/-! # Expected slots

The positional fast path of an adapter: during the first row the builder records which slot came at
each ordinal, together with the resolved name, and `expect_slot` hands the entry back. An adapter
compares the raw name of a field with the recorded one and then puts the value to the slot.

A builder with a filter never learns an ordinal: its first row is buffered until it is counted.
Without a filter the entries are right exactly as long as every name that is learned resolves to
itself. -/

namespace Rypipe

namespace TableBuilder

section Ordinals

variable [Platform]

/-- `expect_slot`: the slot and the name recorded at an ordinal. -/
def expectSlot (b : TableBuilder) (ordinal : Nat) : Option (Nat × String) :=
  (b.ordinalExpect[ordinal]?).join

/-- The expected slots are right: the recorded name, read as a raw name, resolves to the column in
the slot, and a value put to the slot is written as one put under the raw name. -/
structure ExpectsWell (b : TableBuilder) : Prop where
  resolves : ∀ ordinal slot name, b.expectSlot ordinal = some (slot, name) →
    ∃ resolved, b.plan.resolveField name = some resolved ∧
      b.fieldIndex.lookup resolved = some slot
  writes : ∀ ordinal slot name value, b.expectSlot ordinal = some (slot, name) →
    (b.putFieldAt slot value).columns = (b.putField name value).columns

/-! ## Steps that learn nothing -/

/-- No row is counted yet, so the row buffer is in use and has not been drained in mid-row. -/
def Waiting (b : TableBuilder) : Prop :=
  b.rowCount = 0 → b.rowBuf.all (fun buf => buf.bufferWorthwhile && !buf.direct) = true

/-- `b'` expects the slots `b` does. -/
structure KeepsOrdinals (b b' : TableBuilder) : Prop where
  plan : b'.plan = b.plan
  ordinals : b'.ordinalExpect = b.ordinalExpect
  waiting : b.Waiting → b'.Waiting

section Keeps

variable {b b' b'' : TableBuilder}

/-- A step that changes nothing expects the same slots. -/
theorem KeepsOrdinals.refl (b : TableBuilder) : b.KeepsOrdinals b := ⟨rfl, rfl, id⟩

/-- Steps that expect the same slots compose, which is how the lemmas below are put together. -/
theorem KeepsOrdinals.trans (h : b.KeepsOrdinals b') (h' : b'.KeepsOrdinals b'') :
    b.KeepsOrdinals b'' :=
  ⟨h'.plan.trans h.plan, h'.ordinals.trans h.ordinals, h'.waiting ∘ h.waiting⟩

/-- `expect_slot` gives the same answer at every ordinal. -/
theorem KeepsOrdinals.expectSlot (h : b.KeepsOrdinals b') (ordinal : Nat) :
    b'.expectSlot ordinal = b.expectSlot ordinal := by
  rw [TableBuilder.expectSlot, TableBuilder.expectSlot, h.ordinals]

/-- A step that leaves the row count and the row buffer alone. -/
theorem keepsOrdinals_of_rowBuf (hplan : b'.plan = b.plan)
    (hordinals : b'.ordinalExpect = b.ordinalExpect) (hcount : b'.rowCount = b.rowCount)
    (hbuf : b'.rowBuf = b.rowBuf) : b.KeepsOrdinals b' :=
  ⟨hplan, hordinals, fun h hzero => by rw [hbuf]; exact h (hcount ▸ hzero)⟩

/-- A change of the row buffer that keeps how the row is read: worthwhile or not, direct or not. -/
theorem keepsOrdinals_mapRowBuf (b : TableBuilder) {f : RowBuffer → RowBuffer}
    (hworth : ∀ buf, (f buf).bufferWorthwhile = buf.bufferWorthwhile)
    (hdirect : ∀ buf, (f buf).direct = buf.direct) : b.KeepsOrdinals (b.mapRowBuf f) := by
  refine ⟨rfl, rfl, fun h hzero => ?_⟩
  have hbuf := h hzero
  show (b.rowBuf.map f).all _ = true
  cases hrow : b.rowBuf with
  | none => rfl
  | some buf =>
      rw [hrow] at hbuf
      rw [Option.map_some, Option.all_some, hworth, hdirect]
      exact hbuf

/-- An event of the observer records no slot. -/
theorem keepsOrdinals_notify (b : TableBuilder) (e : Event) : b.KeepsOrdinals (b.notify e) :=
  keepsOrdinals_of_rowBuf rfl rfl rfl rfl

/-- The null-fill of a row records no slot. -/
theorem keepsOrdinals_nullFill (b : TableBuilder) : b.KeepsOrdinals b.nullFill := by
  rw [nullFill]
  split
  · exact keepsOrdinals_of_rowBuf rfl rfl rfl rfl
  · exact keepsOrdinals_of_rowBuf rfl rfl rfl rfl

/-- Counting a row records no slot; it makes the row count positive, after which nothing is learnt
at all. -/
theorem keepsOrdinals_acceptRow (b : TableBuilder) : b.KeepsOrdinals b.acceptRow :=
  ⟨rfl, rfl, fun _ hzero => absurd hzero (Nat.succ_ne_zero _)⟩

/-- `finish_row` records no slot, whether the row is accepted or popped. -/
theorem keepsOrdinals_finishRow (b : TableBuilder) : b.KeepsOrdinals b.finishRow := by
  rw [finishRow]
  split
  · split
    · exact b.keepsOrdinals_nullFill.trans (keepsOrdinals_acceptRow _)
    · exact b.keepsOrdinals_nullFill.trans (keepsOrdinals_of_rowBuf rfl rfl rfl rfl)
  · exact b.keepsOrdinals_nullFill.trans (keepsOrdinals_acceptRow _)

/-- The drain writes the held fields by slot, and only the puts by name record one. -/
theorem keepsOrdinals_drainFields (b : TableBuilder) (seen : WordSet 64)
    (fields : List (Nat × Value)) : b.KeepsOrdinals (b.drainFields seen fields) := by
  induction fields generalizing b seen with
  | nil => exact .refl b
  | cons p fields ih =>
      rw [drainFields]
      split
      · exact ih b seen
      · have hstep : b.KeepsOrdinals ((b.writeSlot p.1 p.2).notifyPutField p.1 p.2) :=
          keepsOrdinals_of_rowBuf rfl rfl rfl rfl
        exact hstep.trans (ih _ _)

/-- The same, for the drain with the dirty bits it grows. -/
theorem keepsOrdinals_withDrained (b : TableBuilder) (fields : List (Nat × Value)) :
    b.KeepsOrdinals (b.withDrained fields) := by
  have hgrow : b.KeepsOrdinals { b with rowDirty := b.rowDirty.growFor b.columns.length } :=
    keepsOrdinals_of_rowBuf rfl rfl rfl rfl
  exact hgrow.trans (keepsOrdinals_drainFields _ _ _)

/-- A drain that accepts the row counts it, so nothing is learnt after it in any row. -/
theorem ordinals_drainBuffered_true (b : TableBuilder) :
    (b.drainBuffered true).plan = b.plan ∧
      (b.drainBuffered true).ordinalExpect = b.ordinalExpect ∧ (b.drainBuffered true).Waiting := by
  cases hbuf : b.rowBuf with
  | none =>
      rw [drainBuffered, hbuf]
      refine ⟨rfl, rfl, fun _ => ?_⟩
      rw [hbuf]
      rfl
  | some buf =>
      have hfill : b.KeepsOrdinals
          (if buf.direct then b.withDrained buf.fields else (b.withDrained buf.fields).nullFill) := by
        split
        · exact b.keepsOrdinals_withDrained _
        · exact (b.keepsOrdinals_withDrained _).trans (keepsOrdinals_nullFill _)
      rw [b.drainBuffered_true hbuf]
      exact ⟨hfill.plan, hfill.ordinals, fun hzero => absurd hzero (Nat.succ_ne_zero _)⟩

/-- The drain of the row buffer records no slot, for either verdict. -/
theorem keepsOrdinals_drainBuffered (b : TableBuilder) (pass : Bool) :
    b.KeepsOrdinals (b.drainBuffered pass) := by
  cases pass with
  | true =>
      obtain ⟨hplan, hordinals, hwaiting⟩ := b.ordinals_drainBuffered_true
      exact ⟨hplan, hordinals, fun _ => hwaiting⟩
  | false =>
      cases hbuf : b.rowBuf with
      | none =>
          rw [drainBuffered, hbuf]
          exact .refl b
      | some buf =>
          rw [b.drainBuffered_false hbuf]
          have hreject : b.KeepsOrdinals
              ({ b with rowDirty := b.rowDirty.clear } : TableBuilder).rejectRow :=
            keepsOrdinals_of_rowBuf rfl rfl rfl rfl
          refine hreject.trans ?_
          rw [clearBuffered]
          exact keepsOrdinals_mapRowBuf _ (fun _ => rfl) fun _ => rfl

/-- A drain in the middle of the row counts the row, so the builder no longer waits for its first
one. -/
theorem keepsOrdinals_drainMidRow (b : TableBuilder) : b.KeepsOrdinals b.drainMidRow := by
  obtain ⟨hplan, hordinals, hwaiting⟩ :=
    ordinals_drainBuffered_true (b.mapRowBuf fun buf => { buf with direct := true })
  exact ⟨hplan, hordinals, fun _ => hwaiting⟩

/-- `begin_row` clears the ordinal of the row, not the slots that were recorded. Before the first
row is counted it leaves the buffer in use. -/
theorem keepsOrdinals_beginRow (b : TableBuilder) : b.KeepsOrdinals b.beginRow := by
  refine ⟨rfl, rfl, fun h hzero => ?_⟩
  have hzero : b.rowCount = 0 := hzero
  have hbuf := h hzero
  show (Option.map _ b.rowBuf).all _ = true
  cases hrow : b.rowBuf with
  | none => rfl
  | some buf =>
      rw [hrow, Option.all_some, Bool.and_eq_true] at hbuf
      simp [hbuf.1, notify, hzero]

/-- `end_row` records no slot in any mode of the row. -/
theorem keepsOrdinals_endRow (b : TableBuilder) : b.KeepsOrdinals b.endRow := by
  rw [endRow]
  split
  · exact b.keepsOrdinals_finishRow
  · split
    · exact b.keepsOrdinals_drainBuffered true
    · split
      · exact b.keepsOrdinals_nullFill
      · exact b.keepsOrdinals_drainBuffered _

/-- A put by slot records nothing: it is what an adapter does with a slot it was told. -/
theorem keepsOrdinals_putFieldAt (b : TableBuilder) (slot : Nat) (value : Value) :
    b.KeepsOrdinals (b.putFieldAt slot value) := by
  rw [putFieldAt]
  split
  · exact .refl b
  · exact keepsOrdinals_of_rowBuf rfl rfl rfl rfl

/-- Nor does `put_str_at`, on either of its paths. -/
theorem keepsOrdinals_putStrAt (b : TableBuilder) (slot : Nat) (value : String) :
    b.KeepsOrdinals (b.putStrAt slot value) := by
  rw [putStrAt]
  split
  · exact b.keepsOrdinals_putFieldAt slot _
  · split
    · exact .refl b
    · exact keepsOrdinals_of_rowBuf rfl rfl rfl rfl

/-- Creating a column records no slot. -/
theorem keepsOrdinals_ensureColumnIdx (b : TableBuilder) (name : String) :
    b.KeepsOrdinals (b.ensureColumnIdx name).1 := by
  rw [ensureColumnIdx]
  split
  · exact .refl b
  · split
    · exact keepsOrdinals_of_rowBuf rfl rfl rfl rfl
    · exact keepsOrdinals_of_rowBuf rfl rfl rfl rfl

/-- Creating a column counts no row. -/
theorem rowCount_ensureColumnIdx (b : TableBuilder) (name : String) :
    (b.ensureColumnIdx name).1.rowCount = b.rowCount := by
  rw [ensureColumnIdx]
  split
  · rfl
  · split <;> rfl

/-- After the first row a value is pushed without learning its ordinal. -/
theorem keepsOrdinals_pushFieldResolved (h : b.rowCount ≠ 0) (name : String) (value : Value) :
    b.KeepsOrdinals (b.pushFieldResolved name value) := by
  rw [pushFieldResolved]
  split
  · exact keepsOrdinals_of_rowBuf rfl rfl rfl rfl
  · have hensure := b.keepsOrdinals_ensureColumnIdx name
    have hcount := b.rowCount_ensureColumnIdx name
    dsimp only
    generalize b.ensureColumnIdx name = ensured at hensure hcount ⊢
    refine hensure.trans (keepsOrdinals_of_rowBuf rfl ?_ rfl rfl)
    exact if_neg fun hzero => h (hcount.symm.trans hzero)

/-- Buffering a field creates its column and records no slot: this is why a builder with a filter
never learns an ordinal. -/
theorem keepsOrdinals_stageField (b : TableBuilder) (name : String) (value : Value) :
    b.KeepsOrdinals (b.stageField name value).1 := by
  have hensure := b.keepsOrdinals_ensureColumnIdx name
  rw [stageField]
  dsimp only
  generalize b.ensureColumnIdx name = ensured at hensure ⊢
  obtain ⟨f, hf, hsame⟩ :=
    (ensured.1.recordStrictViolationAt ensured.2 value).markPredicateSlot_eq ensured.2
  rw [hf]
  have hstrict : b.KeepsOrdinals (ensured.1.recordStrictViolationAt ensured.2 value) :=
    hensure.trans (keepsOrdinals_of_rowBuf rfl rfl rfl rfl)
  exact (hstrict.trans (keepsOrdinals_mapRowBuf _ (fun buf => (hsame buf).worthwhile)
    fun buf => (hsame buf).direct)).trans
      (keepsOrdinals_mapRowBuf _ (fun _ => rfl) fun _ => rfl)

/-- The evaluation of the filter records the ordinal of the filter's slot in the row buffer, not an
expected slot. -/
theorem keepsOrdinals_evaluateRow (b : TableBuilder) (slot : Nat) :
    b.KeepsOrdinals (b.evaluateRow slot) := by
  obtain ⟨g, hg, hkeep⟩ := b.evaluateRow_eq slot
  rw [hg]
  exact b.keepsOrdinals_mapRowBuf (fun buf => (hkeep buf).2.2.1) fun buf => (hkeep buf).2.1

/-- The buffered path of a put stages its field and evaluates the row. -/
theorem keepsOrdinals_bufferField (b : TableBuilder) (name : String) (value : Value) :
    b.KeepsOrdinals (b.bufferField name value) := by
  have hstage := b.keepsOrdinals_stageField name value
  rw [bufferField]
  dsimp only
  split
  · exact hstage.trans (keepsOrdinals_evaluateRow _ _)
  · exact hstage

/-- Under a filter no put learns an ordinal: as long as no row is counted, it is buffered. Only a
put that goes to the columns records its slot, and it does so only while the row count is zero. -/
theorem keepsOrdinals_put (hfilter : b.plan.filter.isSome) (hwaiting : b.Waiting) (p : Put) :
    b.KeepsOrdinals (b.put p) := by
  have hreport : ∀ message, b.KeepsOrdinals (b.reportUnknown message) :=
    fun _ => keepsOrdinals_of_rowBuf rfl rfl rfl rfl
  by_cases hbuf : b.buffering = true
  · cases p with
    | field raw value =>
        simp only [put, putField, hbuf, Bool.not_true, Bool.false_eq_true, if_false]
        split
        · exact .refl b
        · split
          · exact hreport _
          · exact b.keepsOrdinals_bufferField _ value
    | fieldResolved resolved value =>
        simp only [put, putFieldResolved, hbuf, Bool.not_true, Bool.false_eq_true, if_false]
        split
        · exact hreport _
        · exact b.keepsOrdinals_bufferField resolved value
    | resolveAndPut raw value =>
        simp only [put, resolveAndPut, hbuf, Bool.not_true, Bool.false_eq_true, if_false]
        split
        · exact .refl b
        · next resolved _ =>
          have hstage := b.keepsOrdinals_stageField resolved value
          split
          · exact hreport _
          · split
            · next hdirect =>
              -- a row drained in the middle is already counted
              refine keepsOrdinals_pushFieldResolved (fun hzero => ?_) resolved value
              have hall := hwaiting hzero
              cases hrow : b.rowBuf with
              | none => simp [hrow] at hdirect
              | some buf => simp_all
            · split
              · have hstage := hstage.trans
                  (keepsOrdinals_evaluateRow _ (b.stageField resolved value).2)
                split
                · exact hstage.trans (keepsOrdinals_drainMidRow _)
                · exact hstage
              · exact hstage
  · rw [put_of_not_buffering (by simpa using hbuf)]
    have hcount : b.rowCount ≠ 0 := by
      intro hzero
      have hall := hwaiting hzero
      cases hrow : b.rowBuf with
      | none => simp [buffering, hfilter, hrow] at hbuf
      | some buf => simp_all [buffering]
    split
    · exact keepsOrdinals_pushFieldResolved hcount _ _
    · exact .refl b

/-- Under a filter no call learns an ordinal. -/
theorem keepsOrdinals_call (hfilter : b.plan.filter.isSome) (hwaiting : b.Waiting) (c : Call) :
    b.KeepsOrdinals (b.call c) := by
  cases c with
  | beginRow => exact b.keepsOrdinals_beginRow
  | put p => exact keepsOrdinals_put hfilter hwaiting p
  | putFieldAt slot value => exact b.keepsOrdinals_putFieldAt slot value
  | putStrAt slot value => exact b.keepsOrdinals_putStrAt slot value
  | endRow => exact b.keepsOrdinals_endRow

/-- Under a filter no list of calls learns an ordinal. -/
theorem keepsOrdinals_callAll (hfilter : b.plan.filter.isSome) (hwaiting : b.Waiting)
    (calls : List Call) : b.KeepsOrdinals (b.callAll calls) := by
  induction calls generalizing b with
  | nil => exact .refl b
  | cons c calls ih =>
      have hcall := keepsOrdinals_call hfilter hwaiting c
      exact hcall.trans (ih (hcall.plan ▸ hfilter) (hcall.waiting hwaiting))

end Keeps

/-! ## Without a filter -/

section Learning

variable {b : TableBuilder}

omit [Platform] in
/-- Padding with absent entries is not seen: an ordinal beyond the list expects nothing in
either. -/
theorem join_getElem?_takeD {α : Type} (l : List (Option α)) {n : Nat} (h : l.length ≤ n)
    (i : Nat) : ((l.takeD n none)[i]?).join = (l[i]?).join := by
  induction n generalizing l i with
  | zero =>
      rw [List.eq_nil_of_length_eq_zero (Nat.le_zero.mp h)]
      rfl
  | succ n ih =>
      cases l with
      | nil =>
          rw [List.takeD_nil, List.getElem?_replicate]
          split <;> rfl
      | cons a l =>
          cases i with
          | zero => rfl
          | succ i => exact ih l (Nat.le_of_succ_le_succ h) i

/-- What is expected after an ordinal was learned: the new entry at that ordinal if no row has been
counted, and the old ones elsewhere. -/
theorem expectSlot_recordOrdinal (b : TableBuilder) (idx : Nat) (name : String) (ordinal : Nat) :
    (b.recordOrdinal idx name).expectSlot ordinal =
      if b.rowCount = 0 ∧ ordinal = b.currentOrdinal then some (idx, name)
      else b.expectSlot ordinal := by
  rw [expectSlot, expectSlot, recordOrdinal]
  by_cases hzero : b.rowCount = 0
  · simp only [hzero, if_true, true_and]
    rw [List.getElem?_set]
    by_cases hord : ordinal = b.currentOrdinal
    · subst hord
      simp
    · rw [if_neg (Ne.symm hord), if_neg hord]
      exact join_getElem?_takeD _ (Nat.le_max_left _ _) ordinal
  · rw [if_neg hzero, if_neg fun h => hzero h.1]

/-- An admitted column exists afterwards, and no other column moves. -/
theorem lookup_ensureColumnIdx {name : String} (hexact : b.exactWithout name = none) :
    (b.ensureColumnIdx name).1.fieldIndex.lookup name = some (b.ensureColumnIdx name).2 ∧
      ∀ n slot, b.fieldIndex.lookup n = some slot →
        (b.ensureColumnIdx name).1.fieldIndex.lookup n = some slot := by
  rw [ensureColumnIdx]
  cases hlook : b.fieldIndex.lookup name with
  | some idx => exact ⟨hlook, fun _ _ h => h⟩
  | none =>
      simp only [hexact]
      refine ⟨AList.lookup_insert _, fun n slot hn => ?_⟩
      have hne : n ≠ name := by
        rintro rfl
        cases hlook.symm.trans hn
      exact (AList.lookup_insert_ne hne).trans hn

/-- What a value pushed under an admitted name leaves expected: its slot and resolved name at the
current ordinal, in the first row. -/
theorem expectSlot_pushFieldResolved {name : String} (hexact : b.exactWithout name = none)
    (value : Value) (ordinal : Nat) :
    (b.pushFieldResolved name value).expectSlot ordinal =
        (if b.rowCount = 0 ∧ ordinal = b.currentOrdinal then
          some ((b.ensureColumnIdx name).2, name) else b.expectSlot ordinal) ∧
      (b.pushFieldResolved name value).fieldIndex = (b.ensureColumnIdx name).1.fieldIndex := by
  have hkeeps := b.keepsOrdinals_ensureColumnIdx name
  have hcount := b.rowCount_ensureColumnIdx name
  have hcurrent : (b.ensureColumnIdx name).1.currentOrdinal = b.currentOrdinal := by
    rw [ensureColumnIdx]
    split
    · rfl
    · split <;> rfl
  rw [pushFieldResolved, hexact]
  dsimp only
  refine ⟨?_, rfl⟩
  rw [← hkeeps.expectSlot, ← hcount, ← hcurrent]
  exact expectSlot_recordOrdinal
    (((b.ensureColumnIdx name).1.recordStrictViolationAt _ value).notifyPutField _ value) _ name
    ordinal

/-- The recorded name is the name of the column in the recorded slot. -/
def Named (b : TableBuilder) : Prop :=
  ∀ ordinal slot name, b.expectSlot ordinal = some (slot, name) →
    b.fieldIndex.lookup name = some slot

/-- Every recorded name resolves to itself. -/
def SelfResolved (b : TableBuilder) : Prop :=
  ∀ ordinal slot name, b.expectSlot ordinal = some (slot, name) →
    b.plan.resolveField name = some name

/-- Calls other than puts keep the columns and the expected slots. -/
theorem keepsOrdinals_call_of_not_put {c : Call} (h : ∀ p, c ≠ .put p) :
    b.KeepsOrdinals (b.call c) ∧ b.SameColumns (b.call c) := by
  cases c with
  | beginRow => exact ⟨b.keepsOrdinals_beginRow, b.quiet_beginRow.toSameColumns⟩
  | put p => exact absurd rfl (h p)
  | putFieldAt slot value =>
      exact ⟨b.keepsOrdinals_putFieldAt slot value, (b.sameColumns_putFieldAt slot value).1⟩
  | putStrAt slot value =>
      exact ⟨b.keepsOrdinals_putStrAt slot value, (b.sameColumns_putStrAt slot value).1⟩
  | endRow => exact ⟨b.keepsOrdinals_endRow, b.quiet_endRow.toSameColumns⟩

/-- A put without a filter, on a builder without a frozen layout. -/
theorem put_of_no_filter (hfilter : b.plan.filter = none) (p : Put) :
    b.put p =
      match p.target b.plan with
      | some name => b.pushFieldResolved name p.value
      | none => b :=
  put_of_not_buffering (by rw [TableBuilder.buffering, hfilter]; rfl) p

/-- Without a filter every call keeps the recorded names right, and the names resolve to themselves
as long as those that are learned do. -/
theorem Named.call (hfilter : b.plan.filter = none) (hfrozen : b.frozen = none) (hnamed : b.Named)
    (c : Call) :
    (b.call c).Named ∧ (b.SelfResolved →
      (∀ p, c = .put p → b.rowCount = 0 → ∀ name, p.target b.plan = some name →
        b.plan.resolveField name = some name) → (b.call c).SelfResolved) := by
  -- only a put learns an expectation
  by_cases hput : ∃ p, c = .put p
  · obtain ⟨p, rfl⟩ := hput
    show (b.put p).Named ∧ (_ → _ → (b.put p).SelfResolved)
    rw [put_of_no_filter hfilter]
    cases htarget : p.target b.plan with
    | none => exact ⟨hnamed, fun hresolved _ => hresolved⟩
    | some name =>
        have hexact := exactWithout_of_frozen hfrozen name
        have hpush := expectSlot_pushFieldResolved hexact p.value
        obtain ⟨hself, hkeep⟩ := lookup_ensureColumnIdx hexact
        have hplan : (b.pushFieldResolved name p.value).plan = b.plan :=
          (quiet_pushFieldResolved hexact p.value).plan.trans (admitField_frame hexact p.value).1
        dsimp only
        constructor
        · intro ordinal slot n hentry
          rw [(hpush ordinal).1] at hentry
          rw [(hpush ordinal).2]
          split at hentry
          · cases hentry
            exact hself
          · exact hkeep n slot (hnamed ordinal slot n hentry)
        -- an expectation is learnt in the first row, with the name that the field resolved to
        · intro hresolved hlearn ordinal slot n hentry
          rw [(hpush ordinal).1] at hentry
          rw [hplan]
          split at hentry
          · next h =>
            cases hentry
            exact hlearn p rfl h.1 name htarget
          · exact hresolved ordinal slot n hentry
  · obtain ⟨hkeeps, hsame⟩ := keepsOrdinals_call_of_not_put (b := b) fun p h => hput ⟨p, h⟩
    refine ⟨fun ordinal slot n hentry => ?_, fun hresolved _ ordinal slot n hentry => ?_⟩
    · rw [hkeeps.expectSlot] at hentry
      rw [hsame.index]
      exact hnamed ordinal slot n hentry
    · rw [hkeeps.expectSlot] at hentry
      rw [hkeeps.plan]
      exact hresolved ordinal slot n hentry

/-- A value put under a raw name that resolves to itself is written as one put to the slot. -/
theorem columns_putField_of_resolved {t : Table} (hb : b.Declared t)
    (hfilter : b.plan.filter = none) {name : String} {slot : Nat}
    (hres : b.plan.resolveField name = some name) (hlook : b.fieldIndex.lookup name = some slot)
    (value : Value) : (b.putFieldAt slot value).columns = (b.putField name value).columns := by
  have hlt : slot < b.columns.length := by
    have hname := (List.getElem?_eq_some_iff.mp ((hb.indexed name slot).mp hlook)).1
    rw [RowTable.names, List.length_map] at hname
    rwa [hb.size]
  have hmem : name ∈ b.fieldIndex := AList.lookup_isSome.mp (by rw [hlook]; rfl)
  have hput : b.putField name value = b.pushFieldResolved name value := by
    have hput := put_of_no_filter hfilter (.field name value)
    rw [show (Put.field name value).target b.plan = some name from hres] at hput
    exact hput
  rw [hput, pushFieldResolved, exactWithout_of_mem hmem, ensureColumnIdx, hlook, putFieldAt,
    if_neg (Nat.not_le_of_lt hlt)]
  rfl

/-- With the recorded names right, the expected slots are right exactly when every recorded name
resolves to itself. -/
theorem expectsWell_iff {t : Table} (hb : b.Declared t) (hfilter : b.plan.filter = none)
    (hnamed : b.Named) : b.ExpectsWell ↔ b.SelfResolved := by
  constructor
  · intro h ordinal slot name hentry
    obtain ⟨resolved, hres, hlook⟩ := h.resolves ordinal slot name hentry
    have hname := (hb.indexed _ _).mp (hnamed ordinal slot name hentry)
    rw [(hb.indexed _ _).mp hlook, Option.some.injEq] at hname
    rwa [hname] at hres
  · intro h
    refine ⟨fun ordinal slot name hentry => ?_, fun ordinal slot name value hentry => ?_⟩
    · exact ⟨name, h ordinal slot name hentry, hnamed ordinal slot name hentry⟩
    · exact columns_putField_of_resolved hb hfilter (h ordinal slot name hentry)
        (hnamed ordinal slot name hentry) value

end Learning

/-! ## Runs -/

section Runs

variable {plan : ExecutionPlan}

/-- A builder that expects no slot expects them well. -/
theorem expectsWell_of_none {b : TableBuilder} (h : ∀ ordinal, b.expectSlot ordinal = none) :
    b.ExpectsWell := by
  refine ⟨fun ordinal slot name hentry => ?_, fun ordinal slot name value hentry => ?_⟩
  · cases (h ordinal).symm.trans hentry
  · cases (h ordinal).symm.trans hentry

/-- A new builder expects no slot, and waits for its first row. -/
theorem ordinals_withPlan (plan : ExecutionPlan) :
    (∀ ordinal, (withPlan plan).expectSlot ordinal = none) ∧ (withPlan plan).Waiting := by
  obtain ⟨columns, fieldIndex, columnOrder, rowDirty, mask, h⟩ := withPlan_eq plan
  rw [h]
  refine ⟨fun _ => rfl, fun _ => ?_⟩
  show (plan.filter.map fun _ => _).all _ = true
  cases plan.filter <;> rfl

/-- The last call of a run comes after the others; the induction over runs goes from there. -/
theorem callAll_append_singleton (b : TableBuilder) (calls : List Call) (c : Call) :
    b.callAll (calls ++ [c]) = (b.callAll calls).call c := List.foldl_append

/-- The run learns only names that resolve to themselves: those of the puts made while no row is
counted, unless the plan has a filter. -/
def TeachesResolved (plan : ExecutionPlan) (calls : List Call) : Prop :=
  ∀ pre p, pre ++ [.put p] <+: calls → plan.filter = none →
    ((withPlan plan).callAll pre).rowCount = 0 →
    ∀ name, p.target plan = some name → plan.resolveField name = some name

/-- What the builder has learned when the names it was taught resolve to themselves. -/
theorem named_callAll (hfilter : plan.filter = none) (calls : List Call) :
    ((withPlan plan).callAll calls).Named ∧
      (TeachesResolved plan calls → ((withPlan plan).callAll calls).SelfResolved) := by
  induction calls using List.reverseRecOn with
  | nil =>
      have hnone := (ordinals_withPlan plan).1
      refine ⟨fun ordinal slot name hentry => ?_, fun _ ordinal slot name hentry => ?_⟩
      · cases (hnone ordinal).symm.trans hentry
      · cases (hnone ordinal).symm.trans hentry
  | append_singleton calls c ih =>
      obtain ⟨-, hplan, hfrozen, -⟩ := declared_callAll_withPlan plan calls
      obtain ⟨hnamed, hresolved⟩ := ih
      obtain ⟨hnamed', hresolved'⟩ := hnamed.call (by rw [hplan]; exact hfilter) hfrozen c
      rw [callAll_append_singleton]
      refine ⟨hnamed', fun hteaches => hresolved' (hresolved fun pre p hpre => ?_) ?_⟩
      · exact hteaches pre p (hpre.trans (List.prefix_append calls [c]))
      · rintro p rfl hzero name htarget
        rw [hplan] at htarget ⊢
        exact hteaches calls p (List.prefix_refl _) hfilter hzero name htarget

/-- **Expected slots.** In every state of a run of a new builder the expected slots are right exactly
when every name the run teaches resolves to itself. -/
theorem expectsWell_iff_teachesResolved (plan : ExecutionPlan) (calls : List Call) :
    (∀ pre, pre <+: calls → ((withPlan plan).callAll pre).ExpectsWell) ↔
      TeachesResolved plan calls := by
  constructor
  · intro h pre p hpre hfilter hzero name htarget
    obtain ⟨hdeclared, hplan, -, -⟩ := declared_callAll_withPlan plan (pre ++ [.put p])
    obtain ⟨-, hplan₀, hfrozen₀, -⟩ := declared_callAll_withPlan plan pre
    have hresolved := (expectsWell_iff hdeclared (by rw [hplan]; exact hfilter)
      (named_callAll hfilter _).1).mp (h _ hpre)
    -- the put has just recorded its name at the current ordinal
    have hput : ((withPlan plan).callAll (pre ++ [.put p])) =
        ((withPlan plan).callAll pre).pushFieldResolved name p.value := by
      rw [callAll_append_singleton]
      show ((withPlan plan).callAll pre).put p = _
      rw [put_of_no_filter (by rw [hplan₀]; exact hfilter), hplan₀, htarget]
    have hentry := (expectSlot_pushFieldResolved (exactWithout_of_frozen hfrozen₀ name) p.value
      ((withPlan plan).callAll pre).currentOrdinal).1
    rw [if_pos ⟨hzero, rfl⟩, ← hput] at hentry
    rw [← hplan]
    exact hresolved _ _ _ hentry
  · intro hteaches pre hpre
    cases hfilter : plan.filter with
    | some f =>
        have hplan := (withPlan_frame plan).1
        have hkeeps := keepsOrdinals_callAll (b := withPlan plan) (by rw [hplan, hfilter]; rfl)
          (ordinals_withPlan plan).2 pre
        refine expectsWell_of_none fun ordinal => ?_
        rw [hkeeps.expectSlot]
        exact (ordinals_withPlan plan).1 ordinal
    | none =>
        obtain ⟨hdeclared, hplan, -, -⟩ := declared_callAll_withPlan plan pre
        obtain ⟨hnamed, hresolved⟩ := named_callAll hfilter pre
        refine (expectsWell_iff hdeclared (by rw [hplan]; exact hfilter) hnamed).mpr ?_
        exact hresolved fun pre' p hpre' => hteaches pre' p (hpre'.trans hpre)

end Runs

end Ordinals

section Examples

attribute [local instance] integerPlatform

/-- A plan that swaps two names. -/
def swapPlan : ExecutionPlan :=
  { fieldMap := ((∅ : StrMap String).insert "a" "b").insert "b" "a" }

/-- Under the swap the field `"a"` is recorded as `"b"`, and the raw name `"b"` belongs to another
column. -/
theorem expectsWell_falls :
    ¬ ∀ (plan : ExecutionPlan) (rows : List (List Put)),
      ((withPlan plan).feed rows).ExpectsWell := by
  intro h
  have hwell := h swapPlan [[.field "a" (.str "1"), .field "b" (.str "2")]]
  obtain ⟨resolved, hres, hlook⟩ := hwell.resolves 0 0 "b" rfl
  obtain rfl : "a" = resolved := Option.some.inj hres
  exact absurd hlook (by decide)

end Examples

end TableBuilder

end Rypipe
