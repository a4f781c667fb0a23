import Rypipe.Engine.Reads
import Rypipe.Engine.Stacked

/-! # The hooks of the row observer

The builder calls the observer when a row begins, when a value reaches a column and when the row is
accepted or rejected. Where a row is not written to after it was counted, and no column is created
in front of another, the calls of a run are those of its rows one after the other. -/

namespace Rypipe

/-- A field hook of row `i`, with the name and the slot of one column. -/
def Event.FieldOf [Platform] (index : StrMap Nat) (i : Nat) (e : Event) : Prop :=
  ∃ name slot value, e = .putField i name slot value ∧ index.lookup name = some slot

/-- The hooks of one row: its begin, its fields, and one outcome, all with one index. -/
def RowTrace [Platform] (index : StrMap Nat) (es : List Event) : Prop :=
  ∃ i fields outcome, es = .beginRow i :: (fields ++ [outcome]) ∧
    (∀ e ∈ fields, e.FieldOf index i) ∧ (outcome = .rowAccepted i ∨ outcome = .rowRejected i)

/-- A field hook names a column by its slot, and slots keep their names. -/
theorem Event.FieldOf.mono [Platform] {index index' : StrMap Nat} {i : Nat} {e : Event}
    (h : e.FieldOf index i)
    (hgrows : ∀ name (i : Nat), index.lookup name = some i → index'.lookup name = some i) :
    e.FieldOf index' i := by
  obtain ⟨name, slot, value, rfl, hslot⟩ := h
  exact ⟨name, slot, value, rfl, hgrows name slot hslot⟩

/-- So the hooks of a row stay those of a row when columns are added. -/
theorem RowTrace.mono [Platform] {index index' : StrMap Nat} {es : List Event} (h : RowTrace index es)
    (hgrows : ∀ name (i : Nat), index.lookup name = some i → index'.lookup name = some i) :
    RowTrace index' es := by
  obtain ⟨i, fields, outcome, rfl, hfields, houtcome⟩ := h
  exact ⟨i, fields, outcome, rfl, fun e he => (hfields e he).mono hgrows, houtcome⟩

namespace TableBuilder

section Hooks

variable [Platform]

/-- The hooks of the builder so far are those of `rows` rows, one after the other. -/
def WellTraced (b : TableBuilder) (rows : Nat) : Prop :=
  ∃ traces : List (List Event), traces.length = rows ∧
    (∀ es ∈ traces, RowTrace b.fieldIndex es) ∧ b.events = traces.flatten

/-- The export order lists the columns by their slots. -/
structure InSlotOrder (b : TableBuilder) : Prop where
  size : b.columnOrder.length = b.columns.length
  indexed : ∀ name (i : Nat), b.fieldIndex.lookup name = some i ↔ b.columnOrder[i]? = some name

/-- The put can be announced: it does not write to a row that has been counted, and a column it
creates comes last in the export order. -/
structure Announces (b : TableBuilder) (p : Put) : Prop where
  undrained : b.IsDirect → ∀ raw value, p = .resolveAndPut raw value → p.target b.plan = none
  last : ∀ name, p.target b.plan = some name →
    name ∈ b.fieldIndex ∨ b.schemaInsertIndex name = b.columnOrder.length

/-- What a step adds to the hooks while a row is read: field hooks of the row. -/
structure Emits (b b' : TableBuilder) : Prop where
  fields : ∃ fields, (∀ e ∈ fields, e.FieldOf b'.fieldIndex b.rowCount) ∧
    b'.events = b.events ++ fields
  rowCount : b'.rowCount = b.rowCount
  plan : b'.plan = b.plan
  grows : ∀ name (i : Nat), b.fieldIndex.lookup name = some i → b'.fieldIndex.lookup name = some i
  order : b'.InSlotOrder

section Steps

variable {b b' b'' : TableBuilder}

/-- A step that leaves the names, the hooks and the count alone. -/
theorem InSlotOrder.emits (h : b.InSlotOrder) (hevents : b'.events = b.events)
    (hcount : b'.rowCount = b.rowCount) (hplan : b'.plan = b.plan)
    (hindex : b'.fieldIndex = b.fieldIndex) (horder : b'.columnOrder = b.columnOrder)
    (hlength : b'.columns.length = b.columns.length) : b.Emits b' := by
  refine ⟨⟨[], fun e he => (List.not_mem_nil he).elim, ?_⟩, hcount, hplan, ?_, ?_, ?_⟩
  · rw [hevents, List.append_nil]
  · rw [hindex]
    exact fun _ _ h => h
  · rw [horder, hlength]
    exact h.size
  · rw [hindex, horder]
    exact h.indexed

/-- The field hooks of two steps come one after the other. -/
theorem Emits.trans (h : b.Emits b') (h' : b'.Emits b'') : b.Emits b'' := by
  obtain ⟨fields, hfields, hevents⟩ := h.fields
  obtain ⟨fields', hfields', hevents'⟩ := h'.fields
  refine ⟨⟨fields ++ fields', fun e he => ?_, ?_⟩, h'.rowCount.trans h.rowCount,
    h'.plan.trans h.plan, fun name i hi => h'.grows name i (h.grows name i hi), h'.order⟩
  · rcases List.mem_append.mp he with he | he
    · exact (hfields e he).mono h'.grows
    · exact h.rowCount ▸ hfields' e he
  · rw [hevents', hevents, List.append_assoc]

/-- A value that reaches a column is announced under the name of the column. -/
theorem InSlotOrder.notifyPutField (h : b.InSlotOrder) (idx : Nat) (value : Value) :
    b.Emits (b.notifyPutField idx value) := by
  refine ⟨?_, rfl, rfl, fun _ _ hi => hi, ⟨h.size, h.indexed⟩⟩
  rw [TableBuilder.notifyPutField]
  dsimp only
  cases hname : b.columnOrder[idx]? with
  | none => exact ⟨[], fun e he => (List.not_mem_nil he).elim, (List.append_nil _).symm⟩
  | some name =>
      dsimp only [TableBuilder.notify]
      split
      · refine ⟨[.putField b.rowCount name idx value], fun e he => ?_, rfl⟩
        rw [List.mem_singleton.mp he]
        exact ⟨name, idx, value, rfl, (h.indexed name idx).mpr hname⟩
      · exact ⟨[], fun e he => (List.not_mem_nil he).elim, (List.append_nil _).symm⟩

/-- Making sure of a column calls no hook. -/
theorem events_ensureColumnIdx (b : TableBuilder) (name : String) :
    (b.ensureColumnIdx name).1.events = b.events := by
  rw [TableBuilder.ensureColumnIdx]
  split
  · rfl
  · split <;> rfl

/-- A column that is created last keeps the export order in step with the slots. A column that a
projection puts in between would not: the observer is told slots, which would then no longer be
places in the order. -/
theorem InSlotOrder.ensureColumnIdx (h : b.InSlotOrder) (hfrozen : b.frozen = none) {name : String}
    (hlast : name ∈ b.fieldIndex ∨ b.schemaInsertIndex name = b.columnOrder.length) :
    b.Emits (b.ensureColumnIdx name).1 := by
  obtain ⟨-, hcount, hplan, -⟩ := b.ensureColumnIdx_frame name
  have hevents := b.events_ensureColumnIdx name
  rw [TableBuilder.ensureColumnIdx] at hcount hplan hevents ⊢
  cases hlook : b.fieldIndex.lookup name with
  | some idx => exact h.emits rfl rfl rfl rfl rfl rfl
  | none =>
      rw [hlook, exactWithout_of_frozen hfrozen] at hcount hplan hevents
      rw [exactWithout_of_frozen hfrozen]
      -- the new column goes to the end of the order, as to the end of the columns
      have hnew : b.schemaInsertIndex name = b.columnOrder.length :=
        hlast.resolve_left (AList.lookup_eq_none.mp hlook)
      have horder : (b.createColumn name).columnOrder = b.columnOrder ++ [name] := by
        show b.columnOrder.insertIdx (b.schemaInsertIndex name) name = _
        rw [hnew, List.insertIdx_length_self]
      refine ⟨⟨[], fun e he => (List.not_mem_nil he).elim, by rw [hevents, List.append_nil]⟩,
        hcount, hplan, fun n i hi => ?_, ?_, fun n i => ?_⟩
      · have hne : n ≠ name := by
          rintro rfl
          cases hlook.symm.trans hi
        exact (AList.lookup_insert_ne hne).trans hi
      · rw [horder]
        show _ = (b.columns ++ [_]).length
        rw [List.length_append, List.length_append, h.size]
        rfl
      · rw [horder]
        show (b.fieldIndex.insert name b.columns.length).lookup n = some i ↔ _
        rw [List.getElem?_append, ← h.size]
        -- the new name has the last slot, and every other name keeps its own
        by_cases hne : n = name
        · subst hne
          rw [AList.lookup_insert, Option.some.injEq]
          split
          · next hi =>
            refine ⟨fun heq => absurd heq (Nat.ne_of_gt hi), fun hget => ?_⟩
            rw [(h.indexed n i).mpr hget] at hlook
            cases hlook
          · next hi =>
            rw [List.getElem?_singleton]
            split
            · simp
              omega
            · simp
              omega
        · rw [AList.lookup_insert_ne hne, h.indexed]
          split
          · rfl
          · next hi =>
            rw [List.getElem?_eq_none (Nat.le_of_not_lt hi), List.getElem?_singleton]
            split
            · simp [Ne.symm hne]
            · rfl

/-- A put to a column calls `on_put_field` for the slot of its name, which is in the index
afterwards. -/
theorem emits_pushFieldResolved (h : b.InSlotOrder) (hfrozen : b.frozen = none) {name : String}
    (hlast : name ∈ b.fieldIndex ∨ b.schemaInsertIndex name = b.columnOrder.length)
    (value : Value) : b.Emits (b.pushFieldResolved name value) := by
  have hensure := h.ensureColumnIdx hfrozen hlast
  rw [pushFieldResolved, exactWithout_of_frozen hfrozen]
  dsimp only
  generalize b.ensureColumnIdx name = ensured at hensure ⊢
  have hchecked : ensured.1.Emits (ensured.1.recordStrictViolationAt ensured.2 value) :=
    hensure.order.emits rfl rfl rfl rfl rfl rfl
  have hnotified := hchecked.order.notifyPutField ensured.2 value
  refine ((hensure.trans hchecked).trans hnotified).trans ?_
  exact hnotified.order.emits rfl rfl rfl rfl rfl (List.length_modify _ _ _)

/-- Keeping a value in the row buffer calls no hook. -/
theorem Held.emits {name : String} {value : Value} (hheld : b.Held name value b')
    (h : b.InSlotOrder) (hfrozen : b.frozen = none)
    (hlast : name ∈ b.fieldIndex ∨ b.schemaInsertIndex name = b.columnOrder.length) :
    b.Emits b' ∧ b'.events = b.events := by
  obtain ⟨err, g, rfl, -⟩ := hheld.shape
  have hensure := h.ensureColumnIdx hfrozen hlast
  exact ⟨hensure.trans (hensure.order.emits rfl rfl rfl rfl rfl rfl), b.events_ensureColumnIdx name⟩

/-- Values written from the row buffer are announced one by one. -/
theorem InSlotOrder.withDrained (h : b.InSlotOrder) (fields : List (Nat × Value)) :
    b.Emits (b.withDrained fields) := by
  have hfields : ∀ (fields : List (Nat × Value)) {b : TableBuilder} (seen : WordSet 64),
      b.InSlotOrder → b.Emits (b.drainFields seen fields) := by
    intro fields
    induction fields with
    | nil => exact fun _ h => h.emits rfl rfl rfl rfl rfl rfl
    | cons p fields ih =>
        intro b seen h
        rw [drainFields]
        split
        · exact ih seen h
        · have hwrite : b.Emits (b.writeSlot p.1 p.2) :=
            h.emits rfl rfl rfl rfl rfl (List.length_modify _ _ _)
          have hone := hwrite.trans (hwrite.order.notifyPutField p.1 p.2)
          exact hone.trans (ih _ hone.order)
  have hgrow : b.Emits b.growDirty := h.emits rfl rfl rfl rfl rfl rfl
  exact hgrow.trans (hfields _ _ hgrow.order)

/-- The null-fill calls no hook. -/
theorem InSlotOrder.nullFill (h : b.InSlotOrder) :
    b.Emits b.nullFill ∧ b.nullFill.events = b.events := by
  rw [TableBuilder.nullFill]
  split
  · exact ⟨h.emits rfl rfl rfl rfl rfl rfl, rfl⟩
  · exact ⟨h.emits rfl rfl rfl rfl rfl List.length_mapIdx, rfl⟩

/-- With an observer every call is recorded. -/
theorem events_notify (hobserver : b.plan.observer = true) (e : Event) :
    (b.notify e).events = b.events ++ [e] := if_pos hobserver

/-- Accepting a row calls `on_row_accepted` with its number. -/
theorem events_acceptRow (hobserver : b.plan.observer = true) :
    b.acceptRow.events = b.events ++ [.rowAccepted b.rowCount] := if_pos hobserver

/-- Rejecting a row calls `on_row_rejected` with its number. -/
theorem events_rejectRow (hobserver : b.plan.observer = true) :
    b.rejectRow.events = b.events ++ [.rowRejected b.rowCount] := if_pos hobserver

end Steps

/-! ## Rows -/

/-- The builder `s` reads the row that follows the rows of `b`: its hooks are those of `b`, the begin
of the row, the fields, and the outcome once the row has been drained. -/
structure Hooked (b s : TableBuilder) : Prop where
  stacked : s.Stacked
  order : s.InSlotOrder
  observer : s.plan.observer = true
  grows : ∀ name (i : Nat), b.fieldIndex.lookup name = some i → s.fieldIndex.lookup name = some i
  trace : ∃ fields, (∀ e ∈ fields, e.FieldOf s.fieldIndex b.rowCount) ∧
    (¬ s.IsDirect → s.rowCount = b.rowCount ∧
      s.events = b.events ++ .beginRow b.rowCount :: fields) ∧
    (s.IsDirect → s.events = b.events ++ .beginRow b.rowCount :: (fields ++
      [.rowAccepted b.rowCount]))

section Rows

variable {b s s' : TableBuilder}

/-- `begin_row` calls `on_begin_row`, and the trace of the row starts with it. -/
theorem hooked_beginRow (htall : b.Tall) (horder : b.InSlotOrder)
    (hobserver : b.plan.observer = true) : b.Hooked b.beginRow where
  stacked := htall.beginRow
  order := ⟨horder.size, horder.indexed⟩
  observer := hobserver
  grows _ _ h := h
  trace := ⟨[], fun _ he => (List.not_mem_nil he).elim,
    fun _ => ⟨rfl, events_notify hobserver _⟩, fun h => absurd h b.not_isDirect_beginRow⟩

/-- More fields of a row that has not been counted: their hooks come after those of the row so
far. -/
theorem Hooked.emits (h : b.Hooked s) (hemits : s.Emits s') (hstacked : s'.Stacked)
    (hdirect : ¬ s.IsDirect) (hdirect' : ¬ s'.IsDirect) : b.Hooked s' := by
  obtain ⟨fields, hfields, htrace, -⟩ := h.trace
  obtain ⟨hcount, hevents⟩ := htrace hdirect
  obtain ⟨fields', hfields', hevents'⟩ := hemits.fields
  refine ⟨hstacked, hemits.order, hemits.plan ▸ h.observer,
    fun name i hi => hemits.grows name i (h.grows name i hi),
    fields ++ fields', fun e he => ?_, fun _ => ⟨hemits.rowCount.trans hcount, ?_⟩,
    fun hd => absurd hd hdirect'⟩
  · rcases List.mem_append.mp he with he | he
    · exact (hfields e he).mono hemits.grows
    · exact hcount ▸ hfields' e he
  · rw [hevents', hevents, List.append_assoc]
    rfl

/-- A step of the row that calls no hook keeps the trace as it is. -/
theorem Hooked.silent (h : b.Hooked s) (hemits : s.Emits s') (hstacked : s'.Stacked)
    (hevents : s'.events = s.events) (hsame : s'.IsDirect ↔ s.IsDirect) : b.Hooked s' := by
  obtain ⟨fields, hfields, htrace, htrace'⟩ := h.trace
  refine ⟨hstacked, hemits.order, hemits.plan ▸ h.observer,
    fun name i hi => hemits.grows name i (h.grows name i hi), fields,
    fun e he => (hfields e he).mono hemits.grows, fun hd => ?_, fun hd => ?_⟩
  · rw [hevents, hemits.rowCount]
    exact htrace (mt hsame.mpr hd)
  · rw [hevents]
    exact htrace' (hsame.mp hd)

/-- Draining the row in the middle announces its fields and accepts it. -/
theorem Hooked.drainMidRow (h : b.Hooked s) (hbuffering : s.buffering = true)
    (hdirect : ¬ s.IsDirect) : b.Hooked s.drainMidRow := by
  obtain ⟨hstacked, hisDirect⟩ := h.stacked.drainMidRow hbuffering hdirect
  obtain ⟨buf, hbuf⟩ : ∃ buf, s.rowBuf = some buf := by
    rw [TableBuilder.buffering, Bool.and_eq_true, ← h.stacked.armed] at hbuffering
    exact Option.isSome_iff_exists.mp hbuffering.1
  have hdrained := h.order.withDrained buf.fields
  have hmiddle := h.emits hdrained (h.stacked.withDrained (h.stacked.held buf hbuf)) hdirect (by
    rwa [IsDirect, (s.withDrained_frame buf.fields).1])
  have hundrained : ¬ (s.withDrained buf.fields).IsDirect := by
    rwa [IsDirect, (s.withDrained_frame buf.fields).1]
  rw [drainMidRow_eq hbuf] at hstacked hisDirect ⊢
  generalize s.withDrained buf.fields = d at hmiddle hundrained hstacked hisDirect ⊢
  obtain ⟨fields, hfields, htrace, -⟩ := hmiddle.trace
  obtain ⟨hcount, hevents⟩ := htrace hundrained
  refine ⟨hstacked, ⟨hmiddle.order.size, hmiddle.order.indexed⟩, hmiddle.observer, hmiddle.grows,
    fields, hfields, fun hd => absurd hisDirect hd, fun _ => ?_⟩
  refine (events_acceptRow (b := d.mapRowBuf _) hmiddle.observer).trans ?_
  show d.events ++ [.rowAccepted d.rowCount] = _
  rw [hevents, hcount, List.append_assoc]
  rfl

/-- A put that can be announced keeps the hooks of the row in order. -/
theorem Hooked.put (h : b.Hooked s) {p : Put} (hannounces : s.Announces p) :
    b.Hooked (s.put p) := by
  have hstacked := (h.stacked.put p).1
  have hfrozen := h.stacked.frozen
  cases htarget : p.target s.plan with
  | none =>
      rw [put_of_dropped htarget]
      exact h
  | some name =>
      have hlast := hannounces.last name htarget
      cases put_shape hfrozen htarget with
      | pushed hmode heq =>
          have hdirect : ¬ s.IsDirect := by
            rcases hmode with hbuf | ⟨hd, raw, value, rfl⟩
            · intro hd
              cases hbuf.symm.trans (h.stacked.counted hd).2
            · cases (hannounces.undrained hd raw value rfl).symm.trans htarget
          rw [heq] at hstacked ⊢
          refine h.emits (emits_pushFieldResolved h.order hfrozen hlast p.value) hstacked hdirect ?_
          rwa [IsDirect, rowBuf_pushFieldResolved hfrozen]
      | held _ hheld =>
          obtain ⟨hemits, hevents⟩ := hheld.emits h.order hfrozen hlast
          exact h.silent hemits hstacked hevents (h.stacked.keep hheld).2
      | drained hbuffering hdirect b' hheld heq =>
          obtain ⟨hemits, hevents⟩ := hheld.emits h.order hfrozen hlast
          obtain ⟨hkept, hsame⟩ := h.stacked.keep hheld
          rw [heq]
          exact (h.silent hemits hkept hevents hsame).drainMidRow
            (hheld.buffering.trans hbuffering) (mt hsame.mp hdirect)

/-- The builder `b'` has the hooks of `b` and those of one row. -/
structure RowDone (b b' : TableBuilder) : Prop where
  order : b'.InSlotOrder
  grows : ∀ name (i : Nat), b.fieldIndex.lookup name = some i → b'.fieldIndex.lookup name = some i
  trace : ∃ es, RowTrace b'.fieldIndex es ∧ b'.events = b.events ++ es

/-- The outcome of the row comes after its fields, and makes the trace of the row complete. -/
theorem Hooked.outcome (h : b.Hooked s) (hdirect : ¬ s.IsDirect) {outcome : Event}
    (houtcome : outcome = .rowAccepted s.rowCount ∨ outcome = .rowRejected s.rowCount)
    (hevents : s'.events = s.events ++ [outcome]) (hindex : s'.fieldIndex = s.fieldIndex)
    (horder : s'.InSlotOrder) : b.RowDone s' := by
  obtain ⟨fields, hfields, htrace, -⟩ := h.trace
  obtain ⟨hcount, hprefix⟩ := htrace hdirect
  rw [hcount] at houtcome
  refine ⟨horder, hindex ▸ h.grows, .beginRow b.rowCount :: (fields ++ [outcome]),
    ⟨b.rowCount, fields, outcome, rfl, hindex ▸ hfields, houtcome⟩, ?_⟩
  rw [hevents, hprefix, List.append_assoc]
  rfl

/-- `end_row` announces the outcome of the row, unless that has been done. Only a row that was
drained in the middle has its outcome announced before, and then it has no field hook to come. -/
theorem Hooked.endRow (h : b.Hooked s) : b.RowDone s.endRow := by
  obtain ⟨hfill, hfillEvents⟩ := h.order.nullFill
  have hobserver : s.nullFill.plan.observer = true := hfill.plan ▸ h.observer
  rw [TableBuilder.endRow]
  by_cases hbuffering : s.buffering = true
  · obtain ⟨buf, hbuf⟩ : ∃ buf, s.rowBuf = some buf := by
      have hsome := hbuffering
      rw [TableBuilder.buffering, Bool.and_eq_true, ← h.stacked.armed] at hsome
      exact Option.isSome_iff_exists.mp hsome.1
    simp only [hbuffering, Bool.not_true, Bool.false_eq_true, ↓reduceIte, hbuf]
    by_cases hdirect : buf.direct = true
    · -- the row has been accepted already
      have hisDirect : s.IsDirect := by
        rw [IsDirect, hbuf]
        exact hdirect
      obtain ⟨fields, hfields, -, htrace⟩ := h.trace
      rw [if_pos hdirect, nullFillMissing]
      refine ⟨hfill.order, fun name i hi => hfill.grows name i (h.grows name i hi), _,
        ⟨b.rowCount, fields, _, rfl, fun e he => (hfields e he).mono hfill.grows, .inl rfl⟩, ?_⟩
      rw [hfillEvents, htrace hisDirect]
    · have hisDirect : ¬ s.IsDirect := by
        rw [IsDirect, hbuf]
        exact hdirect
      rw [if_neg hdirect]
      generalize decide (_ = Verdict.pass) = pass
      cases pass with
      | true =>
          have hundrained : ¬ (s.withDrained buf.fields).IsDirect := by
            rwa [IsDirect, (s.withDrained_frame buf.fields).1]
          have hmiddle := h.emits (h.order.withDrained buf.fields)
            (h.stacked.withDrained (h.stacked.held buf hbuf)) hisDirect hundrained
          obtain ⟨hfill, hfillEvents⟩ := hmiddle.order.nullFill
          have hobserver : (s.withDrained buf.fields).nullFill.plan.observer = true :=
            hfill.plan ▸ hmiddle.observer
          rw [drainBuffered_true _ hbuf, if_neg hdirect]
          refine hmiddle.outcome hundrained (.inl rfl) ?_ (nullFill_fieldIndex _)
            ⟨hfill.order.size, hfill.order.indexed⟩
          refine (events_acceptRow hobserver).trans ?_
          rw [hfillEvents, nullFill_rowCount]
      | false =>
          rw [drainBuffered_false _ hbuf]
          exact h.outcome hisDirect (.inr rfl) (if_pos h.observer) rfl
            ⟨h.order.size, h.order.indexed⟩
  · have hisDirect : ¬ s.IsDirect := fun hd => hbuffering (h.stacked.counted hd).2
    have hbuffering : s.buffering = false := by simpa using hbuffering
    have haccept : b.RowDone s.nullFill.acceptRow := by
      refine h.outcome hisDirect (.inl rfl) ?_ (nullFill_fieldIndex _)
        ⟨hfill.order.size, hfill.order.indexed⟩
      rw [events_acceptRow hobserver, hfillEvents, nullFill_rowCount]
    have hreject : b.RowDone s.nullFill.popRow.rejectRow := by
      refine h.outcome hisDirect (.inr rfl) ?_ (nullFill_fieldIndex _) ⟨?_, hfill.order.indexed⟩
      · refine (events_rejectRow (b := s.nullFill.popRow) hobserver).trans ?_
        show s.nullFill.events ++ [.rowRejected s.nullFill.rowCount] = _
        rw [hfillEvents, nullFill_rowCount]
      · show s.nullFill.columnOrder.length = (s.nullFill.columns.map _).length
        rw [List.length_map, hfill.order.size]
    simp only [hbuffering, Bool.not_false, ↓reduceIte, finishRow]
    split
    · split
      · exact haccept
      · exact hreject
    · exact haccept

/-- A list of puts that can be announced. -/
theorem Hooked.putAll (h : b.Hooked s) {puts : List Put}
    (hannounces : ∀ done p, done ++ [p] <+: puts → (s.putAll done).Announces p) :
    b.Hooked (s.putAll puts) := by
  induction puts generalizing s with
  | nil => exact h
  | cons p puts ih =>
      refine ih (h.put (hannounces [] p (List.prefix_append [p] puts))) fun done q hq => ?_
      exact hannounces (p :: done) q ((List.cons_prefix_cons).mpr ⟨rfl, hq⟩)

end Rows

/-! ## Runs -/

/-- Every put of every row can be announced in the state it comes to. -/
def AnnouncesAll (plan : ExecutionPlan) (rows : List (List Put)) : Prop :=
  ∀ before puts, before ++ [puts] <+: rows → ∀ done p, done ++ [p] <+: puts →
    (((withPlan plan).feed before).beginRow.putAll done).Announces p

/-- The last row of a feed comes after the others; the induction over feeds goes from there. -/
theorem feed_append_singleton (b : TableBuilder) (rows : List (List Put)) (puts : List Put) :
    b.feed (rows ++ [puts]) = (b.feed rows).row puts := List.foldl_append

/-- A new builder has its slots in the export order. -/
theorem inSlotOrder_withPlan (plan : ExecutionPlan) : (withPlan plan).InSlotOrder := by
  have hdeclared := declared_withPlan plan
  have horder := columnOrder_withPlan plan
  refine ⟨?_, ?_⟩
  · rw [horder, hdeclared.size, RowTable.names, List.length_map]
  · rw [horder]
    exact hdeclared.indexed

/-- **Observer traces are well formed**: in a run whose puts can all be announced the hooks are those
of its rows, one after the other, each with one outcome after its fields. -/
theorem wellTraced_feed (plan : ExecutionPlan) (rows : List (List Put))
    (hobserver : plan.observer = true) (hannounces : AnnouncesAll plan rows) :
    ((withPlan plan).feed rows).WellTraced rows.length := by
  suffices h : ((withPlan plan).feed rows).InSlotOrder ∧
      ((withPlan plan).feed rows).WellTraced rows.length from h.2
  induction rows using List.reverseRecOn with
  | nil =>
      obtain ⟨columns, fieldIndex, columnOrder, rowDirty, mask, heq⟩ := withPlan_eq plan
      refine ⟨inSlotOrder_withPlan plan, [], rfl, fun es he => (List.not_mem_nil he).elim, ?_⟩
      show (withPlan plan).events = []
      rw [heq]
  | append_singleton rows puts ih =>
      obtain ⟨horder, traces, hlength, htraces, hevents⟩ :=
        ih fun before puts' hpre => hannounces before puts' (hpre.trans (List.prefix_append _ _))
      have htall := (tall_withPlan plan).feed rows
      obtain ⟨-, hplan, -, -⟩ := declared_callAll_withPlan plan (rows.flatMap rowCalls)
      rw [← feed_eq_callAll] at hplan
      have hstart := hooked_beginRow htall horder (by rw [hplan]; exact hobserver)
      obtain ⟨horder', hgrows, es, hes, hevents'⟩ :=
        (hstart.putAll (hannounces rows puts (List.prefix_refl _))).endRow
      rw [feed_append_singleton]
      refine ⟨horder', traces ++ [es], ?_, fun es' he => ?_, ?_⟩
      · rw [List.length_append, List.length_append, hlength]
        rfl
      · rcases List.mem_append.mp he with he | he
        · exact (htraces es' he).mono hgrows
        · rw [List.mem_singleton.mp he]
          exact hes
      · rw [List.flatten_append, ← hevents, List.flatten_singleton]
        exact hevents'

/-- Without a projection the puts that never drain a row can all be announced. -/
theorem announcesAll_of_fields {plan : ExecutionPlan} (hschema : plan.schemaOrder = [])
    {rows : List (List Put)}
    (hfields : ∀ puts ∈ rows, ∀ raw value, Put.resolveAndPut raw value ∉ puts) :
    AnnouncesAll plan rows := by
  intro before puts hbefore done p hdone
  have hplan : (((withPlan plan).feed before).beginRow.putAll done).plan = plan := by
    obtain ⟨-, hplan, -, -⟩ := declared_callAll_withPlan plan
      (before.flatMap rowCalls ++ .beginRow :: done.map .put)
    rwa [← inRow_eq_callAll] at hplan
  refine ⟨fun _ raw value hp => ?_, fun name _ => .inr ?_⟩
  · subst hp
    have hputs : puts ∈ rows := hbefore.mem (List.mem_append_right _ (List.mem_singleton_self _))
    exact absurd (hdone.mem (List.mem_append_right _ (List.mem_singleton_self _)))
      (hfields puts hputs raw value)
  · exact schemaInsertIndex_of_notMem (by rw [hplan, hschema]; exact List.not_mem_nil)

end Hooks

section Examples

attribute [local instance] integerPlatform

/-- A plan with an observer that keeps the rows with `k = "1"`. -/
def observedPlan : ExecutionPlan := { filter := some (.equal "k" "1"), observer := true }

/-- A row that is kept, and one that is not. -/
def observedRows : List (List Put) :=
  [[.field "k" (.str "1"), .field "a" (.str "x")], [.field "k" (.str "2")]]

/-- Under a filter, a row that is kept and one that is not leave one trace each. -/
theorem wellTraced_observed :
    ((withPlan observedPlan).feed observedRows).WellTraced observedRows.length := by
  refine wellTraced_feed observedPlan observedRows rfl (announcesAll_of_fields rfl ?_)
  intro puts hputs raw value hp
  simp only [observedRows, List.mem_cons, List.not_mem_nil, or_false] at hputs
  rcases hputs with rfl | rfl <;> simp at hp

/-- A field after the filter has passed is announced after the row was accepted, with the index of
the next row. -/
theorem wellTraced_falls :
    ¬ ∀ (plan : ExecutionPlan) (rows : List (List Put)), plan.observer = true →
      ((withPlan plan).feed rows).WellTraced rows.length := by
  intro h
  obtain ⟨traces, hlength, htraces, hevents⟩ := h observedPlan
    [[.resolveAndPut "k" (.str "1"), .resolveAndPut "a" (.str "x")]] rfl
  obtain ⟨es, rfl⟩ := List.length_eq_one_iff.mp hlength
  obtain ⟨i, fields, outcome, rfl, -, houtcome⟩ := htraces es (List.mem_singleton_self es)
  have hlast : ((withPlan observedPlan).feed
      [[.resolveAndPut "k" (.str "1"), .resolveAndPut "a" (.str "x")]]).events.getLast? =
        some (.putField 1 "a" 1 (.str "x")) := rfl
  rw [hevents, List.flatten_singleton, ← List.cons_append, List.getLast?_concat,
    Option.some.injEq] at hlast
  rcases houtcome with rfl | rfl <;> cases hlast

end Examples

end TableBuilder

end Rypipe
