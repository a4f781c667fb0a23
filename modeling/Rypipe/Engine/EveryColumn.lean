import Rypipe.Engine.Strict

/-! # What every column of a builder has

A property of columns that the column operations keep holds of every column a run leads to, and of
what the run exports. `Closed` collects what the operations have to keep, for pushed values that suit the
type of the column (`received` is the type and the value of a call); `Every` is the invariant, which takes
the values waiting in the row buffer along. -/

namespace Rypipe

section EveryColumn

variable [Platform]

/-- The operations of the engine keep the property `P` of columns: columns start with a type of `T`,
and the values pushed to a column of type `ty` have `Q ty`. -/
structure Closed (T : FieldType → Prop) (P : ColumnBuilder → Prop) (Q : FieldType → Value → Prop) :
    Prop where
  ofType : ∀ ty, T ty → P (.ofType ty)
  pushNull : ∀ c, P c → P (c.push none)
  pop : ∀ c, P c → P c.pop
  pushValue : ∀ c value, P c → Q c.kind value → P (c.pushValue value)
  upgrade : ∀ c minRows maxRatio maxSize, P c → P (c.tryUpgradeToDict minRows maxRatio maxSize)
  emptied : ∀ c, P c → P c.emptied

variable {T : FieldType → Prop} {P : ColumnBuilder → Prop} {Q : FieldType → Value → Prop}

/-- Back-filling keeps the property. -/
theorem Closed.pushNulls (hclosed : Closed T P Q) {c : ColumnBuilder} (hc : P c) (n : Nat) :
    P (c.pushNulls n) := by
  induction n generalizing c with
  | zero => exact hc
  | succ n ih => exact ih (hclosed.pushNull c hc)

/-- Cutting a column back keeps the property. -/
theorem Closed.popN (hclosed : Closed T P Q) {c : ColumnBuilder} (hc : P c) (n : Nat) :
    P (ColumnBuilder.pop^[n] c) := by
  induction n generalizing c with
  | zero => exact hc
  | succ n ih => exact ih (hclosed.pop c hc)

namespace TableBuilder

/-- The type of the column a call writes to, and the value it writes there. -/
def received (b : TableBuilder) : Call → Option (FieldType × Value)
  | .put p => (p.target b.plan).bind fun name =>
      ((b.ensureColumnIdx name).1.kinds[(b.ensureColumnIdx name).2]?).map fun ty => (ty, p.value)
  | .putFieldAt slot value => (b.kinds[slot]?).map fun ty => (ty, value)
  | .putStrAt slot value => (b.kinds[slot]?).map fun ty => (ty, .str value)
  | .beginRow | .endRow => none

/-- The value a call writes suits its column. -/
def Suits (Q : FieldType → Value → Prop) (b : TableBuilder) (c : Call) : Prop :=
  ∀ ty value, b.received c = some (ty, value) → Q ty value

/-- The value of every call of a list suits its column. -/
def SuitsAll (Q : FieldType → Value → Prop) (b : TableBuilder) : List Call → Prop
  | [] => True
  | c :: calls => b.Suits Q c ∧ (b.call c).SuitsAll Q calls

/-- Every column has `P`, and the plan creates columns of types in `T`. -/
structure EveryColumn (T : FieldType → Prop) (P : ColumnBuilder → Prop) (b : TableBuilder) : Prop where
  types : ∀ name, T (b.plan.columnType name)
  columns : ∀ c ∈ b.columns, P c

/-- A value waiting in the row buffer suits its column. There is one, unless a value of an unknown field was
buffered for the first slot of a layout without columns, which stays without. -/
structure Awaits (Q : FieldType → Value → Prop) (b : TableBuilder) (p : Nat × Value) : Prop where
  suits : ∀ ty, b.kinds[p.1]? = some ty → Q ty p.2
  inRange : p.1 < b.kinds.length ∨ ∃ frozen ∈ b.frozen, frozen.exact = true

/-- Every column has `P`, and every buffered value suits its column. -/
structure Every (T : FieldType → Prop) (P : ColumnBuilder → Prop) (Q : FieldType → Value → Prop)
    (b : TableBuilder) : Prop extends EveryColumn T P b where
  indexed : ∀ name (i : Nat), b.fieldIndex.lookup name = some i → i < b.kinds.length
  buffered : ∀ buf, b.rowBuf = some buf → ∀ p ∈ buf.fields, b.Awaits Q p

variable {b b' : TableBuilder}

/-- The columns have not changed, under the same plan. -/
theorem EveryColumn.congr (h : EveryColumn T P b) (hplan : b'.plan = b.plan)
    (hcolumns : b'.columns = b.columns) : EveryColumn T P b' :=
  ⟨hplan ▸ h.types, hcolumns ▸ h.columns⟩

/-- A buffered value suits its column as long as the columns keep their types. -/
theorem Awaits.congr {p : Nat × Value} (h : b.Awaits Q p) (hsame : b.SameColumns b') :
    b'.Awaits Q p :=
  ⟨hsame.kinds ▸ h.suits, by rw [hsame.kinds, hsame.frozen]; exact h.inRange⟩

/-- A step that keeps the types of the columns keeps the invariant if it keeps the property of the
columns, and only drops values from the row buffer. -/
theorem Every.step (h : Every T P Q b) (hsame : b.SameColumns b')
    (hcolumns : ∀ c ∈ b'.columns, P c)
    (hbuf : ∀ buf', b'.rowBuf = some buf' → ∃ buf, b.rowBuf = some buf ∧
      ∀ p ∈ buf'.fields, p ∈ buf.fields) : Every T P Q b' := by
  refine ⟨⟨hsame.plan ▸ h.types, hcolumns⟩, ?_, fun buf' hbuf' p hp => ?_⟩
  · rw [hsame.index, hsame.kinds]
    exact h.indexed
  · obtain ⟨buf, hb, hfields⟩ := hbuf buf' hbuf'
    exact (h.buffered buf hb p (hfields p hp)).congr hsame

/-- Nothing the invariant reads has changed. -/
theorem Every.congr (h : Every T P Q b) (hsame : b.SameColumns b') (hcolumns : b'.columns = b.columns)
    (hbuf : b'.rowBuf = b.rowBuf) : Every T P Q b' :=
  h.step hsame (hcolumns ▸ h.columns) fun buf hb => ⟨buf, hbuf ▸ hb, fun _ hp => hp⟩

/-- The row buffer keeps its values, or takes another one. -/
theorem Every.mapRowBuf (h : Every T P Q b) {f : RowBuffer → RowBuffer}
    (hf : ∀ buf, b.rowBuf = some buf → ∀ p ∈ (f buf).fields, b.Awaits Q p) :
    Every T P Q (b.mapRowBuf f) := by
  refine ⟨⟨h.types, h.columns⟩, h.indexed, fun buf hbuf p hp => ?_⟩
  obtain ⟨buf₀, hbuf₀, rfl⟩ := Option.map_eq_some_iff.mp hbuf
  exact (hf buf₀ hbuf₀ p hp).congr (b.quiet_mapRowBuf f).toSameColumns

/-- The row buffer changes apart from its values. -/
theorem Every.mapRowBuf_same (h : Every T P Q b) {f : RowBuffer → RowBuffer}
    (hf : ∀ buf, (f buf).fields = buf.fields) : Every T P Q (b.mapRowBuf f) :=
  h.mapRowBuf fun buf hbuf p hp => h.buffered buf hbuf p (hf buf ▸ hp)

/-- The observer reads the columns only. -/
theorem Every.notifyPutField (h : Every T P Q b) (idx : Nat) (value : Value) :
    Every T P Q (b.notifyPutField idx value) :=
  h.congr (b.quiet_notifyPutField idx value).toSameColumns rfl rfl

/-- A value that suits a column is written to it: the cell is one of those that the closure allows
in a column of the type. -/
theorem Every.writeSlot (hclosed : Closed T P Q) (h : Every T P Q b) (idx : Nat) {value : Value}
    (hvalue : ∀ ty, b.kinds[idx]? = some ty → Q ty value) : Every T P Q (b.writeSlot idx value) := by
  refine h.step (b.quiet_writeSlot idx value).toSameColumns (fun c hc => ?_)
    fun buf hb => ⟨buf, hb, fun _ hp => hp⟩
  obtain ⟨i, hi⟩ := List.mem_iff_getElem?.mp hc
  rw [TableBuilder.writeSlot, List.getElem?_modify, Option.map_eq_map,
    Option.map_eq_some_iff] at hi
  obtain ⟨c₀, hc₀, rfl⟩ := hi
  have hold := h.columns c₀ (List.mem_of_getElem? hc₀)
  split
  · next heq =>
    subst heq
    have hkind : b.kinds[idx]? = some c₀.kind := by
      rw [kinds, List.getElem?_map, hc₀, Option.map_some]
    have hsuits := hvalue c₀.kind hkind
    -- a value the row has already goes first
    show P ((if b.rowCount < c₀.len then c₀.pop else c₀).pushValue value)
    split
    · exact hclosed.pushValue _ value (hclosed.pop c₀ hold) (c₀.kind_pop.symm ▸ hsuits)
    · exact hclosed.pushValue _ value hold hsuits
  · exact hold

/-- Missing cells become nulls, which every column of the property may have. -/
theorem Every.nullFill (hclosed : Closed T P Q) (h : Every T P Q b) : Every T P Q b.nullFill := by
  refine h.step b.quiet_nullFill.toSameColumns (fun c hc => ?_) fun buf hb => ⟨buf, ?_, fun _ hp => hp⟩
  · rw [TableBuilder.nullFill] at hc
    split at hc
    · exact h.columns c hc
    · obtain ⟨i, hi⟩ := List.mem_iff_getElem?.mp hc
      rw [List.getElem?_mapIdx, Option.map_eq_some_iff] at hi
      obtain ⟨c₀, hc₀, rfl⟩ := hi
      have hold := h.columns c₀ (List.mem_of_getElem? hc₀)
      split
      · exact hold
      · exact hclosed.pushNull c₀ hold
  · rw [← hb, TableBuilder.nullFill]
    split <;> rfl

/-- The end of a direct row keeps the columns, or pops the row again. -/
theorem Every.finishRow (hclosed : Closed T P Q) (h : Every T P Q b) : Every T P Q b.finishRow := by
  have hfill := h.nullFill hclosed
  rw [TableBuilder.finishRow]
  split
  · split
    · exact hfill.congr (quiet_acceptRow _).toSameColumns rfl rfl
    · refine hfill.step ((quiet_popRow _).trans (quiet_rejectRow _)).toSameColumns (fun c hc => ?_)
        fun buf hb => ⟨buf, hb, fun _ hp => hp⟩
      obtain ⟨c₀, hc₀, rfl⟩ := List.mem_map.mp hc
      exact hclosed.pop c₀ (hfill.columns c₀ hc₀)
  · exact hfill.congr (quiet_acceptRow _).toSameColumns rfl rfl

/-- Buffered values are written to the columns they suit, by induction on them; the invariant has
each of them for the column of its slot. -/
theorem Every.drainFields (hclosed : Closed T P Q) (h : Every T P Q b) (seen : WordSet 64)
    {fields : List (Nat × Value)} (hfields : ∀ p ∈ fields, b.Awaits Q p) :
    Every T P Q (b.drainFields seen fields) := by
  induction fields generalizing b seen with
  | nil => exact h
  | cons p fields ih =>
    have hrest : ∀ q ∈ fields, b.Awaits Q q := fun q hq => hfields q (List.mem_cons_of_mem p hq)
    rw [TableBuilder.drainFields]
    split
    · exact ih h seen hrest
    · have hwritten := h.writeSlot hclosed p.1 (hfields p List.mem_cons_self).suits
      have hsame := ((b.quiet_writeSlot p.1 p.2).trans
        (quiet_notifyPutField _ p.1 p.2)).toSameColumns
      exact ih (hwritten.notifyPutField _ _) _ fun q hq => (hrest q hq).congr hsame

/-- Clearing the row buffer leaves no value to account for. -/
theorem Every.clearBuffered (h : Every T P Q b) : Every T P Q b.clearBuffered :=
  h.mapRowBuf fun _ _ _ hp => (List.not_mem_nil hp).elim

/-- The row buffer is drained to the columns, or dropped, and holds no value in either case. -/
theorem Every.drainBuffered (hclosed : Closed T P Q) (h : Every T P Q b) (pass : Bool) :
    Every T P Q (b.drainBuffered pass) := by
  cases hbuf : b.rowBuf with
  | none =>
    rw [TableBuilder.drainBuffered, hbuf]
    exact h
  | some buf =>
    cases pass with
    | true =>
      have hgrow : Every T P Q b.growDirty := h.congr (b.quiet_withDirty _).toSameColumns rfl rfl
      have hdrained : Every T P Q (b.withDrained buf.fields) :=
        hgrow.drainFields hclosed _ fun p hp =>
          (h.buffered buf hbuf p (List.mem_reverse.mp hp)).congr (b.quiet_withDirty _).toSameColumns
      have hcount : ∀ {b : TableBuilder}, Every T P Q b → Every T P Q b.acceptRow.clearBuffered :=
        fun hb => Every.clearBuffered (hb.congr (quiet_acceptRow _).toSameColumns rfl rfl)
      rw [drainBuffered_true _ hbuf]
      split
      · exact hcount hdrained
      · exact hcount (hdrained.nullFill hclosed)
    | false =>
      have hdropped : Every T P Q ({ b with rowDirty := b.rowDirty.clear } : TableBuilder).rejectRow :=
        h.congr ((b.quiet_withDirty _).trans (quiet_rejectRow _)).toSameColumns rfl rfl
      rw [drainBuffered_false _ hbuf]
      exact hdropped.clearBuffered

/-- The end of a row, in every mode. -/
theorem Every.endRow (hclosed : Closed T P Q) (h : Every T P Q b) : Every T P Q b.endRow := by
  rw [TableBuilder.endRow]
  split
  · exact h.finishRow hclosed
  · split
    · exact h.drainBuffered hclosed true
    · split
      · exact h.nullFill hclosed
      · exact h.drainBuffered hclosed _

/-- A row begins with an empty buffer. -/
theorem Every.beginRow (h : Every T P Q b) : Every T P Q b.beginRow := by
  refine ⟨⟨h.types, h.columns⟩, h.indexed, fun buf hbuf p hp => ?_⟩
  obtain ⟨buf₀, -, rfl⟩ := Option.map_eq_some_iff.mp hbuf
  cases hp

/-- A new column is back-filled with nulls, and no value was waiting for its slot. -/
theorem Every.createColumn (hclosed : Closed T P Q) (h : Every T P Q b) {name : String}
    (hexact : ∀ frozen ∈ b.frozen, frozen.exact = false) : Every T P Q (b.createColumn name) := by
  have hkinds : (b.createColumn name).kinds = b.kinds ++ [b.plan.columnType name] := by
    rw [kinds, kinds]
    show (b.columns ++ [_]).map ColumnBuilder.kind = _
    rw [List.map_append, List.map_singleton, ColumnBuilder.kind_pushNulls, ColumnBuilder.kind_ofType]
  refine ⟨⟨h.types, fun c hc => ?_⟩, fun n i hi => ?_, fun buf hbuf p hp => ?_⟩
  · rcases List.mem_append.mp hc with hc | hc
    · exact h.columns c hc
    · rw [List.mem_singleton.mp hc]
      exact hclosed.pushNulls (hclosed.ofType _ (h.types name)) _
  · rw [hkinds, List.length_append, List.length_singleton]
    have hi : (b.fieldIndex.insert name b.columns.length).lookup n = some i := hi
    by_cases hn : n = name
    · subst hn
      rw [AList.lookup_insert, Option.some.injEq] at hi
      rw [← hi, kinds, List.length_map]
      exact Nat.lt_succ_self _
    · rw [AList.lookup_insert_ne hn] at hi
      exact Nat.lt_succ_of_lt (h.indexed n i hi)
  · have hp := h.buffered buf hbuf p hp
    have hlt : p.1 < b.kinds.length := by
      refine hp.inRange.resolve_right ?_
      rintro ⟨frozen, hmem, htrue⟩
      rw [hexact frozen hmem] at htrue
      cases htrue
    refine ⟨fun ty hty => hp.suits ty ?_, .inl ?_⟩
    · rwa [hkinds, List.getElem?_append_left hlt] at hty
    · rw [hkinds, List.length_append]
      exact Nat.lt_add_right _ hlt

/-- The slot of a column is there, or no column can be created; a new column starts with nulls for
the rows before it. -/
theorem Every.ensureColumnIdx (hclosed : Closed T P Q) (h : Every T P Q b) (name : String) :
    Every T P Q (b.ensureColumnIdx name).1 ∧
      ((b.ensureColumnIdx name).2 < (b.ensureColumnIdx name).1.kinds.length ∨
        ∃ frozen ∈ (b.ensureColumnIdx name).1.frozen, frozen.exact = true) := by
  rw [TableBuilder.ensureColumnIdx]
  cases hlook : b.fieldIndex.lookup name with
  | some i => exact ⟨h, .inl (h.indexed name i hlook)⟩
  | none =>
    have hnot : name ∉ b.fieldIndex := AList.lookup_eq_none.mp hlook
    cases hexact : b.exactWithout name with
    | some frozen =>
      rw [exactWithout, if_neg hnot, Option.filter_eq_some_iff] at hexact
      exact ⟨h.congr ⟨rfl, rfl, rfl, rfl, rfl⟩ rfl rfl, .inr ⟨frozen, hexact⟩⟩
    | none =>
      rw [exactWithout, if_neg hnot, Option.filter_eq_none_iff] at hexact
      refine ⟨h.createColumn hclosed fun frozen hmem => by simpa using hexact frozen hmem, .inl ?_⟩
      show b.columns.length < ((b.columns ++ [_]).map ColumnBuilder.kind).length
      rw [List.length_map, List.length_append, List.length_singleton]
      exact Nat.lt_succ_self _

/-- The value of a field suits its column. -/
def SuitsField (Q : FieldType → Value → Prop) (b : TableBuilder) (name : String) (value : Value) :
    Prop :=
  ∀ ty, (b.ensureColumnIdx name).1.kinds[(b.ensureColumnIdx name).2]? = some ty → Q ty value

/-- A value that suits its column is pushed to it, after the column has been created if it is
new. -/
theorem Every.pushFieldResolved (hclosed : Closed T P Q) (h : Every T P Q b) (name : String)
    {value : Value} (hvalue : b.SuitsField Q name value) :
    Every T P Q (b.pushFieldResolved name value) := by
  rw [TableBuilder.pushFieldResolved]
  split
  · exact h.congr ⟨rfl, rfl, rfl, rfl, rfl⟩ rfl rfl
  · have hensured := (h.ensureColumnIdx hclosed name).1
    rw [SuitsField] at hvalue
    dsimp only
    generalize b.ensureColumnIdx name = ensured at hensured hvalue ⊢
    have hready : Every T P Q (((ensured.1.recordStrictViolationAt ensured.2 value).notifyPutField
        ensured.2 value).recordOrdinal ensured.2 name) :=
      hensured.congr ⟨rfl, rfl, rfl, rfl, rfl⟩ rfl rfl
    exact hready.writeSlot hclosed _ hvalue

/-- A value that suits its column is buffered under its slot, and awaits the column there. -/
theorem Every.stageField (hclosed : Closed T P Q) (h : Every T P Q b) (name : String)
    {value : Value} (hvalue : b.SuitsField Q name value) :
    Every T P Q (b.stageField name value).1 := by
  obtain ⟨hensured, hrange⟩ := h.ensureColumnIdx hclosed name
  have hidx : b.ensureColumnIdx name = ((b.ensureColumnIdx name).1, (b.ensureColumnIdx name).2) :=
    rfl
  obtain ⟨err, g, hstage, hg⟩ := stageField_eq hidx value
  rw [hstage]
  have hchecked : Every T P Q { (b.ensureColumnIdx name).1 with strictError := err } :=
    hensured.congr ⟨rfl, rfl, rfl, rfl, rfl⟩ rfl rfl
  refine hchecked.mapRowBuf fun buf hbuf p hp => ?_
  rw [(hg buf).1] at hp
  rcases Assoc.mem_put hp with rfl | hp
  · exact ⟨hvalue, hrange⟩
  · exact hchecked.buffered buf hbuf p hp

/-- The filter is evaluated on the row so far. -/
theorem Every.evaluateRow (h : Every T P Q b) (slot : Nat) : Every T P Q (b.evaluateRow slot) := by
  obtain ⟨g, heq, hg⟩ := b.evaluateRow_eq slot
  rw [heq]
  exact h.mapRowBuf_same fun buf => (hg buf).1

/-- A buffered put stages a value that suits its column, and evaluates the row. -/
theorem Every.bufferField (hclosed : Closed T P Q) (h : Every T P Q b) (name : String)
    {value : Value} (hvalue : b.SuitsField Q name value) :
    Every T P Q (b.bufferField name value) := by
  have hstaged := h.stageField hclosed name hvalue
  rw [TableBuilder.bufferField]
  dsimp only
  split
  · exact hstaged.evaluateRow _
  · exact hstaged

/-- A put of a value that suits its column, by any entry point and in every mode. The value is
written at once, or it waits in the row buffer, where it is accounted for until the row is drained
or dropped. -/
theorem Every.put (hclosed : Closed T P Q) (h : Every T P Q b) {p : Put}
    (hvalue : ∀ name, p.target b.plan = some name → b.SuitsField Q name p.value) :
    Every T P Q (b.put p) := by
  have hreport : ∀ message, Every T P Q (b.reportUnknown message) :=
    fun _ => h.congr ⟨rfl, rfl, rfl, rfl, rfl⟩ rfl rfl
  -- in the buffered mode the value waits in the row buffer, and otherwise it goes to its column
  by_cases hbuf : b.buffering = true
  · cases p with
    | field raw value =>
      simp only [TableBuilder.put, putField, hbuf, Bool.not_true, Bool.false_eq_true, if_false]
      split
      · exact h
      · next resolved hres =>
        split
        · exact hreport _
        · exact h.bufferField hclosed _ (hvalue resolved hres)
    | fieldResolved resolved value =>
      simp only [TableBuilder.put, putFieldResolved, hbuf, Bool.not_true, Bool.false_eq_true,
        if_false]
      split
      · exact hreport _
      · exact h.bufferField hclosed _ (hvalue resolved rfl)
    | resolveAndPut raw value =>
      simp only [TableBuilder.put, resolveAndPut, hbuf, Bool.not_true, Bool.false_eq_true, if_false]
      split
      · exact h
      · next resolved hres =>
        have hsuits : b.SuitsField Q resolved value := hvalue resolved hres
        -- `resolve_and_put` stages the value, and drains the row once the filter has decided
        have hstaged := h.stageField hclosed resolved hsuits
        split
        · exact hreport _
        · split
          · exact h.pushFieldResolved hclosed resolved hsuits
          · split
            · have hread := hstaged.evaluateRow (b.stageField resolved value).2
              split
              · have hdirect := hread.mapRowBuf_same
                  (f := fun buf => { buf with direct := true }) fun _ => rfl
                exact hdirect.drainBuffered hclosed true
              · exact hread
            · exact hstaged
  · rw [put_of_not_buffering (by simpa using hbuf)]
    split
    · next resolved hres => exact h.pushFieldResolved hclosed _ (hvalue resolved hres)
    · exact h

/-- A value that suits the column of a slot is put there. -/
theorem Every.putFieldAt (hclosed : Closed T P Q) (h : Every T P Q b) (slot : Nat) {value : Value}
    (hvalue : ∀ ty, b.kinds[slot]? = some ty → Q ty value) :
    Every T P Q (b.putFieldAt slot value) := by
  rw [TableBuilder.putFieldAt]
  split
  · exact h
  · have hready : Every T P Q ((b.recordStrictViolationAt slot value).notifyPutField slot value) :=
      h.congr ⟨rfl, rfl, rfl, rfl, rfl⟩ rfl rfl
    exact hready.writeSlot hclosed slot hvalue

/-- **One call** whose value suits its column keeps the property of all columns, whichever of the
calls of the row interface it is. -/
theorem Every.call (hclosed : Closed T P Q) (h : Every T P Q b) {c : Call} (hsuits : b.Suits Q c) :
    Every T P Q (b.call c) := by
  cases c with
  | beginRow => exact h.beginRow
  | put p =>
    refine h.put hclosed fun name hname ty hty => hsuits ty p.value ?_
    rw [received, hname, Option.bind_some, hty, Option.map_some]
  | putFieldAt slot value =>
    refine h.putFieldAt hclosed slot fun ty hty => hsuits ty value ?_
    rw [received, hty, Option.map_some]
  | putStrAt slot value =>
    show Every T P Q (b.putStrAt slot value)
    rw [putStrAt_eq]
    refine h.putFieldAt hclosed slot fun ty hty => hsuits ty (.str value) ?_
    rw [received, hty, Option.map_some]
  | endRow => exact h.endRow hclosed

/-- **A run of calls** whose values suit their columns. -/
theorem Every.callAll (hclosed : Closed T P Q) (h : Every T P Q b) {calls : List Call}
    (hsuits : b.SuitsAll Q calls) : Every T P Q (b.callAll calls) := by
  induction calls generalizing b with
  | nil => exact h
  | cons c calls ih => exact ih (h.call hclosed hsuits.1) hsuits.2

/-- The first calls of a run suit their columns. -/
theorem SuitsAll.before {before calls : List Call} (h : b.SuitsAll Q (before ++ calls)) :
    b.SuitsAll Q before := by
  induction before generalizing b with
  | nil => trivial
  | cons c before ih => exact ⟨h.1, ih h.2⟩

/-- In a run of calls whose values suit their columns, every value does. -/
theorem SuitsAll.suits {before calls : List Call} {c : Call} (h : b.SuitsAll Q (before ++ c :: calls)) :
    (b.callAll before).Suits Q c := by
  induction before generalizing b with
  | nil => exact h.1
  | cons c' before ih => exact ih h.2

/-! ## The start of a run, and its export -/

/-- A declared column starts with its type and no cell, or with nulls for the rows before it. -/
theorem EveryColumn.declareColumn (hclosed : Closed T P Q) (h : EveryColumn T P b) (name : String)
    {ty : FieldType} (hty : T ty) : EveryColumn T P (b.declareColumn name ty) := by
  rw [TableBuilder.declareColumn]
  split
  · exact h
  · refine ⟨h.types, fun c hc => ?_⟩
    rcases List.mem_append.mp hc with hc | hc
    · exact h.columns c hc
    · rw [List.mem_singleton.mp hc]
      exact hclosed.ofType ty hty

/-- Declaring columns of suitable types keeps the property, by induction on them. -/
theorem EveryColumn.declareColumns (hclosed : Closed T P Q) (h : EveryColumn T P b)
    {cols : List (String × FieldType)} (hcols : ∀ p ∈ cols, T p.2) :
    EveryColumn T P (cols.foldl (fun b p => b.declareColumn p.1 p.2) b) := by
  induction cols generalizing b with
  | nil => exact h
  | cons p cols ih =>
    exact ih (h.declareColumn hclosed p.1 (hcols p List.mem_cons_self))
      fun q hq => hcols q (List.mem_cons_of_mem p hq)

/-- The columns of a new builder are empty, with types its plan gives. -/
theorem everyColumn_withPlan (hclosed : Closed T P Q) {plan : ExecutionPlan}
    (htypes : ∀ name, T (plan.columnType name)) : EveryColumn T P (withPlan plan) := by
  have hnew : EveryColumn T P ({ plan, rowBuf := plan.filter.map fun _ => {} } : TableBuilder) :=
    ⟨htypes, fun c hc => (List.not_mem_nil hc).elim⟩
  rw [withPlan]
  simp only [predeclareSchemaColumns]
  split
  · exact hnew.congr rfl rfl
  · rw [foldl_declareColumn rfl]
    have hcols : ∀ p ∈ (predeclaredNames plan).map fun name => (name, plan.columnType name),
        T p.2 := by
      intro p hp
      obtain ⟨name, -, rfl⟩ := List.mem_map.mp hp
      exact htypes name
    exact (hnew.declareColumns hclosed hcols).congr rfl rfl

/-- The builder a run starts with is between rows, and its row buffer is empty. -/
theorem between_start (plan : ExecutionPlan) (layout : Option FrozenSchema) :
    (∃ t, (start plan layout).Between t) ∧
      (start plan layout).rowBuf = plan.filter.map fun _ => {} := by
  have hbuf : (withPlan plan).rowBuf = plan.filter.map fun _ => {} := by
    obtain ⟨columns, fieldIndex, columnOrder, rowDirty, mask, h⟩ := withPlan_eq plan
    rw [h]
  cases layout with
  | none => exact ⟨⟨_, between_withPlan plan⟩, hbuf⟩
  | some schema =>
    have hframe := (withPlan plan).declareColumns_frame schema.columns
    exact ⟨⟨_, (between_withPlan plan).ensureSchema (RowTable.rows_declareAll _ _) schema⟩,
      hframe.2.2.2.1.trans hbuf⟩

/-- The invariant holds of the builder a run starts with: its columns are those that the plan and
the layout declare, and it has buffered nothing. -/
theorem every_start (hclosed : Closed T P Q) {plan : ExecutionPlan}
    {layout : Option FrozenSchema} (htypes : ∀ name, T (plan.columnType name))
    (hlayout : ∀ schema ∈ layout, ∀ p ∈ schema.columns, T p.2) :
    Every T P Q (start plan layout) := by
  obtain ⟨⟨t, hbetween⟩, hbuf⟩ := between_start plan layout
  have hcolumns : EveryColumn T P (start plan layout) := by
    have hnew := everyColumn_withPlan hclosed htypes
    cases layout with
    | none => exact hnew
    | some schema => exact (hnew.declareColumns hclosed (hlayout schema rfl)).congr rfl rfl
  refine ⟨hcolumns, fun name i hi => ?_, fun buf hsome p hp => ?_⟩
  · have hlt := (List.getElem?_eq_some_iff.mp ((hbetween.sound.holds.indexed name i).mp hi)).1
    rwa [kinds, List.length_map, hbetween.sound.holds.size, ← List.length_map Prod.fst]
  · rw [hbuf] at hsome
    obtain ⟨f, -, rfl⟩ := Option.map_eq_some_iff.mp hsome
    cases hp

/-- An exported array holds the cells of a column with the property. The slots are exported one by
one, and Arrow refuses arrays of different lengths, so each array is that of its own column. -/
theorem cells_of_exportSlots (hclosed : Closed T P Q) {columns : List ColumnBuilder}
    (hcolumns : ∀ c ∈ columns, P c) {slots : List (String × Nat)} {fields : Schema}
    {arrays : List ArrayRef} (hok : exportSlots columns slots = .ok (fields, arrays)) :
    ∀ a ∈ arrays, ∃ c, P c ∧ a.values = c.cells := by
  induction slots generalizing columns fields arrays with
  | nil =>
    cases hok
    exact fun a ha => (List.not_mem_nil ha).elim
  | cons slot slots ih =>
    rw [exportSlots] at hok
    cases hc : columns[slot.2]? with
    | none =>
      rw [hc] at hok
      exact ih hcolumns hok
    | some c =>
      have hP := hcolumns c (List.mem_of_getElem? hc)
      rw [hc] at hok
      cases harray : c.toArrowArray with
      | error err => simp [harray, bind, Except.bind] at hok
      | ok out =>
        obtain ⟨array, left⟩ := out
        obtain ⟨hvalues, -, hleft⟩ := ColumnBuilder.toArrowArray_left harray
        -- what is left in the column is the column itself or an empty one
        have hkept : P left := by
          rcases hleft with rfl | rfl
          · exact hP
          · exact hclosed.emptied c hP
        have hnext : ∀ c' ∈ columns.set slot.2 left, P c' := by
          intro c' hc'
          rcases List.mem_or_eq_of_mem_set hc' with hc' | rfl
          · exact hcolumns c' hc'
          · exact hkept
        simp only [harray, bind, Except.bind] at hok
        cases hrest : exportSlots (columns.set slot.2 left) slots with
        | error err => simp [hrest] at hok
        | ok out =>
          obtain ⟨fields', rest⟩ := out
          simp only [hrest, Except.ok.injEq, Prod.mk.injEq] at hok
          obtain ⟨-, rfl⟩ := hok
          intro a ha
          rcases List.mem_cons.mp ha with rfl | ha
          · exact ⟨c, hP, hvalues⟩
          · exact ih hnext hrest a ha

/-- The projection may add columns of nulls, which have the property as well. -/
theorem EveryColumn.projectColumns (hclosed : Closed T P Q) (h : EveryColumn T P b) (names : List String) :
    EveryColumn T P (b.projectColumns names).1 := by
  induction names generalizing b with
  | nil => exact h
  | cons name names ih =>
    have hone : EveryColumn T P (b.projectColumn name).1 := by
      rw [projectColumn]
      split
      · exact h
      · refine ⟨h.types, fun c hc => ?_⟩
        rcases List.mem_append.mp hc with hc | hc
        · exact h.columns c hc
        · rw [List.mem_singleton.mp hc]
          exact hclosed.pushNulls (hclosed.ofType _ (h.types name)) _
    exact ih hone

/-- Every column is cut back to the rows. -/
theorem EveryColumn.normalize (hclosed : Closed T P Q) (h : EveryColumn T P b) :
    EveryColumn T P b.normalize := by
  refine ⟨h.types, fun c hc => ?_⟩
  obtain ⟨c₀, hc₀, rfl⟩ := List.mem_map.mp hc
  exact hclosed.popN (h.columns c₀ hc₀) _

/-- The upgrade to dictionaries maps every column, and the closure covers it. -/
theorem EveryColumn.autoDictUpgrade (hclosed : Closed T P Q) (h : EveryColumn T P b) :
    EveryColumn T P b.autoDictUpgrade := by
  rw [TableBuilder.autoDictUpgrade]
  split
  · refine ⟨h.types, fun c hc => ?_⟩
    obtain ⟨c₀, hc₀, rfl⟩ := List.mem_map.mp hc
    exact hclosed.upgrade c₀ _ _ _ (h.columns c₀ hc₀)
  · exact h

/-- **The export.** Every array of a finished batch holds the cells of a column with the
property. -/
theorem EveryColumn.finish (hclosed : Closed T P Q) (h : EveryColumn T P b) {batch : RecordBatch}
    (hok : b.finish = .ok batch) : ∀ a ∈ batch.columns, ∃ c, P c ∧ a.values = c.cells := by
  obtain ⟨hunknown, hstrict⟩ := errors_of_finish hok
  rw [TableBuilder.finish, prepareFinish, hunknown, hstrict] at hok
  simp only [bind, Except.bind] at hok
  have hready : ∀ e, EveryColumn T P (b.notify e).normalize.autoDictUpgrade := fun e =>
    ((h.congr rfl rfl : EveryColumn T P (b.notify e)).normalize hclosed).autoDictUpgrade hclosed
  split at hok
  · cases hok
    exact fun a ha => (List.not_mem_nil ha).elim
  · split at hok
    · have hprojected := fun e names => (hready e).projectColumns hclosed names
      generalize hexport : exportSlots _ _ = out at hok
      cases out with
      | error err => cases hok
      | ok out =>
        rw [(RecordBatch.madeOf_of_tryNew hok).columns]
        exact cells_of_exportSlots hclosed (hprojected _ _).columns hexport
    · have hsorted : ∀ b : TableBuilder, EveryColumn T P b → EveryColumn T P b.sortColumns := by
        intro b hb
        rw [sortColumns]
        split
        · exact hb
        · exact hb.congr rfl rfl
      generalize hexport : exportSlots _ _ = out at hok
      cases out with
      | error err => cases hok
      | ok out =>
        rw [(RecordBatch.madeOf_of_tryNew hok).columns]
        exact cells_of_exportSlots hclosed (hsorted _ (hready _)).columns hexport

end TableBuilder

end EveryColumn

end Rypipe
