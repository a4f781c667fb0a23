import Rypipe.SlotPath.Verdict

/-! # A row, written by slot or by name

What a row does to a builder that rests at a table, whichever way it is written. While it is read its
values are in the columns (`Wrote`) or in the row buffer (`Held`); its end keeps it by the verdict of
`Rypipe.SlotPath.Verdict`, and adds it to the table or, where it does not cover what is left over, adds a
row that is not its own (`Rests.row`). -/

namespace Rypipe

variable [Platform]

namespace TableBuilder

section Written

variable {b b₀ x : TableBuilder} {t : Table} {cur : CurrentRow} {values : List (String × Value)}
  {name : String} {slot : Nat} {value : Value} {f : FilterPredicate}

/-! ## Checks of the values -/

/-- The checks of the values of a row against the declared types. -/
def recordAll (b : TableBuilder) (values : List (Nat × Value)) : TableBuilder :=
  values.foldl (fun b p => b.recordStrictViolationAt p.1 p.2) b

/-- The check of a value only reads what quiet builders share and the row count. -/
theorem Quiet.recordStrictViolationAt (h : b.Quiet x) (hrow : x.rowCount = b.rowCount)
    (slot : Nat) (value : Value) :
    (b.recordStrictViolationAt slot value).Quiet (x.recordStrictViolationAt slot value) := by
  refine ⟨⟨h.kinds, h.index, h.order, h.plan, h.frozen⟩, h.unknown, ?_⟩
  have hviolation : x.strictViolation slot value = b.strictViolation slot value := by
    rw [strictViolation, strictViolation, h.order, h.plan, hrow]
  show (if x.plan.strictTypes then x.strictError.or (x.strictViolation slot value)
    else x.strictError) = if b.plan.strictTypes then b.strictError.or (b.strictViolation slot value)
      else b.strictError
  rw [h.plan, h.strict, hviolation]

/-- The strict checks of some values are made one after the other. -/
theorem recordAll_concat (b : TableBuilder) (values : List (Nat × Value)) (p : Nat × Value) :
    b.recordAll (values ++ [p]) = (b.recordAll values).recordStrictViolationAt p.1 p.2 := by
  rw [recordAll, List.foldl_concat]
  rfl

/-- A value more is for the slot of its name, if the name has a column. -/
theorem slotValues_concat {index : StrMap Nat} (h : index.lookup name = some slot) :
    slotValues index (values ++ [(name, value)]) = slotValues index values ++ [(slot, value)] := by
  rw [slotValues, List.filterMap_append]
  simp [slotValues, h]

/-! ## Values in the columns -/

/-- The values of a row have been written to the columns of `b₀`. -/
structure Wrote (b₀ : TableBuilder) (t : Table) (values : List (String × Value)) (b : TableBuilder) :
    Prop where
  sound : b.trim.Sound t (rowOf values)
  loose : b.Loose t
  columns : b.columns = (slotValues b₀.fieldIndex values).foldl
    (fun columns p => columns.modify p.1 (overwrite b₀.rowCount p.2)) b₀.columns
  checked : (b₀.recordAll (slotValues b₀.fieldIndex values)).Quiet b
  rowCount : b.rowCount = b₀.rowCount
  rowBuf : b.rowBuf = b₀.rowBuf

/-- The index of a builder that records the checks. -/
theorem recordAll_frame (b : TableBuilder) (values : List (Nat × Value)) :
    (b.recordAll values).fieldIndex = b.fieldIndex ∧ (b.recordAll values).plan = b.plan ∧
      (b.recordAll values).columnOrder = b.columnOrder ∧
      (b.recordAll values).rowCount = b.rowCount ∧ (b.recordAll values).frozen = b.frozen := by
  induction values using List.reverseRecOn with
  | nil => exact ⟨rfl, rfl, rfl, rfl, rfl⟩
  | append_singleton values p ih =>
      rw [recordAll_concat]
      exact ih

/-- The trimmed columns hold the row, whatever else is recorded. A value that is put to a slot
replaces the cell that the column has for the row, so leftovers of an earlier row in that column are
gone. -/
theorem Wrote.writeSlot (h : Wrote b₀ t values b) (hslot : b₀.fieldIndex.lookup name = some slot)
    (hcolumns : x.columns = b.columns) (hdirty : x.rowDirty = b.rowDirty)
    (hbuf : x.rowBuf = b.rowBuf) (hrow : x.rowCount = b.rowCount)
    (hquiet : (b.recordStrictViolationAt slot value).Quiet x) :
    Wrote b₀ t (values ++ [(name, value)]) (x.writeSlot slot value) := by
  have hindex : b.fieldIndex = b₀.fieldIndex :=
    h.checked.index.trans (b₀.recordAll_frame _).1
  -- `x` is the builder after the strict check, which leaves the columns alone
  have htrim : x.trim.columns = b.trim.columns := by
    show x.columns.mapIdx _ = b.columns.mapIdx _
    rw [hcolumns, hdirty, hrow]
  have hs : x.trim.Sound t (rowOf values) := by
    refine ⟨?_, ?_, ?_, ?_⟩
    · show Layout x.trim.columns x.fieldIndex x.rowDirty t (rowOf values)
      rw [htrim, hdirty, hquiet.index]
      exact h.sound.holds
    · show x.columnOrder.Perm _
      rw [hquiet.order]
      exact h.sound.order
    · show ∀ frozen, x.frozen = some frozen → _
      rw [hquiet.frozen]
      exact h.sound.known
    · show x.rowBuf.isSome = x.plan.filter.isSome
      rw [hbuf, hquiet.plan]
      exact h.sound.rowBuf
  have hloose : x.Loose t := h.loose.congr hcolumns hrow
  have hlook : x.trim.fieldIndex.lookup name = some slot := by
    show x.fieldIndex.lookup name = some slot
    rw [hquiet.index]
    show b.fieldIndex.lookup name = some slot
    rw [hindex, hslot]
  -- the slot is that of a column of the table, so the bit is in range
  obtain ⟨ty, hty⟩ := hs.holds.cols_of_lookup hlook
  have hlt : slot < x.columns.length := by
    rw [hloose.size]
    exact (List.getElem?_eq_some_iff.mp hty).1
  have hroom : x.columns.length ≤ x.rowDirty.capacity := by
    have hroom := hs.holds.room
    rwa [show x.trim.columns.length = x.columns.length from List.length_mapIdx] at hroom
  refine ⟨?_, hloose.writeSlot slot value, ?_, ?_, hrow.trans h.rowCount, hbuf.trans h.rowBuf⟩
  · rw [hloose.trim_writeSlot hroom hlt, rowOf_append_singleton]
    exact ⟨hs.holds.write hty value (Or.inl hloose.rowCount), hs.order, hs.known, hs.rowBuf⟩
  · show x.columns.modify slot (overwrite x.rowCount value) = _
    rw [hcolumns, h.columns, hrow, h.rowCount, slotValues_concat hslot, List.foldl_concat]
  · rw [slotValues_concat hslot, recordAll_concat]
    have hcount : b.rowCount = (b₀.recordAll (slotValues b₀.fieldIndex values)).rowCount :=
      h.rowCount.trans (b₀.recordAll_frame _).2.2.2.1.symm
    exact ((h.checked.recordStrictViolationAt hcount slot value).trans hquiet).trans
      (x.quiet_writeSlot slot value)

/-- A value that is written to its slot comes last of the values of the row, and overwrites an
earlier one of the same name. -/
theorem Wrote.putFieldAt (h : Wrote b₀ t values b) (hslot : b₀.fieldIndex.lookup name = some slot) :
    Wrote b₀ t (values ++ [(name, value)]) (b.putFieldAt slot value) := by
  have hindex : b.fieldIndex = b₀.fieldIndex :=
    h.checked.index.trans (b₀.recordAll_frame _).1
  have hlook : b.trim.fieldIndex.lookup name = some slot := by
    show b.fieldIndex.lookup name = some slot
    rw [hindex, hslot]
  have hlt : slot < b.columns.length := by
    have hlt := h.sound.holds.lookup_lt hlook
    rwa [show b.trim.columns.length = b.columns.length from List.length_mapIdx] at hlt
  rw [TableBuilder.putFieldAt, if_neg (Nat.not_le_of_lt hlt)]
  exact h.writeSlot hslot rfl rfl rfl rfl (quiet_notifyPutField _ slot value)

/-- A value given to `put_field` while the builder does not buffer. -/
theorem Wrote.putField (h : Wrote b₀ t values b) (hdirect : b.buffering = false) {raw : String}
    (hres : b.plan.resolveField raw = some name) (hslot : b₀.fieldIndex.lookup name = some slot) :
    Wrote b₀ t (values ++ [(name, value)]) (b.put (.field raw value)) := by
  have hlook : b.fieldIndex.lookup name = some slot := by
    rw [h.checked.index, (b₀.recordAll_frame _).1, hslot]
  have hmem : name ∈ b.fieldIndex := AList.lookup_isSome.mp (by rw [hlook]; rfl)
  have htarget : (Put.field raw value).target b.plan = some name := hres
  have hput : b.put (.field raw value) = (((b.recordStrictViolationAt slot value).notifyPutField
      slot value).recordOrdinal slot name).writeSlot slot value := by
    rw [put_of_not_buffering hdirect, htarget]
    show b.pushFieldResolved name value = _
    rw [pushFieldResolved, exactWithout_of_mem hmem, ensureColumnIdx, hlook]
  rw [hput]
  exact h.writeSlot hslot rfl rfl rfl rfl
    ((quiet_notifyPutField _ slot value).trans (quiet_recordOrdinal _ slot name))

/-! ## Values in the row buffer -/

/-- Marking a slot commutes with taking away the cells that were left over. -/
theorem trim_markPredicateSlot (b : TableBuilder) (slot : Nat) :
    (b.markPredicateSlot slot).trim = b.trim.markPredicateSlot slot := by
  have hlen : b.trim.columns.length = b.columns.length := List.length_mapIdx
  have hbuild : (if b.rowBuf.any fun buf => !buf.predicateMask.test slot && buf.predNames.isEmpty
      then b.buildPredicateMask else b).trim = (if b.trim.rowBuf.any fun buf =>
        !buf.predicateMask.test slot && buf.predNames.isEmpty then b.trim.buildPredicateMask
      else b.trim) := by
    rw [buildPredicateMask, buildPredicateMask, hlen, apply_ite trim]
    rfl
  rw [markPredicateSlot, markPredicateSlot, apply_ite trim]
  refine if_congr Iff.rfl rfl ?_
  dsimp only
  rw [← hbuild]
  generalize (if b.rowBuf.any fun buf => !buf.predicateMask.test slot && buf.predNames.isEmpty
    then b.buildPredicateMask else b) = c
  rw [apply_ite trim]
  refine if_congr Iff.rfl rfl ?_
  have horder : c.trim.columnOrder = c.columnOrder := rfl
  rw [horder]
  cases c.columnOrder[slot]? <;> rfl

/-- Buffering a value of a column that exists. The value goes into the row buffer, and the columns
are trimmed as before. -/
theorem trim_bufferField (hslot : b.fieldIndex.lookup name = some slot) :
    (b.bufferField name value).trim = b.trim.bufferField name value := by
  have hens : b.ensureColumnIdx name = (b, slot) := by rw [ensureColumnIdx, hslot]
  have hens' : b.trim.ensureColumnIdx name = (b.trim, slot) := by
    rw [ensureColumnIdx, show b.trim.fieldIndex = b.fieldIndex from rfl, hslot]
  have hmark : b.trim.recordStrictViolationAt slot value =
      (b.recordStrictViolationAt slot value).trim := rfl
  simp only [bufferField, stageField, hens, hens', hmark, ← trim_markPredicateSlot]
  rw [apply_ite trim]
  rfl

/-- Buffering a value of a column that exists only reaches the row buffer and the check. -/
theorem bufferField_eq (hslot : b.fieldIndex.lookup name = some slot) (value : Value) :
    ∃ err g, b.bufferField name value = { b with strictError := err }.mapRowBuf g ∧
      ∀ buf, (g buf).direct = buf.direct := by
  have hens : b.ensureColumnIdx name = (b, slot) := by rw [ensureColumnIdx, hslot]
  obtain ⟨err, g, hstage, hg⟩ := stageField_eq hens value
  simp only [bufferField, hstage]
  split
  · obtain ⟨g', heq, hg'⟩ := ({ b with strictError := err }.mapRowBuf g).evaluateRow_eq slot
    rw [heq, mapRowBuf_mapRowBuf]
    exact ⟨err, _, rfl, fun buf => (hg' (g buf)).2.1.trans (hg buf).2.1⟩
  · exact ⟨err, g, rfl, fun buf => (hg buf).2.1⟩

/-- What the buffered path does to the marks of the filter's slots and to the verdict. A slot of the
filter is marked when it is buffered, and the verdict is that of the row so far from the first of
them on. -/
theorem bufferField_marks {buf : RowBuffer}
    (hindex : ∀ name i, b.fieldIndex.lookup name = some i → i < b.columns.length)
    (hbuf : b.rowBuf = some buf) (hf : b.plan.filter = some f)
    (hslot : b.fieldIndex.lookup name = some slot) (value : Value) :
    b.evaluatesAt name value = b.evaluatesSlot slot ∧ ∀ j < b.columns.length,
      (b.bufferField name value).evaluatesSlot j = b.evaluatesSlot j := by
  have hlt := hindex name slot hslot
  have hens : b.ensureColumnIdx name = (b, slot) := by rw [ensureColumnIdx, hslot]
  -- the check of the value does not touch the row buffer
  obtain ⟨buf₁, hbuf₁, hmarked, hbit⟩ :=
    markPredicateSlot_marks (b := b.recordStrictViolationAt slot value) hindex hbuf hf hlt
  have hstage : b.stageField name value =
      (((b.recordStrictViolationAt slot value).markPredicateSlot slot).mapRowBuf fun buf =>
        { buf with fields := Assoc.put buf.fields slot value }, slot) := by
    rw [stageField, hens]
  have heval : b.evaluatesAt name value = buf₁.predicateMask.test slot := by
    rw [evaluatesAt, hstage]
    show (Option.map _ ((b.recordStrictViolationAt slot value).markPredicateSlot slot).rowBuf).any
      _ = _
    rw [hbuf₁]
    rfl
  refine ⟨?_, fun j hj => ?_⟩
  · rw [Bool.eq_iff_iff, heval, hbit, evaluatesSlot_iff hindex hbuf hf hlt]
    exact FilterSlot.congr rfl rfl rfl rfl rfl slot
  · obtain ⟨buf₂, hbuf₂, hmask, hnames⟩ : ∃ buf₂, (b.bufferField name value).rowBuf = some buf₂ ∧
        buf₂.predicateMask = buf₁.predicateMask ∧ buf₂.predNames = buf₁.predNames := by
      simp only [bufferField, hstage]
      split
      · simp only [evaluateRow, mapRowBuf, hbuf₁, Option.map_some]
        exact ⟨_, rfl, rfl, rfl⟩
      · simp only [mapRowBuf, hbuf₁, Option.map_some]
        exact ⟨_, rfl, rfl, rfl⟩
    have hquiet := b.quiet_bufferField name value
    rw [admitField, hens] at hquiet
    have hlen : (b.bufferField name value).columns.length = b.columns.length := by
      have hkinds := congrArg List.length hquiet.kinds
      rwa [kinds, kinds, List.length_map, List.length_map] at hkinds
    rw [Bool.eq_iff_iff, evaluatesSlot_iff hindex hbuf hf hj,
      evaluatesSlot_iff (by rw [hquiet.index, hlen]; exact hindex) hbuf₂
        (by rw [hquiet.plan]; exact hf) (hlen ▸ hj),
      FilterSlot.congr hquiet.plan hquiet.index hquiet.order hmask hnames]
    exact hmarked j hj

/-- Buffering a value: the verdict is the one on the row with the value where the filter is evaluated,
and stays elsewhere. -/
theorem Buffered.bufferField_state {buf : RowBuffer} (h : b.Buffered t cur buf)
    (hf : b.plan.filter = some f) (value : Value) (hname : b.exactWithout name = none) :
    ∃ buf', (b.bufferField name value).Buffered (t.declare name (b.plan.columnType name))
        (Function.update cur name (some value)) buf' ∧
      buf'.state = if b.evaluatesAt name value then
        evalPredicate b.plan (rowGet b.plan (Function.update cur name (some value))) f
      else buf.state := by
  obtain ⟨b₁, slot, buf₁, hstage, h₁, hstate, hframe, -⟩ := h.stageField value hname
  simp only [evaluatesAt, TableBuilder.bufferField, hstage]
  split
  · obtain ⟨buf₂, h₂, -, -, hstate₂⟩ := h₁.evaluateRow slot
    refine ⟨buf₂, h₂, ?_⟩
    rw [hstate₂, h₁.evaluatePredicateState (by rw [hframe.plan]; exact hf), hframe.plan]
  · exact ⟨buf₁, h₁, hstate⟩

/-- The values of a row wait in the row buffer of a builder that was `b₀` when the row began. -/
structure Queued (b₀ : TableBuilder) (f : FilterPredicate) (t : Table)
    (values : List (String × Value)) (b : TableBuilder) : Prop where
  buffered : ∃ buf, b.trim.Buffered t (rowOf values) buf ∧ buf.state = b₀.judged f values
  columns : b.columns = b₀.columns
  dirty : b.rowDirty = b₀.rowDirty
  checked : (b₀.recordAll (slotValues b₀.fieldIndex values)).Quiet b
  rowCount : b.rowCount = b₀.rowCount
  evaluates : ∀ slot < b₀.columns.length, b.evaluatesSlot slot = b₀.evaluatesSlot slot

/-- The verdict reached so far changes where the filter is evaluated. -/
theorem judged_concat (hslot : b.fieldIndex.lookup name = some slot) :
    b.judged f (values ++ [(name, value)]) =
      if b.evaluatesSlot slot then
        evalPredicate b.plan (rowGet b.plan (rowOf (values ++ [(name, value)]))) f
      else b.judged f values := by
  simp only [judged, List.rdropWhile_concat, hslot, Option.any_some, Bool.not_eq_true']
  cases b.evaluatesSlot slot with
  | false => simp
  | true => simp

/-- A value given to `put_field` while the builder buffers waits in the row buffer. Its column
exists, so no column is created, and the strict check is made as for a value that is written. -/
theorem Queued.putField (h : Queued b₀ f t values b) (hf : b₀.plan.filter = some f) {raw : String}
    (hres : b.plan.resolveField raw = some name) (hslot : b₀.fieldIndex.lookup name = some slot) :
    Queued b₀ f t (values ++ [(name, value)]) (b.put (.field raw value)) := by
  obtain ⟨buf, hbuf, hstate⟩ := h.buffered
  obtain ⟨hindex₀, hplan₀, -, hrow₀, -⟩ := b₀.recordAll_frame (slotValues b₀.fieldIndex values)
  have hindex : b.fieldIndex = b₀.fieldIndex := h.checked.index.trans hindex₀
  have hplan : b.plan = b₀.plan := h.checked.plan.trans hplan₀
  have hlook : b.fieldIndex.lookup name = some slot := by rw [hindex, hslot]
  have hmem : name ∈ b.fieldIndex := AList.lookup_isSome.mp (by rw [hlook]; rfl)
  have hbuffering : b.buffering = true := hbuf.buffering
  -- the name is known, so the value goes to the row buffer
  have hput : b.put (.field raw value) = b.bufferField name value := by
    have hunknown : b.unknownTo name = none := by rw [unknownTo, exactWithout_of_mem hmem]; rfl
    simp [TableBuilder.put, TableBuilder.putField, hbuffering, hres, hunknown]
  have hrange : ∀ n i, b.fieldIndex.lookup n = some i → i < b.columns.length := by
    intro n i hi
    have hlook : b.trim.fieldIndex.lookup n = some i := hi
    have hlt := hbuf.sound.holds.lookup_lt hlook
    rwa [show b.trim.columns.length = b.columns.length from List.length_mapIdx] at hlt
  have hf' : b.plan.filter = some f := by rw [hplan, hf]
  obtain ⟨heval, hstays⟩ := bufferField_marks hrange hbuf.rowBuf hf' hlook value
  -- cutting the columns down does not change which slots evaluate the filter
  have hevalTrim : b.trim.evaluatesAt name value = b.evaluatesSlot slot := by
    have hrangeTrim : ∀ n i, b.trim.fieldIndex.lookup n = some i → i < b.trim.columns.length :=
      fun n i hi => hbuf.sound.holds.lookup_lt hi
    have hlookTrim : b.trim.fieldIndex.lookup name = some slot := hlook
    obtain ⟨htrim, -⟩ := bufferField_marks hrangeTrim hbuf.rowBuf hf' hlookTrim value
    rw [htrim, evaluatesSlot, evaluatesSlot, ← trim_markPredicateSlot]
    rfl
  obtain ⟨buf', hbuf', hstate'⟩ := hbuf.bufferField_state hf' value (exactWithout_of_mem hmem)
  rw [RowTable.declare_of_mem ((hbuf.sound.holds.mem_index name).mp hmem)] at hbuf'
  have hens : b.ensureColumnIdx name = (b, slot) := by rw [ensureColumnIdx, hlook]
  have hquiet := b.quiet_bufferField name value
  rw [admitField, hens] at hquiet
  obtain ⟨err, g, heq, -⟩ := bufferField_eq hlook value
  have hsame : (b.bufferField name value).columns = b.columns ∧
      (b.bufferField name value).rowDirty = b.rowDirty ∧
      (b.bufferField name value).rowCount = b.rowCount := by
    rw [heq]
    exact ⟨rfl, rfl, rfl⟩
  rw [hput]
  refine ⟨⟨buf', ?_, ?_⟩, hsame.1.trans h.columns, hsame.2.1.trans h.dirty, ?_,
    hsame.2.2.trans h.rowCount, fun j hj => ?_⟩
  · rw [trim_bufferField hlook, rowOf_append_singleton]
    exact hbuf'
  · rw [hstate', judged_concat hslot, rowOf_append_singleton, hevalTrim, hstate,
      show b.trim.plan = b.plan from rfl, hplan, h.evaluates slot (h.columns ▸ hrange name slot hlook)]
  · rw [slotValues_concat hslot, recordAll_concat]
    exact (h.checked.recordStrictViolationAt (h.rowCount.trans hrow₀.symm) slot value).trans hquiet
  · rw [hstays j (h.columns ▸ hj), h.evaluates j hj]

/-! ## Draining the row buffer -/

/-- The drain loop commutes with taking away the cells that were left over, and leaves the columns that
it has no value for. -/
theorem trim_drainFields (h : b.Loose t) (hroom : b.columns.length ≤ b.rowDirty.capacity)
    {fields : List (Nat × Value)} (hrange : ∀ p ∈ fields, p.1 < b.columns.length)
    (seen : WordSet 64) :
    (b.drainFields seen fields).trim = b.trim.drainFields seen fields ∧
      (b.drainFields seen fields).Loose t ∧
      ∀ i, i ∉ fields.map Prod.fst → (b.drainFields seen fields).columns[i]? = b.columns[i]? := by
  induction fields generalizing b seen with
  | nil => exact ⟨rfl, h, fun i _ => rfl⟩
  | cons p fields ih =>
      have hrest : ∀ q ∈ fields, q.1 < b.columns.length := fun q hq =>
        hrange q (List.mem_cons_of_mem p hq)
      rw [drainFields, drainFields]
      split
      · obtain ⟨htrim, hloose, hsame⟩ := ih h hroom hrest seen
        exact ⟨htrim, hloose, fun i hi => hsame i fun hmem => hi (List.mem_cons_of_mem _ hmem)⟩
      · have hslot := hrange p List.mem_cons_self
        have hlen : (b.columns.modify p.1 (overwrite b.rowCount p.2)).length = b.columns.length :=
          List.length_modify _ _ _
        -- a write extends its column to the row's position, and what it cuts off is past it
        have hwrite : ((b.writeSlot p.1 p.2).notifyPutField p.1 p.2).Loose t :=
          (h.writeSlot p.1 p.2).congr rfl rfl
        obtain ⟨htrim, hloose, hsame⟩ := ih hwrite
          (by
            show (b.columns.modify p.1 _).length ≤ (b.rowDirty.insert p.1).capacity
            rw [hlen, WordSet.capacity_insert]
            exact hroom)
          (fun q hq => by
            show q.1 < (b.columns.modify p.1 _).length
            rw [hlen]
            exact hrest q hq) (seen.insert p.1)
        refine ⟨?_, hloose, fun i hi => ?_⟩
        · rw [htrim, ← h.trim_writeSlot hroom hslot p.2]
          rfl
        · rw [hsame i fun hmem => hi (List.mem_cons_of_mem _ hmem)]
          show (b.columns.modify p.1 _)[i]? = _
          have hne : p.1 ≠ i := fun heq => hi (heq ▸ List.mem_cons_self)
          rw [List.getElem?_modify_ne _ _ hne]

/-- A dirty mask with room for the columns. -/
theorem trim_growDirty (b : TableBuilder) : b.growDirty.trim = b.trim.growDirty := by
  have hlen : b.trim.columns.length = b.columns.length := List.length_mapIdx
  rw [growDirty, growDirty, hlen]
  simp only [trim, WordSet.test_growFor]

/-- Writing the buffered values to the columns. It commutes with the trimming, as both leave the
rows of the table alone. -/
theorem trim_withDrained (h : b.Loose t) {fields : List (Nat × Value)}
    (hrange : ∀ p ∈ fields, p.1 < b.columns.length) :
    (b.withDrained fields).trim = b.trim.withDrained fields ∧ (b.withDrained fields).Loose t ∧
      ∀ i, i ∉ fields.map Prod.fst → (b.withDrained fields).columns[i]? = b.columns[i]? := by
  have hlen : b.trim.columns.length = b.columns.length := List.length_mapIdx
  obtain ⟨htrim, hloose, hsame⟩ := trim_drainFields (b := b.growDirty) (h.congr rfl rfl)
    (WordSet.capacity_growFor (by decide) _ _)
    (fun p (hp : p ∈ fields.reverse) => hrange p (List.mem_reverse.mp hp))
    (WordSet.empty.resize (max 1 ((b.columns.length + 63) / 64)))
  refine ⟨?_, hloose, fun i hi => hsame i ?_⟩
  · rw [withDrained, withDrained, htrim, trim_growDirty, hlen]
  · rwa [List.map_reverse, List.mem_reverse]

/-! ## The fields of a row -/

/-- `begin_row` does not look at the columns, so they can be cut to the row count before or after
it. -/
theorem trim_beginRow (b : TableBuilder) : b.beginRow.trim = b.trim.beginRow := by
  have hlen : b.trim.columns.length = b.columns.length := List.length_mapIdx
  have hexpected : b.trim.expectedColumns = b.expectedColumns := by
    rw [expectedColumns, expectedColumns, hlen]
    rfl
  show _ = ({ b.trim.notify (.beginRow b.rowCount) with
    currentOrdinal := 0
    rowBuf := b.rowBuf.map fun buf =>
      { buf with
        bufferWorthwhile := buf.bufferWorthwhile && !(buf.bufferWorthwhile &&
          decide (0 < b.rowCount) && buf.predicateOrdinal.any fun ordinal =>
            decide (b.trim.expectedColumns * 4 / 5 ≤ ordinal))
        fields := []
        state := .undecided
        direct := false } } : TableBuilder)
  rw [hexpected]
  rfl

/-- A row begins without values, in the columns and in the row buffer. -/
theorem Rests.beginRow (h : b.Rests t) : Wrote b.beginRow t [] b.beginRow ∧
    (b.beginRow.buffering = true → ∀ f, b.plan.filter = some f →
      Queued b.beginRow f t [] b.beginRow) := by
  have hmode : b.beginRow.trim.RowMode t noRow := by
    rw [trim_beginRow]
    exact h.trim.beginRow.1
  have hloose : b.beginRow.Loose t := h.loose.congr rfl rfl
  have hbuf : ∀ buf, b.beginRow.rowBuf = some buf → buf.state = .undecided ∧ buf.direct = false := by
    intro buf hbuf
    obtain ⟨buf₀, -, rfl⟩ := Option.map_eq_some_iff.mp hbuf
    exact ⟨rfl, rfl⟩
  constructor
  · refine ⟨?_, hloose, rfl, .refl _, rfl, rfl⟩
    cases hmode with
    | columns h => exact h.sound
    | buffered buf h => exact h.sound
    | drained buf h => exact h.sound
  · intro hbuffering f hf
    refine ⟨?_, rfl, rfl, .refl _, rfl, fun _ _ => rfl⟩
    cases hmode with
    | columns h => cases hbuffering.symm.trans h.buffering
    | buffered buf h => exact ⟨buf, h, (hbuf buf h.rowBuf).1⟩
    | drained buf h => cases (hbuf buf h.rowBuf).2.symm.trans h.direct

/-- Writing a field by its slot is `put_field_at`, whichever of the two slot puts the adapter
calls. -/
theorem write_toSlot (b : TableBuilder) (x : RowField) (slot : Nat) :
    b.write (x.toSlot slot) = b.putFieldAt slot x.value := by
  obtain ⟨name, value, asStr⟩ := x
  cases asStr with
  | false => rfl
  | true =>
      cases value with
      | str s => exact b.putStrAt_eq slot s
      | _ => rfl

section Fields

variable {plan : ExecutionPlan} {index : StrMap Nat}
  {P : List (String × Value) → TableBuilder → Prop} {row : List RowField}

/-- What every value written to its slot extends, a row written by slot extends. -/
theorem writeAll_slotRow
    (hput : ∀ values b (x : RowField) name slot, P values b → plan.resolveField x.name = some name →
      index.lookup name = some slot → P (values ++ [(name, x.value)]) (b.putFieldAt slot x.value))
    (hcols : ∀ x ∈ row, ∀ name, plan.resolveField x.name = some name → name ∈ index)
    (h : P values b) : P (values ++ rowValues plan row) (b.writeAll (slotRow plan index row)) := by
  induction row generalizing values b with
  | nil => rwa [rowValues, List.filterMap_nil, List.append_nil]
  | cons x row ih =>
      have hrest : ∀ y ∈ row, ∀ name, plan.resolveField y.name = some name → name ∈ index :=
        fun y hy => hcols y (List.mem_cons_of_mem x hy)
      cases hres : plan.resolveField x.name with
      -- a field that the plan drops has no slot and no value
      | none =>
          have hslots : slotRow plan index (x :: row) = slotRow plan index row := by
            rw [slotRow, List.filterMap_cons, RowField.slot, hres]
            rfl
          have hvalues : rowValues plan (x :: row) = rowValues plan row := by
            rw [rowValues, List.filterMap_cons, hres]
            rfl
          rw [hslots, hvalues]
          exact ih hrest h
      | some name =>
          obtain ⟨slot, hslot⟩ := Option.isSome_iff_exists.mp
            (AList.lookup_isSome.mpr (hcols x List.mem_cons_self name hres))
          have hslots : slotRow plan index (x :: row) = x.toSlot slot :: slotRow plan index row := by
            rw [slotRow, List.filterMap_cons, RowField.slot, hres, Option.bind_some, hslot]
            rfl
          have hvalues : rowValues plan (x :: row) = (name, x.value) :: rowValues plan row := by
            rw [rowValues, List.filterMap_cons, hres]
            rfl
          rw [hslots, hvalues, writeAll, List.foldl_cons, write_toSlot, List.append_cons]
          exact ih hrest (hput values b x name slot h hres hslot)

/-- What every value given to `put_field` extends, a row given to it extends. -/
theorem putAll_namedRow (hplan : ∀ values b, P values b → b.plan = plan)
    (hput : ∀ values b (x : RowField) name slot, P values b → plan.resolveField x.name = some name →
      index.lookup name = some slot → P (values ++ [(name, x.value)]) (b.put x.put))
    (hcols : ∀ x ∈ row, ∀ name, plan.resolveField x.name = some name → name ∈ index)
    (h : P values b) : P (values ++ rowValues plan row) (b.putAll (namedRow row)) := by
  induction row generalizing values b with
  | nil => rwa [rowValues, List.filterMap_nil, List.append_nil]
  | cons x row ih =>
      have hrest : ∀ y ∈ row, ∀ name, plan.resolveField y.name = some name → name ∈ index :=
        fun y hy => hcols y (List.mem_cons_of_mem x hy)
      show P _ ((b.put x.put).putAll (namedRow row))
      cases hres : plan.resolveField x.name with
      | none =>
          have hvalues : rowValues plan (x :: row) = rowValues plan row := by
            rw [rowValues, List.filterMap_cons, hres]
            rfl
          have hdropped : x.put.target b.plan = none := by
            rw [hplan values b h]
            exact hres
          rw [hvalues, put_of_dropped hdropped]
          exact ih hrest h
      | some name =>
          obtain ⟨slot, hslot⟩ := Option.isSome_iff_exists.mp
            (AList.lookup_isSome.mpr (hcols x List.mem_cons_self name hres))
          have hvalues : rowValues plan (x :: row) = (name, x.value) :: rowValues plan row := by
            rw [rowValues, List.filterMap_cons, hres]
            rfl
          rw [hvalues, List.append_cons]
          exact ih hrest (hput values b x name slot h hres hslot)

end Fields

section Row

variable {row : List RowField}

/-- A row that is written by slot is in the columns. -/
theorem Wrote.slotRow (h : Wrote b₀ t [] b₀)
    (hcols : ∀ x ∈ row, ∀ name, b₀.plan.resolveField x.name = some name → name ∈ b₀.fieldIndex) :
    Wrote b₀ t (rowValues b₀.plan row) (b₀.writeAll (slotRow b₀.plan b₀.fieldIndex row)) :=
  writeAll_slotRow (P := Wrote b₀ t) (fun _ _ _ _ _ hb _ hslot => hb.putFieldAt hslot) hcols h

/-- The plan is that of the builder before the row. -/
theorem Wrote.plan (h : Wrote b₀ t values b) : b.plan = b₀.plan :=
  h.checked.plan.trans (b₀.recordAll_frame _).2.1

/-- Whether the builder buffers was decided by `begin_row`. -/
theorem Wrote.buffering (h : Wrote b₀ t values b) : b.buffering = b₀.buffering := by
  rw [TableBuilder.buffering, TableBuilder.buffering, h.plan, h.rowBuf]

/-- A row that is given to `put_field` goes to the columns of a builder that does not buffer. -/
theorem Wrote.namedRow (h : Wrote b₀ t [] b₀) (hdirect : b₀.buffering = false)
    (hcols : ∀ x ∈ row, ∀ name, b₀.plan.resolveField x.name = some name → name ∈ b₀.fieldIndex) :
    Wrote b₀ t (rowValues b₀.plan row) (b₀.putAll (namedRow row)) :=
  putAll_namedRow (P := Wrote b₀ t) (fun _ _ hb => hb.plan)
    (fun _ _ _ _ _ hb hres hslot =>
      hb.putField (hb.buffering.trans hdirect) (hb.plan.symm ▸ hres) hslot) hcols h

/-- The plan is that of the builder before the row. -/
theorem Queued.plan (h : Queued b₀ f t values b) : b.plan = b₀.plan :=
  h.checked.plan.trans (b₀.recordAll_frame _).2.1

/-- A row that is given to `put_field` waits in the row buffer of a builder that buffers. -/
theorem Queued.namedRow (h : Queued b₀ f t [] b₀) (hf : b₀.plan.filter = some f)
    (hcols : ∀ x ∈ row, ∀ name, b₀.plan.resolveField x.name = some name → name ∈ b₀.fieldIndex) :
    Queued b₀ f t (rowValues b₀.plan row) (b₀.putAll (namedRow row)) :=
  putAll_namedRow (P := Queued b₀ f t) (fun _ _ hb => hb.plan)
    (fun _ _ _ _ _ hb hres hslot => hb.putField hf (hb.plan.symm ▸ hres) hslot) hcols h

end Row

/-! ## The end of a row -/

/-- What a row does to the number of rows. -/
def countRow (n : Nat) (keeps : Bool) : Nat := if keeps then n + 1 else n

/-- How a row ends that began after `n` rows at the table `t`: dropped, it leaves the table; kept, it is added
to the table, unless it shows a cell that another row left. -/
structure RowEnd (n : Nat) (b' : TableBuilder) (t : Table) (cur : CurrentRow)
    (within : ∀ name, (cur name).isSome → name ∈ t.names) (keeps : Bool) (covers : Prop) : Prop where
  rowCount : b'.rowCount = countRow n keeps
  dropped : keeps = false → b'.Rests t
  kept : keeps = true → covers → b'.Rests (t.commit cur within)
  leaks : keeps = true → ¬ covers → b'.Leaks t cur
  emptyAhead : keeps = true → b'.EmptyAhead

/-- The slots of values are those of the names they are for. A name without a slot has no value
among them. -/
theorem mem_slotValues {index : StrMap Nat} {slot : Nat} :
    slot ∈ (slotValues index values).map Prod.fst ↔
      ∃ name ∈ values.map Prod.fst, index.lookup name = some slot := by
  constructor
  · intro h
    obtain ⟨p, hp, rfl⟩ := List.mem_map.mp h
    obtain ⟨q, hq, hlook⟩ := List.mem_filterMap.mp hp
    obtain ⟨slot, hslot, rfl⟩ := Option.map_eq_some_iff.mp hlook
    exact ⟨q.1, List.mem_map_of_mem hq, hslot⟩
  · rintro ⟨name, hname, hlook⟩
    obtain ⟨q, hq, rfl⟩ := List.mem_map.mp hname
    exact List.mem_map.mpr ⟨(slot, q.2), List.mem_filterMap.mpr ⟨q, hq, by rw [hlook]; rfl⟩, rfl⟩

/-- A column has a value in the row exactly when its slot is among those of the values. -/
theorem rowOf_isSome_iff {index : StrMap Nat}
    (hindexed : ∀ name (i : Nat), index.lookup name = some i ↔ t.names[i]? = some name) {i : Nat}
    {p : String × FieldType} (hp : t.cols[i]? = some p) :
    (rowOf values p.1).isSome = true ↔ i ∈ (slotValues index values).map Prod.fst := by
  have hname : t.names[i]? = some p.1 := by
    rw [RowTable.names, List.getElem?_map, hp]
    rfl
  rw [rowOf_isSome, mem_slotValues]
  constructor
  · exact fun hmem => ⟨p.1, hmem, (hindexed p.1 i).mpr hname⟩
  · rintro ⟨name, hmem, hlook⟩
    rw [(hindexed name i).mp hlook] at hname
    exact Option.some.inj hname ▸ hmem

/-- The columns of a row that has been read are covered by its values if they were before it. -/
theorem bare_iff_covers (hs : b.trim.Sound t (rowOf values)) (hl : b.Loose t)
    (hindex : b.fieldIndex = b₀.fieldIndex) (hrow : b.rowCount = b₀.rowCount)
    (hlen : b.columns.length = b₀.columns.length)
    (hsame : ∀ i, i ∉ (slotValues b₀.fieldIndex values).map Prod.fst →
      b.columns[i]? = b₀.columns[i]?) :
    b.Bare ↔ ∀ p ∈ b₀.columns.zipIdx, p.2 ∉ (slotValues b₀.fieldIndex values).map Prod.fst →
      p.1.getTypedValue b₀.rowCount = none := by
  have hbit : ∀ i < b.columns.length, b.rowDirty.test i = false ↔
      i ∉ (slotValues b₀.fieldIndex values).map Prod.fst := by
    intro i hi
    obtain ⟨p, hp⟩ : ∃ p, t.cols[i]? = some p := ⟨_, List.getElem?_eq_getElem (hl.size ▸ hi)⟩
    have hmark : b.rowDirty.test i = (rowOf values p.1).isSome := hs.holds.marked i p hp
    have hindexed : ∀ name (i : Nat), b₀.fieldIndex.lookup name = some i ↔
        t.names[i]? = some name := hindex ▸ hs.holds.indexed
    rw [hmark, ← Bool.not_eq_true, rowOf_isSome_iff hindexed hp]
  constructor
  · rintro hbare ⟨c, i⟩ hmem hi
    have hc : b₀.columns[i]? = some c := List.mem_zipIdx_iff_getElem?.mp hmem
    have hlt : i < b.columns.length := hlen.symm ▸ (List.getElem?_eq_some_iff.mp hc).1
    rw [← hrow]
    exact hbare i c ((hsame i hi).trans hc) ((hbit i hlt).mpr hi)
  · intro hcovers i c hc hclean
    have hi := (hbit i (List.getElem?_eq_some_iff.mp hc).1).mp hclean
    rw [hrow]
    exact hcovers (c, i) (List.mem_zipIdx_iff_getElem?.mpr ((hsame i hi).symm.trans hc)) hi

/-- Changes at the slots of values leave the other columns. The number of columns is the same as
well. -/
theorem getElem?_foldl_modify (columns : List ColumnBuilder) (n : Nat)
    (values : List (Nat × Value)) :
    (values.foldl (fun columns p => columns.modify p.1 (overwrite n p.2)) columns).length =
        columns.length ∧
      ∀ i, i ∉ values.map Prod.fst →
        (values.foldl (fun columns p => columns.modify p.1 (overwrite n p.2)) columns)[i]? =
          columns[i]? := by
  induction values generalizing columns with
  | nil => exact ⟨rfl, fun i _ => rfl⟩
  | cons p values ih =>
      obtain ⟨hlen, hsame⟩ := ih (columns.modify p.1 (overwrite n p.2))
      refine ⟨hlen.trans (List.length_modify _ _ _), fun i hi => ?_⟩
      have hne : p.1 ≠ i := fun heq => hi (heq ▸ List.mem_cons_self)
      rw [List.foldl_cons, hsame i fun hmem => hi (List.mem_cons_of_mem _ hmem),
        List.getElem?_modify_ne _ _ hne]

/-- No column without a value in the row is ahead with one, exactly if no column that the row leaves
out was ahead with a value before it. -/
theorem Wrote.bare_iff (h : Wrote b₀ t values b) :
    b.Bare ↔ ∀ p ∈ b₀.columns.zipIdx, p.2 ∉ (slotValues b₀.fieldIndex values).map Prod.fst →
      p.1.getTypedValue b₀.rowCount = none := by
  obtain ⟨hlen, hsame⟩ :=
    getElem?_foldl_modify b₀.columns b₀.rowCount (slotValues b₀.fieldIndex values)
  rw [← h.columns] at hlen hsame
  exact bare_iff_covers h.sound h.loose (h.checked.index.trans (b₀.recordAll_frame _).1) h.rowCount
    hlen hsame

/-- The null fill makes the columns with the cells of the row. A column that was written has its
value as the last cell, and every other column a null. -/
theorem Wrote.nullFill (h : Wrote b₀ t values b) :
    b.nullFill.columns = b₀.withRow (slotValues b₀.fieldIndex values) := by
  have hindexed : ∀ name (i : Nat), b₀.fieldIndex.lookup name = some i ↔
      t.names[i]? = some name := by
    rw [← (b₀.recordAll_frame (slotValues b₀.fieldIndex values)).1, ← h.checked.index]
    exact h.sound.holds.indexed
  -- a column has its bit exactly when one of the values is for its slot
  have hbit : ∀ i < b.columns.length, b.rowDirty.test i = true ↔
      i ∈ (slotValues b₀.fieldIndex values).map Prod.fst := by
    intro i hi
    obtain ⟨p, hp⟩ : ∃ p, t.cols[i]? = some p := ⟨_, List.getElem?_eq_getElem (h.loose.size ▸ hi)⟩
    have hmark : b.rowDirty.test i = (rowOf values p.1).isSome := h.sound.holds.marked i p hp
    rw [hmark, rowOf_isSome_iff hindexed hp]
  rw [withRow, ← h.columns, TableBuilder.nullFill]
  refine List.ext_getElem? fun i => ?_
  rw [List.getElem?_mapIdx]
  split
  -- every column was written, so nothing is filled
  · next hfull =>
    show b.columns[i]? = _
    cases hc : b.columns[i]? with
    | none => rfl
    | some c =>
        have hlt := (List.getElem?_eq_some_iff.mp hc).1
        have hset := WordSet.test_of_isFull (by decide) hfull hlt
        rw [Option.map_some, if_pos ((hbit i hlt).mp hset)]
  · show (b.columns.mapIdx _)[i]? = _
    rw [List.getElem?_mapIdx]
    cases hc : b.columns[i]? with
    | none => rfl
    | some c =>
        have hlt := (List.getElem?_eq_some_iff.mp hc).1
        rw [Option.map_some, Option.map_some]
        exact congrArg some (if_congr (hbit i hlt) rfl rfl)

/-- The conclusions of a row whose cells are in the columns, from what its end does to them. -/
theorem rowEnd_of_nullFill {b' : TableBuilder} {keeps : Bool} {covers : Prop}
    (hs : b.trim.Sound t cur) (hl : b.Loose t) (hrow : b.rowCount = b₀.rowCount)
    (hbare : b.Bare ↔ covers) (hdropped : keeps = false → b'.Rests t ∧ b'.rowCount = b.rowCount)
    (hkept : keeps = true → ∃ f, b' = b.nullFill.acceptRow.mapRowBuf f) :
    RowEnd b₀.rowCount b' t cur hs.holds.within keeps covers := by
  obtain ⟨hrests, hleaks, hempty⟩ := accept_nullFill hs hl
  refine ⟨?_, fun h => (hdropped h).1, fun h hcovers => ?_, fun h hnot => ?_, fun h => ?_⟩
  · cases hk : keeps with
    | false => rw [(hdropped hk).2, hrow, countRow, if_neg Bool.false_ne_true]
    | true =>
        obtain ⟨f, rfl⟩ := hkept hk
        show b.nullFill.rowCount + 1 = _
        rw [nullFill_rowCount, hrow, countRow, if_pos rfl]
  · obtain ⟨f, rfl⟩ := hkept h
    exact (hrests (hbare.mpr hcovers)).mapRowBuf f
  · obtain ⟨f, rfl⟩ := hkept h
    exact hleaks fun h => hnot (hbare.mp h)
  · obtain ⟨f, rfl⟩ := hkept h
    exact hempty

/-- A row in the columns is judged on them. Without the row buffer the filter reads the last cells,
and a row that fails is popped from every column. -/
theorem Wrote.endRow_direct (h : Wrote b₀ t values b) (hdirect : b₀.buffering = false) :
    RowEnd b₀.rowCount b.endRow t (rowOf values) h.sound.holds.within
      (b₀.columnsVerdict (slotValues b₀.fieldIndex values))
      (∀ p ∈ b₀.columns.zipIdx, p.2 ∉ (slotValues b₀.fieldIndex values).map Prod.fst →
        p.1.getTypedValue b₀.rowCount = none) := by
  have hend : b.endRow = if b₀.columnsVerdict (slotValues b₀.fieldIndex values) then
      b.nullFill.acceptRow else b.nullFill.popRow.rejectRow := by
    rw [TableBuilder.endRow, h.buffering, hdirect, finishRow, columnsVerdict]
    simp only [Bool.not_false, ↓reduceIte, nullFill_plan, nullFill_fieldIndex, nullFill_rowCount,
      h.nullFill, h.plan, h.rowCount, h.checked.index, (b₀.recordAll_frame _).1]
    cases b₀.plan.filter <;> rfl
  refine rowEnd_of_nullFill h.sound h.loose h.rowCount h.bare_iff (fun hk => ?_) fun hk => ?_
  · rw [hend, hk]
    exact ⟨reject_nullFill h.sound h.loose, b.nullFill_rowCount⟩
  · rw [hend, hk]
    exact ⟨id, (mapRowBuf_id _).symm⟩

/-- A buffered row that was written by slot is judged as a row without values. The row buffer is
empty, so the filter meets nulls; if it passes, the row is counted over the cells that were written,
and otherwise they stay behind. -/
theorem Wrote.endRow_blank (h : Wrote b₀ t values b) (hbuffering : b₀.buffering = true)
    (hblank : ∀ buf, b₀.rowBuf = some buf →
      buf.fields = [] ∧ buf.state = .undecided ∧ buf.direct = false) :
    RowEnd b₀.rowCount b.endRow t (rowOf values) h.sound.holds.within (passesBlank b₀.plan)
      (∀ p ∈ b₀.columns.zipIdx, p.2 ∉ (slotValues b₀.fieldIndex values).map Prod.fst →
        p.1.getTypedValue b₀.rowCount = none) := by
  obtain ⟨f, hf⟩ : ∃ f, b.plan.filter = some f := by
    have hfilter := h.buffering.trans hbuffering
    rw [TableBuilder.buffering, Bool.and_eq_true] at hfilter
    exact Option.isSome_iff_exists.mp hfilter.1
  obtain ⟨buf, hbuf⟩ : ∃ buf, b.rowBuf = some buf := by
    have hsome : b.rowBuf.isSome = b.plan.filter.isSome := h.sound.rowBuf
    rw [hf] at hsome
    exact Option.isSome_iff_exists.mp hsome
  obtain ⟨hfields, hstate, hdirect⟩ := hblank buf (h.rowBuf.symm.trans hbuf)
  have hget : b.getBufferedValue = fun _ => none := by
    funext field
    rw [getBufferedValue, hbuf]
    cases b.plan.resolveField field with
    | none => simp
    | some name => cases hlook : b.fieldIndex.lookup name <;> simp [hlook, hfields, Assoc.get]
  have hend : b.endRow = b.drainBuffered (passesBlank b₀.plan) := by
    rw [TableBuilder.endRow, h.buffering, hbuffering, hbuf, passesBlank, ← h.plan, hf]
    simp [hdirect, hstate, evaluateAgainstNull, hf, hget]
    rfl
  -- nothing waits in the row buffer, so that the drain is a null fill
  have hgrow : b.growDirty.trim.Sound t (rowOf values) := by
    rw [trim_growDirty]
    exact ⟨h.sound.holds.congr_dirty (fun i => WordSet.test_growFor _ _ i)
      (WordSet.capacity_growFor (by decide) _ _), h.sound.order, h.sound.known, h.sound.rowBuf⟩
  have hbare : b.growDirty.Bare ↔ b.Bare := by
    rw [Bare, Bare]
    simp only [growDirty, WordSet.test_growFor]
  refine rowEnd_of_nullFill hgrow (h.loose.congr rfl rfl) h.rowCount (hbare.trans h.bare_iff)
    (fun hk => ?_) fun hk => ?_
  · rw [hend, hk, drainBuffered_false b hbuf]
    exact ⟨(reject_written h.sound h.loose).mapRowBuf _, rfl⟩
  · rw [hend, hk, drainBuffered_true b hbuf, hdirect, hfields]
    exact ⟨_, rfl⟩

/-- A buffered row is judged on its values. If it passes they are drained into the columns, which
are then null-filled; otherwise they are dropped and the columns are as they were. -/
theorem Queued.endRow (h : Queued b₀ f t values b) (hf : b₀.plan.filter = some f)
    (hl : b₀.Loose t) (within : ∀ name, (rowOf values name).isSome → name ∈ t.names) :
    RowEnd b₀.rowCount b.endRow t (rowOf values) within (b₀.bufferedVerdict values)
      (∀ p ∈ b₀.columns.zipIdx, p.2 ∉ (slotValues b₀.fieldIndex values).map Prod.fst →
        p.1.getTypedValue b₀.rowCount = none) := by
  obtain ⟨buf, hbuf, hstate⟩ := h.buffered
  have hrowBuf : b.rowBuf = some buf := hbuf.rowBuf
  have hbuffering : b.buffering = true := hbuf.buffering
  have hget : b.getBufferedValue = rowGet b.plan (rowOf values) := hbuf.getBufferedValue
  have hloose : b.Loose t := hl.congr h.columns h.rowCount
  have hend : b.endRow = b.drainBuffered (b₀.bufferedVerdict values) := by
    rw [TableBuilder.endRow, hbuffering, hrowBuf, bufferedVerdict, hf, Option.all_some]
    simp only [Bool.not_true, Bool.false_eq_true, ↓reduceIte, hbuf.direct, hstate,
      evaluateAgainstNull, hget, h.plan, hf]
    rfl
  have hrange : ∀ p ∈ buf.fields, p.1 < b.columns.length := by
    intro p hp
    have hlt := hbuf.inRange p hp
    rwa [show b.trim.columns.length = b.columns.length from List.length_mapIdx] at hlt
  obtain ⟨htrim, hdrained, hsame⟩ := trim_withDrained hloose hrange
  obtain ⟨hs, hframe⟩ := hbuf.sound.withDrained hbuf.rowCount hbuf.fields hbuf.inRange
  rw [overlay_noRow] at hs
  rw [← htrim] at hs
  have hindex : (b.withDrained buf.fields).fieldIndex = b₀.fieldIndex := by
    show (b.withDrained buf.fields).trim.fieldIndex = _
    rw [htrim, hframe.fieldIndex]
    exact h.checked.index.trans (b₀.recordAll_frame _).1
  have hrow : (b.withDrained buf.fields).rowCount = b₀.rowCount := by
    show (b.withDrained buf.fields).trim.rowCount = _
    rw [htrim, hframe.rowCount]
    exact h.rowCount
  have hkept : ∀ i, i ∉ (slotValues b₀.fieldIndex values).map Prod.fst →
      (b.withDrained buf.fields).columns[i]? = b₀.columns[i]? := by
    intro i hi
    rw [← h.columns]
    refine hsame i fun hmem => hi ?_
    -- a slot with a buffered value is one of a value of the row
    obtain ⟨q, hq, rfl⟩ := List.mem_map.mp hmem
    obtain ⟨p, hp⟩ : ∃ p, t.cols[q.1]? = some p :=
      ⟨_, List.getElem?_eq_getElem (hloose.size ▸ hrange q hq)⟩
    have hindexed : ∀ name (i : Nat), b₀.fieldIndex.lookup name = some i ↔
        t.names[i]? = some name := hindex ▸ hs.holds.indexed
    have hlook : b.trim.fieldIndex.lookup p.1 = some q.1 := hbuf.sound.holds.lookup_of_cols hp
    have hvalue := hbuf.fields p.1
    rw [hlook, Option.bind_some] at hvalue
    rw [← rowOf_isSome_iff hindexed hp, ← hvalue, Option.isSome_iff_ne_none, ne_eq,
      Assoc.get_eq_none, not_not]
    exact hmem
  refine rowEnd_of_nullFill hs hdrained hrow
    (bare_iff_covers hs hdrained hindex hrow (hdrained.size.trans hl.size.symm) hkept)
    (fun hk => ?_) fun hk => ?_
  · rw [hend, hk, drainBuffered_false b hrowBuf]
    exact ⟨(reject_written hbuf.sound hloose).mapRowBuf _, h.rowCount.trans hrow.symm⟩
  · rw [hend, hk, drainBuffered_true b hrowBuf, hbuf.direct]
    exact ⟨_, rfl⟩

/-- The checks of a row read what quiet builders share and the row count. -/
theorem Quiet.recordAll (h : b.Quiet x) (hrow : x.rowCount = b.rowCount)
    (values : List (Nat × Value)) : (b.recordAll values).Quiet (x.recordAll values) := by
  induction values using List.reverseRecOn with
  | nil => exact h
  | append_singleton values p ih =>
      rw [recordAll_concat, recordAll_concat]
      refine ih.recordStrictViolationAt ?_ p.1 p.2
      rw [(b.recordAll_frame values).2.2.2.1, (x.recordAll_frame values).2.2.2.1, hrow]

/-- The values of a row whose columns exist are of columns of the table. -/
theorem Rests.within (h : b.Rests t) {row : List RowField}
    (hcols : ∀ x ∈ row, ∀ name, b.plan.resolveField x.name = some name → name ∈ b.fieldIndex)
    (name : String) (hname : (rowOf (rowValues b.plan row) name).isSome) : name ∈ t.names := by
  rw [rowOf_isSome] at hname
  obtain ⟨p, hp, rfl⟩ := List.mem_map.mp hname
  obtain ⟨x, hx, hres⟩ := List.mem_filterMap.mp hp
  obtain ⟨name, hname', rfl⟩ := Option.map_eq_some_iff.mp hres
  exact (h.trim.sound.holds.mem_index name).mp (hcols x hx name hname')

/-- **One row**, written by slot or given to `put_field`, of a builder that rests at a table: it is kept
by its verdict, and added to the table if it covers what is left over. -/
theorem Rests.row (h : b.Rests t) {r : RowWrite}
    (hcols : ∀ x ∈ r.fields, ∀ name, b.plan.resolveField x.name = some name →
      name ∈ b.fieldIndex) :
    RowEnd b.rowCount (b.writeRow (r.writes b.plan b.fieldIndex)) t (rowOf (rowValues b.plan r.fields))
        (h.within hcols) (b.verdict r) (b.CoversLeftovers r) ∧
      (b.recordAll (slotValues b.fieldIndex (rowValues b.plan r.fields))).Quiet
        (b.writeRow (r.writes b.plan b.fieldIndex)) := by
  obtain ⟨hwrote, hqueued⟩ := h.beginRow
  have hnamed : b.beginRow.writeAll ((namedRow r.fields).map .named) =
      b.beginRow.putAll (namedRow r.fields) := List.foldl_map
  have hquiet : ∀ {b' : TableBuilder},
      (b.beginRow.recordAll (slotValues b.fieldIndex (rowValues b.plan r.fields))).Quiet b' →
      (b.recordAll (slotValues b.fieldIndex (rowValues b.plan r.fields))).Quiet b'.endRow :=
    fun hb => ((b.quiet_beginRow.recordAll rfl _).trans hb).trans (quiet_endRow _)
  rw [writeRow, RowWrite.writes, verdict]
  cases hbuffering : b.beginRow.buffering with
  | false =>
      -- both ways write to the columns
      cases r.bySlot with
      | true =>
          have hw := hwrote.slotRow hcols
          exact ⟨hw.endRow_direct hbuffering, hquiet hw.checked⟩
      | false =>
          have hw := hwrote.namedRow hbuffering hcols
          rw [if_neg Bool.false_ne_true, hnamed]
          exact ⟨hw.endRow_direct hbuffering, hquiet hw.checked⟩
  | true =>
      cases r.bySlot with
      | true =>
          have hw := hwrote.slotRow hcols
          refine ⟨hw.endRow_blank hbuffering fun buf hbuf => ?_, hquiet hw.checked⟩
          obtain ⟨buf₀, -, rfl⟩ := Option.map_eq_some_iff.mp hbuf
          exact ⟨rfl, rfl, rfl⟩
      | false =>
          have hfilter := hbuffering
          rw [buffering, Bool.and_eq_true] at hfilter
          obtain ⟨f, hf⟩ := Option.isSome_iff_exists.mp hfilter.1
          have hq := (hqueued hbuffering f hf).namedRow hf hcols
          rw [if_neg Bool.false_ne_true, hnamed]
          exact ⟨hq.endRow hf (h.loose.congr rfl rfl) (h.within hcols), hquiet hq.checked⟩

end Written

end TableBuilder

end Rypipe
