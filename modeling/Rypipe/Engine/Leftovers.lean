import Rypipe.Engine.Hooks
import Rypipe.Engine.Ordinals
import Rypipe.Engine.SameContent
import Rypipe.Engine.Strict

/-! # What a reset leaves behind

`reset` drops the columns, the counts and the errors, and keeps the rest: the dirty words, what the
row buffer has learned of the filter's columns, the expected slots and a frozen layout. Two builders
are `Similar` when they differ only in leftovers that no row reads: how long the dirty mask is, which
filter columns are marked already, and the calls of the observer. Rows keep builders similar, and a
reset builder that has learned nothing is similar to a new one. -/

namespace Rypipe

namespace WordSet

variable {w : Nat}

/-- Arrays that hold the same set have the same words, up to trailing zeros. -/
theorem getD_words_congr {s s' : WordSet w} (h : ∀ i, s'.test i = s.test i) (k : Nat) :
    s'.words[k]?.getD 0#w = s.words[k]?.getD 0#w := by
  refine BitVec.eq_of_getLsbD_eq fun j hj => ?_
  have hbit := h (w * k + j)
  have hw : 0 < w := Nat.zero_lt_of_lt hj
  rwa [test, test, Nat.mul_add_div hw, Nat.div_eq_of_lt hj, Nat.add_zero, Nat.mul_add_mod,
    Nat.mod_eq_of_lt hj] at hbit

/-- The word-wise test reads the set, when there is room: two arrays with the same indices are full
up to `n` together. -/
theorem isFull_congr {s s' : WordSet w} (h : ∀ i, s'.test i = s.test i) {n : Nat}
    (hroom : n ≤ s.capacity) (hroom' : n ≤ s'.capacity) : s'.isFull n = s.isFull n := by
  rw [isFull, isFull, getD_words_congr h]
  congr 1
  rw [Bool.eq_iff_iff, List.all_eq_true, List.all_eq_true]
  refine forall₂_congr fun k hk => ?_
  have hlt : k < n / w := List.mem_range.mp hk
  have hword : ∀ {t : WordSet w}, n ≤ t.capacity → k < t.words.length := fun {t} hn =>
    Nat.lt_of_lt_of_le hlt (Nat.div_le_of_le_mul hn)
  have hword' := hword hroom'
  have hword := hword hroom
  have heq := getD_words_congr h k
  rw [List.getElem?_eq_getElem hword, List.getElem?_eq_getElem hword', Option.getD_some,
    Option.getD_some] at heq
  rw [List.getElem?_eq_getElem hword, List.getElem?_eq_getElem hword', heq]

/-- Cutting the array to fewer words adds no index. -/
theorem test_of_test_resize {s : WordSet w} {n i : Nat} (h : (s.resize n).test i = true) :
    s.test i = true := by
  simp only [test, resize, getD_takeD] at h ⊢
  split at h
  · exact h
  · simp at h

/-- An index that is in the set after an insertion was there before, or is the new one. -/
theorem test_of_test_insert {s : WordSet w} {i j : Nat} (h : (s.insert i).test j = true) :
    j = i ∨ s.test j = true := by
  by_cases hij : j = i
  · exact .inl hij
  · rw [test_insert_ne s hij] at h
    exact .inr h

/-- An index that is in the set after several insertions was there before, or is one of those
inserted. -/
theorem test_of_test_insertAll {s : WordSet w} {is : List Nat} {j : Nat}
    (h : (is.foldl WordSet.insert s).test j = true) : j ∈ is ∨ s.test j = true := by
  induction is generalizing s with
  | nil => exact .inr h
  | cons i is ih =>
      rcases ih h with hmem | htest
      · exact .inl (List.mem_cons_of_mem _ hmem)
      · rcases test_of_test_insert htest with rfl | htest
        · exact .inl List.mem_cons_self
        · exact .inr htest

end WordSet

namespace TableBuilder

section Leftovers

variable [Platform]

/-- The resolved names of the filter's fields. -/
def filterNames (plan : ExecutionPlan) : List String :=
  (plan.filter.map (collectPredicateFieldNames plan)).getD []

/-- The row buffer marks columns of the filter only. -/
structure MarksFilter (b : TableBuilder) (buf : RowBuffer) : Prop where
  names : buf.predNames = [] ∨ buf.predNames = filterNames b.plan
  sound : ∀ slot, buf.predicateMask.test slot = true →
    ∃ name ∈ filterNames b.plan, b.columnOrder[slot]? = some name

/-- The row buffers agree on the row, and on what decides how the next rows are read. -/
structure SameRow (b : TableBuilder) (buf buf' : RowBuffer) : Prop where
  fields : buf.fields = buf'.fields
  state : buf.state = buf'.state
  direct : buf.direct = buf'.direct
  ordinal : buf.predicateOrdinal = buf'.predicateOrdinal
  worthwhile : buf.bufferWorthwhile = buf'.bufferWorthwhile
  marks : b.MarksFilter buf
  marks' : b.MarksFilter buf'
  held : ∀ p ∈ buf'.fields, p.1 < b.columns.length

/-- The builder with other leftovers. -/
def vary (b : TableBuilder) (dirty : WordSet 64) (rowBuf : Option RowBuffer)
    (events : List Event) : TableBuilder := { b with rowDirty := dirty, rowBuf, events }

/-- Leftovers that no row reads. -/
structure Varies (b : TableBuilder) (dirty : WordSet 64) (rowBuf : Option RowBuffer) : Prop where
  order : b.InSlotOrder
  plain : b.plan.schemaOrder = []
  frozen : b.frozen = none
  sameDirty : ∀ i, dirty.test i = b.rowDirty.test i
  room : b.columns.length ≤ dirty.capacity
  room' : b.columns.length ≤ b.rowDirty.capacity
  rowBuf : Option.Rel (SameRow b) rowBuf b.rowBuf

/-- The builder `s` is `b` with other leftovers. -/
def Similar (s b : TableBuilder) : Prop :=
  ∃ dirty rowBuf events, s = b.vary dirty rowBuf events ∧ b.Varies dirty rowBuf

section Steps

variable {s b b' : TableBuilder} {dirty : WordSet 64} {rowBuf : Option RowBuffer}

/-- Marks stay marks of filter columns while columns are only added at the end: `column_order` keeps
the name of every slot it had. -/
theorem MarksFilter.mono {buf : RowBuffer} (h : b.MarksFilter buf) (hplan : b'.plan = b.plan)
    (horder : b.columnOrder <+: b'.columnOrder) : b'.MarksFilter buf := by
  refine ⟨hplan ▸ h.names, fun slot htest => ?_⟩
  obtain ⟨name, hname, hslot⟩ := h.sound slot htest
  obtain ⟨hlt, hget⟩ := List.getElem?_eq_some_iff.mp hslot
  refine ⟨name, hplan ▸ hname, ?_⟩
  rw [List.prefix_iff_getElem?.mp horder slot hlt, hget]

/-- Two row buffers that agree for `b` agree for a builder with more columns, since the held slots
stay within its columns. -/
theorem SameRow.mono {buf buf' : RowBuffer} (h : b.SameRow buf buf') (hplan : b'.plan = b.plan)
    (horder : b.columnOrder <+: b'.columnOrder) (hlength : b.columns.length ≤ b'.columns.length) :
    b'.SameRow buf buf' :=
  ⟨h.fields, h.state, h.direct, h.ordinal, h.worthwhile, h.marks.mono hplan horder,
    h.marks'.mono hplan horder, fun p hp => Nat.lt_of_lt_of_le (h.held p hp) hlength⟩

/-- The same for the optional buffers of two builders: either there is none, or both agree. -/
theorem rel_sameRow_mono {rowBuf rowBuf' : Option RowBuffer}
    (h : Option.Rel (SameRow b) rowBuf rowBuf') (hplan : b'.plan = b.plan)
    (horder : b.columnOrder <+: b'.columnOrder) (hlength : b.columns.length ≤ b'.columns.length) :
    Option.Rel (SameRow b') rowBuf rowBuf' := by
  cases h with
  | none => exact .none
  | some hrow => exact .some (hrow.mono hplan horder hlength)

/-- A step that leaves the columns in place and does not touch what varies. -/
theorem Varies.congr (h : b.Varies dirty rowBuf) (hcolumns : b'.columns.length = b.columns.length)
    (hindex : b'.fieldIndex = b.fieldIndex) (horder : b'.columnOrder = b.columnOrder)
    (hplan : b'.plan = b.plan) (hfrozen : b'.frozen = b.frozen)
    (hdirty : b'.rowDirty = b.rowDirty) (hbuf : b'.rowBuf = b.rowBuf) : b'.Varies dirty rowBuf := by
  refine ⟨⟨?_, ?_⟩, hplan ▸ h.plain, hfrozen.trans h.frozen, hdirty ▸ h.sameDirty, hcolumns ▸ h.room,
    ?_, ?_⟩
  · rw [horder, hcolumns]
    exact h.order.size
  · rw [hindex, horder]
    exact h.order.indexed
  · rw [hcolumns, hdirty]
    exact h.room'
  · rw [hbuf]
    exact rel_sameRow_mono h.rowBuf hplan (horder ▸ List.prefix_refl _) (Nat.le_of_eq hcolumns.symm)

/-- `notify_put_field` only adds an event, and the events are among what varies. -/
theorem Similar.notifyPutField (h : s.Similar b) (idx : Nat) (value : Value) :
    (s.notifyPutField idx value).Similar (b.notifyPutField idx value) := by
  obtain ⟨dirty, rowBuf, events, rfl, hvaries⟩ := h
  exact ⟨dirty, rowBuf, _, rfl, hvaries.congr rfl rfl rfl rfl rfl rfl rfl⟩

/-- The strict check looks at the column of the slot, which is the same in both builders. -/
theorem Similar.recordStrictViolationAt (h : s.Similar b) (idx : Nat) (value : Value) :
    (s.recordStrictViolationAt idx value).Similar (b.recordStrictViolationAt idx value) := by
  obtain ⟨dirty, rowBuf, events, rfl, hvaries⟩ := h
  exact ⟨dirty, rowBuf, events, rfl, hvaries.congr rfl rfl rfl rfl rfl rfl rfl⟩

/-- `record_slot` writes `ordinal_expect` and `current_ordinal`, which do not vary. -/
theorem Similar.recordOrdinal (h : s.Similar b) (idx : Nat) (name : String) :
    (s.recordOrdinal idx name).Similar (b.recordOrdinal idx name) := by
  obtain ⟨dirty, rowBuf, events, rfl, hvaries⟩ := h
  exact ⟨dirty, rowBuf, events, rfl, hvaries.congr rfl rfl rfl rfl rfl rfl rfl⟩

/-- Counting an accepted row keeps two builders similar: the counters are not among what varies. -/
theorem Similar.acceptRow (h : s.Similar b) : s.acceptRow.Similar b.acceptRow := by
  obtain ⟨dirty, rowBuf, events, rfl, hvaries⟩ := h
  exact ⟨dirty, rowBuf, _, rfl, hvaries.congr rfl rfl rfl rfl rfl rfl rfl⟩

/-- Counting a rejected row keeps two builders similar. -/
theorem Similar.rejectRow (h : s.Similar b) : s.rejectRow.Similar b.rejectRow := by
  obtain ⟨dirty, rowBuf, events, rfl, hvaries⟩ := h
  exact ⟨dirty, rowBuf, _, rfl, hvaries.congr rfl rfl rfl rfl rfl rfl rfl⟩

/-- Popping the last cell of every column keeps two builders similar, since they have the same
columns. -/
theorem Similar.popRow (h : s.Similar b) : s.popRow.Similar b.popRow := by
  obtain ⟨dirty, rowBuf, events, rfl, hvaries⟩ := h
  exact ⟨dirty, rowBuf, events, rfl,
    hvaries.congr (List.length_map _) rfl rfl rfl rfl rfl rfl⟩

/-- Writing a cell keeps two builders similar: the column is the same, and the dirty sets get the
same index. -/
theorem Similar.writeSlot (h : s.Similar b) {idx : Nat} (hidx : idx < b.columns.length)
    (value : Value) : (s.writeSlot idx value).Similar (b.writeSlot idx value) := by
  obtain ⟨dirty, rowBuf, events, rfl, hvaries⟩ := h
  have hlength : (b.writeSlot idx value).columns.length = b.columns.length :=
    List.length_modify _ _ _
  refine ⟨dirty.insert idx, rowBuf, events, rfl, ⟨?_, hvaries.order.indexed⟩, hvaries.plain,
    hvaries.frozen, fun i => ?_, ?_, ?_, ?_⟩
  · rw [hlength]
    exact hvaries.order.size
  · show (dirty.insert idx).test i = (b.rowDirty.insert idx).test i
    rw [WordSet.test_insert _ (Nat.lt_of_lt_of_le hidx hvaries.room),
      WordSet.test_insert _ (Nat.lt_of_lt_of_le hidx hvaries.room'), hvaries.sameDirty]
  · rw [hlength, WordSet.capacity_insert]
    exact hvaries.room
  · rw [hlength]
    show _ ≤ (b.rowDirty.insert idx).capacity
    rw [WordSet.capacity_insert]
    exact hvaries.room'
  · exact rel_sameRow_mono hvaries.rowBuf rfl (List.prefix_refl _) (Nat.le_of_eq hlength.symm)

/-- Null-filling reads the dirty mask as a set, so arrays of different lengths fill the same
columns. -/
theorem Similar.nullFill (h : s.Similar b) : s.nullFill.Similar b.nullFill := by
  obtain ⟨dirty, rowBuf, events, rfl, hvaries⟩ := h
  have hfull := WordSet.isFull_congr hvaries.sameDirty hvaries.room' hvaries.room
  have hclear : ∀ {columns : List ColumnBuilder}, columns.length = b.columns.length →
      ({ b with columns, rowDirty := b.rowDirty.clear } : TableBuilder).Varies dirty.clear
        rowBuf := by
    intro columns hlength
    refine ⟨⟨?_, hvaries.order.indexed⟩, hvaries.plain, hvaries.frozen, fun i => ?_, ?_, ?_, ?_⟩
    · show b.columnOrder.length = columns.length
      rw [hlength]
      exact hvaries.order.size
    · rw [WordSet.test_clear, WordSet.test_clear]
    · rw [WordSet.capacity_clear]
      exact hlength ▸ hvaries.room
    · rw [WordSet.capacity_clear]
      exact hlength ▸ hvaries.room'
    · exact rel_sameRow_mono hvaries.rowBuf rfl (List.prefix_refl _) (Nat.le_of_eq hlength.symm)
  rw [TableBuilder.nullFill, TableBuilder.nullFill]
  show TableBuilder.Similar (if dirty.isFull b.columns.length then _ else _) _
  rw [hfull]
  split
  · exact ⟨dirty.clear, rowBuf, events, rfl, hclear rfl⟩
  · refine ⟨dirty.clear, rowBuf, events, ?_, hclear List.length_mapIdx⟩
    have hcells : (fun (i : Nat) (c : ColumnBuilder) => if dirty.test i then c else c.push none) =
        fun i c => if b.rowDirty.test i then c else c.push none := by
      funext i c
      rw [hvaries.sameDirty]
    rw [vary, ← hcells]
    rfl

/-- The mode of the row in similar builders is the same, and so are the back-fill and the plan;
neither has a layout. -/
theorem Similar.modes (h : s.Similar b) :
    s.buffering = b.buffering ∧ (s.IsDirect ↔ b.IsDirect) ∧ s.backfill = b.backfill ∧
      s.plan = b.plan ∧ s.frozen = none ∧ b.frozen = none := by
  obtain ⟨dirty, rowBuf, events, rfl, hvaries⟩ := h
  have hmodes : rowBuf.all (·.bufferWorthwhile) = b.rowBuf.all (·.bufferWorthwhile) ∧
      rowBuf.any (·.direct) = b.rowBuf.any (·.direct) := by
    have hrel := hvaries.rowBuf
    generalize b.rowBuf = rowBuf' at hrel
    cases hrel with
    | none => exact ⟨rfl, rfl⟩
    | some hrow => exact ⟨hrow.worthwhile, hrow.direct⟩
  refine ⟨?_, ?_, ?_, rfl, hvaries.frozen, hvaries.frozen⟩
  · show (b.plan.filter.isSome && rowBuf.all (·.bufferWorthwhile)) = _
    rw [hmodes.1]
    rfl
  · show rowBuf.any (·.direct) = true ↔ _
    rw [hmodes.2]
    rfl
  · show (if rowBuf.any (·.direct) then b.rowCount - 1 else b.rowCount) = _
    rw [hmodes.2]
    rfl

/-- Making sure of a column keeps two builders similar. They find the same slot or create the column
at the same place, and the dirty sets are grown alike. -/
theorem Similar.ensureColumnIdx (h : s.Similar b) (name : String) :
    (s.ensureColumnIdx name).1.Similar (b.ensureColumnIdx name).1 ∧
      (s.ensureColumnIdx name).2 = (b.ensureColumnIdx name).2 ∧
      (b.ensureColumnIdx name).2 < (b.ensureColumnIdx name).1.columns.length := by
  obtain ⟨-, -, hback, -, hfrozen, hfrozen'⟩ := h.modes
  obtain ⟨dirty, rowBuf, events, rfl, hvaries⟩ := h
  -- without a schema order a new column goes to the end
  have hlast : b.schemaInsertIndex name = b.columnOrder.length :=
    schemaInsertIndex_of_notMem (hvaries.plain ▸ List.not_mem_nil)
  have hemits := hvaries.order.ensureColumnIdx hfrozen' (.inr hlast)
  rw [TableBuilder.ensureColumnIdx, TableBuilder.ensureColumnIdx, exactWithout_of_frozen hfrozen,
    exactWithout_of_frozen hfrozen']
  rw [TableBuilder.ensureColumnIdx, exactWithout_of_frozen hfrozen'] at hemits
  have hindex : (b.vary dirty rowBuf events).fieldIndex = b.fieldIndex := rfl
  rw [hindex]
  cases hlook : b.fieldIndex.lookup name with
  | some idx =>
      refine ⟨⟨dirty, rowBuf, events, rfl, hvaries⟩, rfl, ?_⟩
      show idx < b.columns.length
      rw [← hvaries.order.size]
      exact (List.getElem?_eq_some_iff.mp ((hvaries.order.indexed name idx).mp hlook)).1
  | none =>
      rw [hlook] at hemits
      have hlength : (b.createColumn name).columns.length = b.columns.length + 1 := by
        show (b.columns ++ [_]).length = _
        rw [List.length_append, List.length_singleton]
      -- both builders create the column at the same place
      have hgrown : (b.createColumn name).columnOrder = b.columnOrder ++ [name] := by
        show b.columnOrder.insertIdx (b.schemaInsertIndex name) name = _
        rw [hlast, List.insertIdx_length_self]
      refine ⟨⟨dirty.growFor (b.columns.length + 1), rowBuf, events, ?_, ?_⟩, rfl, ?_⟩
      · show TableBuilder.createColumn _ name = _
        rw [createColumn, createColumn, hback]
        simp only [appendColumn, vary, List.length_append, List.length_singleton]
        rfl
      · refine ⟨hemits.order, hvaries.plain, hvaries.frozen, fun i => ?_, ?_, ?_, ?_⟩
        · show (dirty.growFor _).test i = (b.rowDirty.growFor _).test i
          rw [WordSet.test_growFor, WordSet.test_growFor, hvaries.sameDirty]
        · rw [hlength]
          exact WordSet.capacity_growFor (by decide) _ _
        · exact WordSet.capacity_growFor (by decide) _ _
        · refine rel_sameRow_mono (b := b) hvaries.rowBuf rfl ?_ ?_
          · rw [hgrown]
            exact List.prefix_append _ _
          · show b.columns.length ≤ (b.createColumn name).columns.length
            omega
      · show b.columns.length < (b.createColumn name).columns.length
        omega

/-- Changing both row buffers in the same way keeps them in agreement. -/
theorem Similar.mapRowBuf (h : s.Similar b) {f g : RowBuffer → RowBuffer}
    (hsame : ∀ buf buf', b.SameRow buf buf' → b.SameRow (f buf) (g buf')) :
    (s.mapRowBuf f).Similar (b.mapRowBuf g) := by
  obtain ⟨dirty, rowBuf, events, rfl, hvaries⟩ := h
  refine ⟨dirty, rowBuf.map f, events, rfl, ⟨hvaries.order.size, hvaries.order.indexed⟩,
    hvaries.plain, hvaries.frozen, hvaries.sameDirty, hvaries.room, hvaries.room', ?_⟩
  show Option.Rel _ (rowBuf.map f) (b.rowBuf.map g)
  have hrel := hvaries.rowBuf
  generalize b.rowBuf = rowBuf' at hrel
  cases hrel with
  | none => exact .none
  | some hrow =>
      have hrow' := hsame _ _ hrow
      exact .some ⟨hrow'.fields, hrow'.state, hrow'.direct, hrow'.ordinal, hrow'.worthwhile,
        ⟨hrow'.marks.names, hrow'.marks.sound⟩, ⟨hrow'.marks'.names, hrow'.marks'.sound⟩,
        hrow'.held⟩

/-- Pushing a value: the column is made sure of, the value is checked and written, and the hook is
called, in both builders alike. -/
theorem Similar.pushFieldResolved (h : s.Similar b) (name : String) (value : Value) :
    (s.pushFieldResolved name value).Similar (b.pushFieldResolved name value) := by
  obtain ⟨-, -, -, -, hfrozen, hfrozen'⟩ := h.modes
  obtain ⟨hensure, hslot, hlt⟩ := h.ensureColumnIdx name
  rw [TableBuilder.pushFieldResolved, TableBuilder.pushFieldResolved,
    exactWithout_of_frozen hfrozen, exactWithout_of_frozen hfrozen']
  dsimp only
  rw [hslot]
  have hstep := ((hensure.recordStrictViolationAt (b.ensureColumnIdx name).2 value).notifyPutField
    (b.ensureColumnIdx name).2 value).recordOrdinal (b.ensureColumnIdx name).2 name
  exact hstep.writeSlot hlt value

/-! ## The columns of the filter -/

/-- Collecting the names of the filter and the slots they have marks columns of the filter only. -/
theorem MarksFilter.build {buf : RowBuffer} (h : b.MarksFilter buf) (horder : b.InSlotOrder) :
    b.MarksFilter { buf with
      predNames := filterNames b.plan
      predicateMask := ((filterNames b.plan).filterMap fun n => b.fieldIndex.lookup n).foldl
        WordSet.insert (buf.predicateMask.resizeFor b.columns.length) } := by
  refine ⟨.inr rfl, fun slot htest => ?_⟩
  rcases WordSet.test_of_test_insertAll htest with hmem | htest
  · obtain ⟨name, hname, hlook⟩ := List.mem_filterMap.mp hmem
    exact ⟨name, hname, (horder.indexed name slot).mp hlook⟩
  · exact h.sound slot (WordSet.test_of_test_resize htest)

/-- Marking one more column of the filter, with the array grown for its slot if need be. -/
theorem MarksFilter.insert {buf : RowBuffer} (h : b.MarksFilter buf) {slot : Nat} {name : String}
    (hname : name ∈ filterNames b.plan) (hslot : b.columnOrder[slot]? = some name) :
    let mask := if buf.predicateMask.words.length ≤ slot / 64 then
      buf.predicateMask.resize (slot / 64 + 1) else buf.predicateMask
    b.MarksFilter { buf with predicateMask := mask.insert slot } ∧
      (mask.insert slot).test slot = true := by
  intro mask
  obtain ⟨hroom, htest⟩ := buf.predicateMask.test_resize_word (by decide) slot
  refine ⟨⟨h.names, fun i hi => ?_⟩, WordSet.test_insert_self _ hroom⟩
  rcases WordSet.test_of_test_insert hi with rfl | hi
  · exact ⟨name, hname, hslot⟩
  · exact h.sound i (htest i ▸ hi)

/-- Marking a slot: the row buffer then knows whether it is a column of the filter. The names of the
filter are collected the first time; after that only the slot in question is looked up, by its name
in the export order. -/
theorem MarksFilter.markPredicateSlot {buf : RowBuffer} (h : b.MarksFilter buf)
    (horder : b.InSlotOrder) (hbuf : b.rowBuf = some buf) (slot : Nat) :
    ∃ buf', b.markPredicateSlot slot = { b with rowBuf := some buf' } ∧ b.MarksFilter buf' ∧
      SameFields buf buf' ∧ buf'.predicateOrdinal = buf.predicateOrdinal ∧
      (buf'.predicateMask.test slot = true ↔
        ∃ name ∈ filterNames b.plan, b.columnOrder[slot]? = some name) := by
  have hself : b = { b with rowBuf := some buf } := by
    rw [← hbuf]
  have hmap : ∀ (buf : RowBuffer) f, ({ b with rowBuf := some buf } : TableBuilder).mapRowBuf f =
      { b with rowBuf := some (f buf) } := fun _ _ => rfl
  rw [TableBuilder.markPredicateSlot]
  by_cases hfilter : b.plan.filter.isNone = true
  · refine ⟨buf, ?_, h, ⟨rfl, rfl, rfl, rfl⟩, rfl, h.sound slot, ?_⟩
    · rw [if_pos hfilter]
      exact hself
    · rintro ⟨name, hname, -⟩
      rw [filterNames, Option.isNone_iff_eq_none.mp hfilter] at hname
      cases hname
  · rw [if_neg hfilter]
    -- the names are known afterwards, unless the slot is marked already
    obtain ⟨buf₁, hbuilt, hmarks, hsame, hordinal, hknown⟩ : ∃ buf₁,
        (if b.rowBuf.any fun buf => !buf.predicateMask.test slot && buf.predNames.isEmpty then
          b.buildPredicateMask else b) = { b with rowBuf := some buf₁ } ∧ b.MarksFilter buf₁ ∧
        SameFields buf buf₁ ∧ buf₁.predicateOrdinal = buf.predicateOrdinal ∧
        (buf₁.predicateMask.test slot = false → buf₁.predNames = filterNames b.plan) := by
      rw [hbuf, Option.any_some]
      split
      · next hcond =>
        rw [Bool.and_eq_true, Bool.not_eq_true'] at hcond
        refine ⟨_, ?_, h.build horder, ⟨rfl, rfl, rfl, rfl⟩, rfl, fun _ => rfl⟩
        rw [buildPredicateMask, mapRowBuf, hbuf, Option.map_some, if_neg (by rw [hcond.2]; simp)]
        rfl
      · next hcond =>
        refine ⟨buf, hself, h, ⟨rfl, rfl, rfl, rfl⟩, rfl, fun hfalse => ?_⟩
        refine h.names.resolve_left fun hnil => hcond ?_
        rw [hfalse, hnil]
        rfl
    simp only [hbuilt]
    have hslot : ({ b with rowBuf := some buf₁ } : TableBuilder).isPredicateSlot slot =
        buf₁.predicateMask.test slot := rfl
    rw [hslot]
    cases htest : buf₁.predicateMask.test slot with
    | true =>
        exact ⟨buf₁, rfl, hmarks, hsame, hordinal, fun _ => hmarks.sound slot htest, fun _ => htest⟩
    | false =>
        have hnames := hknown htest
        rw [if_neg Bool.false_ne_true]
        cases hname : b.columnOrder[slot]? with
        | none =>
            refine ⟨buf₁, rfl, hmarks, hsame, hordinal, ?_⟩
            rw [htest]
            simp
        | some name =>
            dsimp only
            rw [hmap]
            by_cases hmem : name ∈ filterNames b.plan
            · obtain ⟨hmarks', htest'⟩ := hmarks.insert hmem hname
              rw [if_pos (hnames ▸ hmem)]
              exact ⟨_, rfl, hmarks', ⟨hsame.fields, hsame.direct, hsame.worthwhile, hsame.state⟩,
                hordinal, fun _ => ⟨name, hmem, rfl⟩, fun _ => htest'⟩
            · rw [if_neg (hnames ▸ hmem)]
              refine ⟨buf₁, rfl, hmarks, hsame, hordinal, fun htrue => ?_, ?_⟩
              · cases htest.symm.trans htrue
              · rintro ⟨n, hn, heq⟩
                exact absurd (Option.some.inj heq ▸ hn) hmem

/-- Similar builders know the same of a marked slot. Their masks may differ in slots that have not
been asked for yet, and marking makes both right at this one. -/
theorem Similar.markPredicateSlot (h : s.Similar b) (slot : Nat) :
    (s.markPredicateSlot slot).Similar (b.markPredicateSlot slot) ∧
      (s.markPredicateSlot slot).isPredicateSlot slot =
        (b.markPredicateSlot slot).isPredicateSlot slot := by
  obtain ⟨dirty, rowBuf, events, rfl, hvaries⟩ := h
  have hrel := hvaries.rowBuf
  cases hbuf : b.rowBuf with
  | none =>
      -- there is nothing to mark
      rw [hbuf] at hrel
      cases hrel
      have hnone : ∀ {b' : TableBuilder}, b'.rowBuf = none → b'.markPredicateSlot slot = b' ∧
          b'.isPredicateSlot slot = false := by
        intro b' hnil
        obtain ⟨f, hf, -⟩ := b'.markPredicateSlot_eq slot
        refine ⟨?_, ?_⟩
        · rw [hf, TableBuilder.mapRowBuf, hnil, Option.map_none, ← hnil]
        · rw [isPredicateSlot, hnil]
          rfl
      obtain ⟨hs, hstest⟩ := @hnone (b.vary dirty none events) rfl
      obtain ⟨hb, hbtest⟩ := hnone hbuf
      rw [hs, hb, hstest, hbtest]
      exact ⟨⟨dirty, none, events, rfl, hvaries⟩, rfl⟩
  | some buf' =>
      rw [hbuf] at hrel
      obtain ⟨buf, rfl⟩ : ∃ buf, rowBuf = some buf := by
        cases hrel
        exact ⟨_, rfl⟩
      obtain ⟨hrow⟩ := hrel
      have hmarks : (b.vary dirty (some buf) events).MarksFilter buf :=
        ⟨hrow.marks.names, hrow.marks.sound⟩
      obtain ⟨c, hs, hcmarks, hcsame, hcordinal, hctest⟩ := hmarks.markPredicateSlot
        ⟨hvaries.order.size, hvaries.order.indexed⟩ rfl slot
      obtain ⟨c', hb, hcmarks', hcsame', hcordinal', hctest'⟩ :=
        hrow.marks'.markPredicateSlot hvaries.order hbuf slot
      rw [hs, hb]
      refine ⟨⟨dirty, some c, events, rfl, ⟨hvaries.order.size, hvaries.order.indexed⟩,
        hvaries.plain, hvaries.frozen, hvaries.sameDirty, hvaries.room, hvaries.room', ?_⟩, ?_⟩
      · refine .some ⟨?_, ?_, ?_, ?_, ?_, ⟨hcmarks.names, hcmarks.sound⟩,
          ⟨hcmarks'.names, hcmarks'.sound⟩, ?_⟩
        · rw [hcsame.fields, hcsame'.fields, hrow.fields]
        · rw [hcsame.state, hcsame'.state, hrow.state]
        · rw [hcsame.direct, hcsame'.direct, hrow.direct]
        · rw [hcordinal, hcordinal', hrow.ordinal]
        · rw [hcsame.worthwhile, hcsame'.worthwhile, hrow.worthwhile]
        · rw [hcsame'.fields]
          exact hrow.held
      · show c.predicateMask.test slot = c'.predicateMask.test slot
        rw [Bool.eq_iff_iff, hctest, hctest']
        rfl

/-- The evaluation of the filter on the buffered fields, at a put and at the end of the row: the
fields are the same in both buffers. -/
theorem Similar.evaluatePredicateState (h : s.Similar b) :
    s.evaluatePredicateState = b.evaluatePredicateState ∧
      s.evaluateAgainstNull = b.evaluateAgainstNull := by
  obtain ⟨dirty, rowBuf, events, rfl, hvaries⟩ := h
  have hget : (b.vary dirty rowBuf events).getBufferedValue = b.getBufferedValue := by
    funext field
    have hrel := hvaries.rowBuf
    show (rowBuf.bind fun buf => _) = _
    rw [getBufferedValue]
    generalize b.rowBuf = rowBuf' at hrel ⊢
    cases hrel with
    | none => rfl
    | some hrow =>
        show (b.plan.resolveField field).bind _ = (b.plan.resolveField field).bind _
        rw [hrow.fields]
        rfl
  rw [TableBuilder.evaluatePredicateState, TableBuilder.evaluatePredicateState,
    evaluateAgainstNull, evaluateAgainstNull, hget]
  exact ⟨rfl, rfl⟩

/-- The evaluation after a put records the ordinal of the filter's slot, once, and a verdict that
reads the buffered fields only. -/
theorem Similar.evaluateRow (h : s.Similar b) (slot : Nat) :
    (s.evaluateRow slot).Similar (b.evaluateRow slot) := by
  have hlearned := h.mapRowBuf (f := fun buf =>
      { buf with predicateOrdinal := buf.predicateOrdinal.or (some slot) }) (g := fun buf =>
      { buf with predicateOrdinal := buf.predicateOrdinal.or (some slot) }) fun buf buf' hrow =>
    ⟨hrow.fields, hrow.state, hrow.direct, by rw [hrow.ordinal], hrow.worthwhile,
      ⟨hrow.marks.names, hrow.marks.sound⟩, ⟨hrow.marks'.names, hrow.marks'.sound⟩, hrow.held⟩
  have hstate := hlearned.evaluatePredicateState.1
  rw [TableBuilder.evaluateRow, TableBuilder.evaluateRow, hstate]
  exact hlearned.mapRowBuf fun buf buf' hrow =>
    ⟨hrow.fields, rfl, hrow.direct, hrow.ordinal, hrow.worthwhile,
      ⟨hrow.marks.names, hrow.marks.sound⟩, ⟨hrow.marks'.names, hrow.marks'.sound⟩, hrow.held⟩

/-- Keeping a value in the row buffer: both builders find the same slot, and both mark it if the
filter reads it. -/
theorem Similar.stageField (h : s.Similar b) (name : String) (value : Value) :
    (s.stageField name value).1.Similar (b.stageField name value).1 ∧
      (s.stageField name value).2 = (b.stageField name value).2 ∧
      (s.stageField name value).1.isPredicateSlot (s.stageField name value).2 =
        (b.stageField name value).1.isPredicateSlot (b.stageField name value).2 := by
  obtain ⟨hensure, hslot, hlt⟩ := h.ensureColumnIdx name
  rw [TableBuilder.stageField, TableBuilder.stageField]
  dsimp only
  rw [hslot]
  obtain ⟨hmarked, htest⟩ := (hensure.recordStrictViolationAt (b.ensureColumnIdx name).2
    value).markPredicateSlot (b.ensureColumnIdx name).2
  have hcolumns : ((((b.ensureColumnIdx name).1.recordStrictViolationAt (b.ensureColumnIdx name).2
      value).markPredicateSlot (b.ensureColumnIdx name).2)).columns =
      (b.ensureColumnIdx name).1.columns := by
    obtain ⟨f, hf, -⟩ := markPredicateSlot_eq ((b.ensureColumnIdx name).1.recordStrictViolationAt
      (b.ensureColumnIdx name).2 value) (b.ensureColumnIdx name).2
    rw [hf]
    rfl
  -- buffering the value does not touch the mask
  have hmask : ∀ (b' : TableBuilder) (fields : RowBuffer → List (Nat × Value)) slot,
      (b'.mapRowBuf fun buf => { buf with fields := fields buf }).isPredicateSlot slot =
        b'.isPredicateSlot slot := by
    intro b' fields slot
    show Option.any _ (b'.rowBuf.map _) = _
    rw [Option.any_map]
    rfl
  refine ⟨hmarked.mapRowBuf fun buf buf' hrow => ⟨?_, hrow.state, hrow.direct, hrow.ordinal,
    hrow.worthwhile, ⟨hrow.marks.names, hrow.marks.sound⟩,
    ⟨hrow.marks'.names, hrow.marks'.sound⟩, fun p hp => ?_⟩, rfl, ?_⟩
  · show Assoc.put buf.fields _ _ = Assoc.put buf'.fields _ _
    rw [hrow.fields]
  · rcases Assoc.mem_put hp with rfl | hp
    · rw [hcolumns]
      exact hlt
    · exact hrow.held p hp
  · rw [hmask, hmask]
    exact htest

/-- Buffering a field stages it and then evaluates the row, and both steps keep the builders
similar. -/
theorem Similar.bufferField (h : s.Similar b) (name : String) (value : Value) :
    (s.bufferField name value).Similar (b.bufferField name value) := by
  obtain ⟨hstage, hslot, htest⟩ := h.stageField name value
  rw [TableBuilder.bufferField, TableBuilder.bufferField]
  dsimp only
  rw [htest, hslot]
  split
  · exact hstage.evaluateRow _
  · exact hstage

/-! ## Drains and rows -/

/-- Draining writes the held fields to their slots, which lie within the columns of both
builders. -/
theorem Similar.drainFields (h : s.Similar b) (seen : WordSet 64) {fields : List (Nat × Value)}
    (hheld : ∀ p ∈ fields, p.1 < b.columns.length) :
    (s.drainFields seen fields).Similar (b.drainFields seen fields) := by
  induction fields generalizing s b seen with
  | nil => exact h
  | cons p fields ih =>
      obtain ⟨hp, hrest⟩ := List.forall_mem_cons.mp hheld
      rw [TableBuilder.drainFields, TableBuilder.drainFields]
      split
      · exact ih h seen hrest
      · refine ih ((h.writeSlot hp p.2).notifyPutField p.1 p.2) _ fun q hq => ?_
        show q.1 < (b.columns.modify p.1 _).length
        rw [List.length_modify]
        exact hrest q hq

/-- Writing the buffered values to the columns, with the dirty bits grown for them first. -/
theorem Similar.withDrained (h : s.Similar b) {fields : List (Nat × Value)}
    (hheld : ∀ p ∈ fields, p.1 < b.columns.length) :
    (s.withDrained fields).Similar (b.withDrained fields) := by
  have hgrow : s.growDirty.Similar b.growDirty := by
    obtain ⟨dirty, rowBuf, events, rfl, hvaries⟩ := h
    refine ⟨dirty.growFor b.columns.length, rowBuf, events, rfl,
      ⟨hvaries.order.size, hvaries.order.indexed⟩, hvaries.plain, hvaries.frozen, fun i => ?_,
      WordSet.capacity_growFor (by decide) _ _, WordSet.capacity_growFor (by decide) _ _, ?_⟩
    · show (dirty.growFor _).test i = (b.rowDirty.growFor _).test i
      rw [WordSet.test_growFor, WordSet.test_growFor, hvaries.sameDirty]
    · exact rel_sameRow_mono hvaries.rowBuf rfl (List.prefix_refl _) le_rfl
  have hlength : s.columns.length = b.columns.length := by
    obtain ⟨dirty, rowBuf, events, rfl, -⟩ := h
    rfl
  rw [TableBuilder.withDrained, TableBuilder.withDrained, hlength]
  exact hgrow.drainFields _ fun p hp => hheld p (List.mem_reverse.mp hp)

/-- Clearing the buffer drops the fields of the row and keeps what was learnt of the filter. -/
theorem Similar.clearBuffered (h : s.Similar b) : s.clearBuffered.Similar b.clearBuffered :=
  h.mapRowBuf fun _ _ hrow => ⟨rfl, rfl, hrow.direct, hrow.ordinal, hrow.worthwhile,
    ⟨hrow.marks.names, hrow.marks.sound⟩, ⟨hrow.marks'.names, hrow.marks'.sound⟩,
    fun _ hp => (List.not_mem_nil hp).elim⟩

/-- The row buffers of similar builders. -/
theorem Similar.rowBuf_some (h : s.Similar b) {buf' : RowBuffer} (hbuf : b.rowBuf = some buf') :
    ∃ buf, s.rowBuf = some buf ∧ b.SameRow buf buf' := by
  obtain ⟨dirty, rowBuf, events, rfl, hvaries⟩ := h
  have hrel := hvaries.rowBuf
  rw [hbuf] at hrel
  show ∃ buf, rowBuf = some buf ∧ _
  cases hrel with
  | some hrow => exact ⟨_, rfl, hrow⟩

/-- A builder without a row buffer is similar only to builders without one. -/
theorem Similar.rowBuf_none (h : s.Similar b) (hbuf : b.rowBuf = none) : s.rowBuf = none := by
  obtain ⟨dirty, rowBuf, events, rfl, hvaries⟩ := h
  have hrel := hvaries.rowBuf
  rw [hbuf] at hrel
  show rowBuf = none
  cases hrel
  rfl

/-- The drain at the end of a row, for either verdict: it writes or drops the held fields, clears
the buffer, and counts the row if it passes. -/
theorem Similar.drainBuffered (h : s.Similar b) (pass : Bool) :
    (s.drainBuffered pass).Similar (b.drainBuffered pass) := by
  cases hbuf : b.rowBuf with
  | none =>
      rw [TableBuilder.drainBuffered, TableBuilder.drainBuffered, hbuf, h.rowBuf_none hbuf]
      exact h
  | some buf' =>
      obtain ⟨buf, hbuf', hrow⟩ := h.rowBuf_some hbuf
      cases pass with
      | true =>
          have hdrained := h.withDrained hrow.held
          rw [drainBuffered_true _ hbuf, drainBuffered_true _ hbuf', hrow.fields, hrow.direct]
          split
          · exact hdrained.acceptRow.clearBuffered
          · exact hdrained.nullFill.acceptRow.clearBuffered
      | false =>
          have hclear : ({ s with rowDirty := s.rowDirty.clear } : TableBuilder).Similar
              { b with rowDirty := b.rowDirty.clear } := by
            obtain ⟨dirty, rowBuf, events, rfl, hvaries⟩ := h
            refine ⟨dirty.clear, rowBuf, events, rfl,
              ⟨hvaries.order.size, hvaries.order.indexed⟩, hvaries.plain, hvaries.frozen,
              fun i => ?_, ?_, ?_, ?_⟩
            · rw [WordSet.test_clear, WordSet.test_clear]
            · rw [WordSet.capacity_clear]
              exact hvaries.room
            · rw [WordSet.capacity_clear]
              exact hvaries.room'
            · exact rel_sameRow_mono hvaries.rowBuf rfl (List.prefix_refl _) le_rfl
          rw [drainBuffered_false _ hbuf, drainBuffered_false _ hbuf']
          exact hclear.rejectRow.clearBuffered

/-- The drain in the middle of a row leaves the builder in direct mode, in both builders. -/
theorem Similar.drainMidRow (h : s.Similar b) : s.drainMidRow.Similar b.drainMidRow := by
  refine Similar.drainBuffered (h.mapRowBuf fun buf buf' hrow => ?_) true
  exact ⟨hrow.fields, hrow.state, rfl, hrow.ordinal, hrow.worthwhile,
    ⟨hrow.marks.names, hrow.marks.sound⟩, ⟨hrow.marks'.names, hrow.marks'.sound⟩, hrow.held⟩

/-- `finish_row` null-fills the columns, checks the filter on them and accepts or rejects the row.
The dirty bits are the same set in both builders, so it fills the same cells. -/
theorem Similar.finishRow (h : s.Similar b) : s.finishRow.Similar b.finishRow := by
  have hfill := h.nullFill
  have hcheck : ∀ filter : FilterPredicate,
      filter.check s.nullFill.columns s.nullFill.fieldIndex s.nullFill.rowCount s.nullFill.plan =
        filter.check b.nullFill.columns b.nullFill.fieldIndex b.nullFill.rowCount
          b.nullFill.plan := by
    obtain ⟨dirty, rowBuf, events, heq, -⟩ := hfill
    intro filter
    rw [heq]
    rfl
  have hplan : s.nullFill.plan = b.nullFill.plan := hfill.modes.2.2.2.1
  rw [TableBuilder.finishRow, TableBuilder.finishRow, hplan]
  cases hfilter : b.nullFill.plan.filter with
  | none => exact hfill.acceptRow
  | some filter =>
      have hsame := hcheck filter
      rw [hplan] at hsame
      dsimp only
      rw [hsame]
      split
      · exact hfill.acceptRow
      · exact hfill.popRow.rejectRow

/-- The end of the row is of the same kind in both builders, and each kind keeps them similar. -/
theorem Similar.endRow (h : s.Similar b) : s.endRow.Similar b.endRow := by
  obtain ⟨hbuffering, -, -, -, -, -⟩ := h.modes
  rw [TableBuilder.endRow, TableBuilder.endRow, hbuffering]
  split
  · exact h.finishRow
  · cases hbuf : b.rowBuf with
    | none =>
        rw [h.rowBuf_none hbuf]
        exact h.drainBuffered true
    | some buf' =>
        obtain ⟨buf, hbuf', hrow⟩ := h.rowBuf_some hbuf
        rw [hbuf']
        dsimp only
        rw [hrow.direct, hrow.state, h.evaluatePredicateState.2]
        split
        · exact h.nullFill
        · exact h.drainBuffered _

/-- **A put keeps builders similar.** The entry points share three paths: to the columns, to the row
buffer, and to the row buffer with a drain when the filter passes; each is a sequence of steps that
keep similarity. -/
theorem Similar.put (h : s.Similar b) (p : Put) : (s.put p).Similar (b.put p) := by
  obtain ⟨hbuffering, hdirect, -, hplan, hfrozen, hfrozen'⟩ := h.modes
  cases hbuf : b.buffering with
  | false =>
      rw [put_of_not_buffering hbuf, put_of_not_buffering (hbuffering.trans hbuf), hplan]
      cases p.target b.plan with
      | none => exact h
      | some name => exact h.pushFieldResolved name p.value
  | true =>
      have hbuf' := hbuffering.trans hbuf
      cases htarget : p.target b.plan with
      | none =>
          rw [put_of_dropped htarget, put_of_dropped (hplan ▸ htarget)]
          exact h
      | some name =>
          have htarget' : p.target s.plan = some name := hplan ▸ htarget
          cases p with
          | field raw value =>
              rw [put_field_of_buffering hfrozen hbuf' htarget',
                put_field_of_buffering hfrozen' hbuf htarget]
              exact h.bufferField name value
          | fieldResolved resolved value =>
              rw [put_fieldResolved_of_buffering hfrozen hbuf',
                put_fieldResolved_of_buffering hfrozen' hbuf]
              exact h.bufferField resolved value
          | resolveAndPut raw value =>
              have hdirect' : s.rowBuf.any (·.direct) = b.rowBuf.any (·.direct) :=
                Bool.eq_iff_iff.mpr hdirect
              -- both stage the value in the same slot and evaluate the filter or not alike
              obtain ⟨hstage, hslot, htest⟩ := h.stageField name value
              have heval := hstage.evaluateRow (b.stageField name value).2
              rw [put_resolveAndPut_of_buffering hfrozen hbuf' htarget',
                put_resolveAndPut_of_buffering hfrozen' hbuf htarget, hdirect']
              dsimp only
              rw [htest, hslot, heval.modes.2.2.2.1, heval.evaluatePredicateState.1]
              split
              · exact h.pushFieldResolved name value
              · split
                · split
                  · exact heval.drainMidRow
                  · exact heval
                · exact hstage

/-- The begin of a row decides the mode of the row from what the two buffers agree on. -/
theorem Similar.beginRow (h : s.Similar b) : s.beginRow.Similar b.beginRow := by
  obtain ⟨dirty, rowBuf, events, rfl, hvaries⟩ := h
  refine ⟨dirty, _, _, rfl, ⟨hvaries.order.size, hvaries.order.indexed⟩, hvaries.plain,
    hvaries.frozen, hvaries.sameDirty, hvaries.room, hvaries.room', ?_⟩
  show Option.Rel _ (rowBuf.map _) (b.rowBuf.map _)
  have hrel := hvaries.rowBuf
  generalize b.rowBuf = rowBuf' at hrel
  cases hrel with
  | none => exact .none
  | some hrow =>
      refine .some ⟨rfl, rfl, rfl, hrow.ordinal, ?_, ⟨hrow.marks.names, hrow.marks.sound⟩,
        ⟨hrow.marks'.names, hrow.marks'.sound⟩, fun _ hp => (List.not_mem_nil hp).elim⟩
      dsimp only
      rw [hrow.worthwhile, hrow.ordinal]
      rfl

/-- A value put to a slot is refused by both builders or written by both. -/
theorem Similar.putFieldAt (h : s.Similar b) (slot : Nat) (value : Value) :
    (s.putFieldAt slot value).Similar (b.putFieldAt slot value) := by
  have hlength : s.columns.length = b.columns.length := by
    obtain ⟨dirty, rowBuf, events, rfl, -⟩ := h
    rfl
  rw [TableBuilder.putFieldAt, TableBuilder.putFieldAt, hlength]
  split
  · exact h
  · next hlt =>
    have hchecked := (h.recordStrictViolationAt slot value).notifyPutField slot value
    exact hchecked.writeSlot (Nat.lt_of_not_le hlt) value

/-- A write of a row, by name or by slot, keeps two builders similar. -/
theorem Similar.write (h : s.Similar b) (w : Write) : (s.write w).Similar (b.write w) := by
  cases w with
  | named p => exact h.put p
  | toSlot slot value => exact h.putFieldAt slot value
  | strToSlot slot value =>
      show (s.putStrAt slot value).Similar (b.putStrAt slot value)
      rw [putStrAt_eq, putStrAt_eq]
      exact h.putFieldAt slot (.str value)

/-- So do all writes of a row, by induction on them. -/
theorem Similar.writeAll (h : s.Similar b) (ws : List Write) :
    (s.writeAll ws).Similar (b.writeAll ws) := by
  induction ws generalizing s b with
  | nil => exact h
  | cons w ws ih => exact ih (h.write w)

/-- **Rows keep builders similar.** -/
theorem Similar.writeRows (h : s.Similar b) (rows : List (List Write)) :
    (s.writeRows rows).Similar (b.writeRows rows) := by
  induction rows generalizing s b with
  | nil => exact h
  | cons ws rows ih => exact ih (h.beginRow.writeAll ws).endRow

end Steps

/-! ## Answers -/

/-- The builders give the same answers: the rows and cells, the columns, the errors and the expected
slots. -/
structure SameAnswers (s b : TableBuilder) : Prop where
  finish : s.finish = b.finish
  columns : s.columns = b.columns
  columnOrder : s.columnOrder = b.columnOrder
  rowCount : s.rowCount = b.rowCount
  outcomes : s.rowsAccepted = b.rowsAccepted ∧ s.rowsRejected = b.rowsRejected
  errors : s.unknownError = b.unknownError ∧ s.strictError = b.strictError
  expects : ∀ ordinal, s.expectSlot ordinal = b.expectSlot ordinal

/-- Similar builders give the same answers to every later run: the rows keep them similar, and
`finish` exports only what similar builders share. -/
theorem Similar.sameAnswers {s b : TableBuilder} (h : s.Similar b) : s.SameAnswers b := by
  obtain ⟨dirty, rowBuf, events, rfl, -⟩ := h
  refine ⟨finish_congr ⟨alikeColumns_refl _, rfl, rfl, rfl, rfl⟩ rfl rfl, rfl, rfl, rfl, ⟨rfl, rfl⟩,
    ⟨rfl, rfl⟩, fun _ => rfl⟩

/-! ## Histories -/

section Histories

variable {b b' : TableBuilder}

/-- What every call keeps of the state that `reset` leaves: a row buffer comes with a filter, knows
the filter's names or none, and a slot is expected as soon as one was recorded. -/
structure Accrues (b : TableBuilder) : Prop where
  buffer : b.rowBuf.isSome = b.plan.filter.isSome
  names : ∀ buf, b.rowBuf = some buf → buf.predNames = [] ∨ buf.predNames = filterNames b.plan
  expects : b.ordinalExpect ≠ [] → ∃ ordinal, b.expectSlot ordinal ≠ none
  wanted : b.plan.schemaOrder = [] → b.cachedWantedMask = 0

/-- The invariant speaks of the row buffer, the plan, the expected slots and the wanted mask
only. -/
theorem Accrues.congr (h : b.Accrues) (hbuf : b'.rowBuf = b.rowBuf) (hplan : b'.plan = b.plan)
    (hexpect : b'.ordinalExpect = b.ordinalExpect)
    (hwanted : b'.cachedWantedMask = b.cachedWantedMask) : b'.Accrues := by
  refine ⟨?_, ?_, ?_, ?_⟩
  · rw [hbuf, hplan]
    exact h.buffer
  · rw [hbuf, hplan]
    exact h.names
  · simp only [expectSlot, hexpect]
    exact h.expects
  · rw [hplan, hwanted]
    exact h.wanted

/-- A change of the row buffer that keeps its names, or fills them with the filter's, keeps the
invariant. -/
theorem Accrues.mapRowBuf (h : b.Accrues) {f : RowBuffer → RowBuffer}
    (hnames : ∀ buf, (f buf).predNames = buf.predNames ∨ (f buf).predNames = filterNames b.plan) :
    (b.mapRowBuf f).Accrues := by
  refine ⟨Option.isSome_map.trans h.buffer, fun buf hbuf => ?_, h.expects, h.wanted⟩
  obtain ⟨buf', hbuf', rfl⟩ := Option.map_eq_some_iff.mp hbuf
  rcases hnames buf' with heq | heq
  · rw [heq]
    exact h.names buf' hbuf'
  · exact .inr heq

/-- An event is none of the learnt state. -/
theorem Accrues.notify (h : b.Accrues) (e : Event) : (b.notify e).Accrues := h.congr rfl rfl rfl rfl

/-- The null-fill of a row touches columns and dirty bits only. -/
theorem Accrues.nullFill (h : b.Accrues) : b.nullFill.Accrues := by
  rw [TableBuilder.nullFill]
  split
  · exact h.congr rfl rfl rfl rfl
  · exact h.congr rfl rfl rfl rfl

/-- The end of a row that went to the columns keeps the invariant, whether the row is accepted or
rejected. -/
theorem Accrues.finishRow (h : b.Accrues) : b.finishRow.Accrues := by
  have hfill := h.nullFill
  rw [TableBuilder.finishRow]
  split
  · split
    · exact hfill.congr rfl rfl rfl rfl
    · exact hfill.congr rfl rfl rfl rfl
  · exact hfill.congr rfl rfl rfl rfl

/-- Draining the buffered fields writes to columns and records no slot. -/
theorem Accrues.drainFields (h : b.Accrues) (seen : WordSet 64) (fields : List (Nat × Value)) :
    (b.drainFields seen fields).Accrues := by
  induction fields generalizing b seen with
  | nil => exact h
  | cons p fields ih =>
      rw [TableBuilder.drainFields]
      split
      · exact ih h seen
      · have hstep : ((b.writeSlot p.1 p.2).notifyPutField p.1 p.2).Accrues :=
          h.congr rfl rfl rfl rfl
        exact ih hstep _

/-- The drain at the end of the row clears the fields of the buffer and keeps its names. -/
theorem Accrues.drainBuffered (h : b.Accrues) (pass : Bool) : (b.drainBuffered pass).Accrues := by
  have hclear : ∀ {b' : TableBuilder}, b'.Accrues → b'.clearBuffered.Accrues :=
    fun h' => h'.mapRowBuf fun _ => .inl rfl
  cases hbuf : b.rowBuf with
  | none =>
      rw [TableBuilder.drainBuffered, hbuf]
      exact h
  | some buf =>
      cases pass with
      | true =>
          have hgrow : b.growDirty.Accrues := h.congr rfl rfl rfl rfl
          have hdrained : (b.withDrained buf.fields).Accrues := hgrow.drainFields _ _
          have haccept : ∀ {b' : TableBuilder}, b'.Accrues → b'.acceptRow.Accrues :=
            fun h' => h'.congr rfl rfl rfl rfl
          rw [drainBuffered_true _ hbuf]
          split
          · exact hclear (haccept hdrained)
          · exact hclear (haccept hdrained.nullFill)
      | false =>
          have hreject : ({ b with rowDirty := b.rowDirty.clear } : TableBuilder).rejectRow.Accrues :=
            h.congr rfl rfl rfl rfl
          rw [drainBuffered_false _ hbuf]
          exact hclear hreject

/-- The drain in the middle of the row does so too, and sets the buffer to direct mode. -/
theorem Accrues.drainMidRow (h : b.Accrues) : b.drainMidRow.Accrues := by
  have hdirect : (b.mapRowBuf fun buf => { buf with direct := true }).Accrues :=
    h.mapRowBuf fun _ => .inl rfl
  exact hdirect.drainBuffered true

/-- `end_row` keeps the invariant in each of its modes: no buffer, direct mode, and a buffered row
with either verdict. -/
theorem Accrues.endRow (h : b.Accrues) : b.endRow.Accrues := by
  rw [TableBuilder.endRow]
  split
  · exact h.finishRow
  · split
    · exact h.drainBuffered true
    · split
      · exact h.nullFill
      · exact h.drainBuffered _

/-- `begin_row` chooses the mode of the next row from `buffer_worthwhile` and learns nothing. -/
theorem Accrues.beginRow (h : b.Accrues) : b.beginRow.Accrues := by
  refine ⟨Option.isSome_map.trans h.buffer, fun buf hbuf => ?_, h.expects, h.wanted⟩
  obtain ⟨buf', hbuf', rfl⟩ := Option.map_eq_some_iff.mp hbuf
  exact h.names buf' hbuf'

/-- A new column changes neither the row buffer, nor the expected slots, nor the wanted mask. -/
theorem Accrues.ensureColumnIdx (h : b.Accrues) (name : String) :
    (b.ensureColumnIdx name).1.Accrues := by
  rw [TableBuilder.ensureColumnIdx]
  split
  · exact h
  · split
    · exact h.congr rfl rfl rfl rfl
    · exact h.congr rfl rfl rfl rfl

/-- A value that is pushed may teach the builder its slot, and then that slot is expected at its
ordinal. -/
theorem Accrues.pushFieldResolved (h : b.Accrues) (name : String) (value : Value) :
    (b.pushFieldResolved name value).Accrues := by
  rw [TableBuilder.pushFieldResolved]
  split
  · exact h.congr rfl rfl rfl rfl
  · have hensure := h.ensureColumnIdx name
    dsimp only
    generalize b.ensureColumnIdx name = ensured at hensure ⊢
    have hchecked : ((ensured.1.recordStrictViolationAt ensured.2 value).notifyPutField ensured.2
        value).Accrues := hensure.congr rfl rfl rfl rfl
    generalize (ensured.1.recordStrictViolationAt ensured.2 value).notifyPutField ensured.2
      value = b₁ at hchecked ⊢
    refine ⟨hchecked.buffer, hchecked.names, fun hne => ?_, hchecked.wanted⟩
    show ∃ ordinal, (b₁.recordOrdinal ensured.2 name).expectSlot ordinal ≠ none
    by_cases hzero : b₁.rowCount = 0
    · refine ⟨b₁.currentOrdinal, ?_⟩
      rw [expectSlot_recordOrdinal, if_pos ⟨hzero, rfl⟩]
      exact Option.some_ne_none _
    · have hkept : (b₁.recordOrdinal ensured.2 name).ordinalExpect = b₁.ordinalExpect := if_neg hzero
      obtain ⟨ordinal, hordinal⟩ := hchecked.expects (hkept ▸ hne)
      refine ⟨ordinal, ?_⟩
      rw [expectSlot_recordOrdinal, if_neg fun hand => hzero hand.1]
      exact hordinal

/-- Marking a column of the filter collects the filter's names the first time, and so leaves them
empty or complete. -/
theorem Accrues.markPredicateSlot (h : b.Accrues) (slot : Nat) :
    (b.markPredicateSlot slot).Accrues := by
  have hbuild : b.buildPredicateMask.Accrues := h.mapRowBuf fun buf => by
    split
    · exact .inl rfl
    · exact .inr rfl
  rw [TableBuilder.markPredicateSlot]
  split
  · exact h
  · have hbuilt : (if b.rowBuf.any fun buf => !buf.predicateMask.test slot && buf.predNames.isEmpty
        then b.buildPredicateMask else b).Accrues := by
      split
      · exact hbuild
      · exact h
    dsimp only
    generalize (if b.rowBuf.any fun buf => !buf.predicateMask.test slot && buf.predNames.isEmpty
      then b.buildPredicateMask else b) = b₁ at hbuilt ⊢
    split
    · exact hbuilt
    · split
      · refine hbuilt.mapRowBuf fun buf => ?_
        split
        · exact .inl rfl
        · exact .inl rfl
      · exact hbuilt

/-- Staging a field is `ensure_column_idx`, the strict check and a change of the buffered fields. -/
theorem Accrues.stageField (h : b.Accrues) (name : String) (value : Value) :
    (b.stageField name value).1.Accrues := by
  have hchecked : ((b.ensureColumnIdx name).1.recordStrictViolationAt (b.ensureColumnIdx name).2
      value).Accrues := (h.ensureColumnIdx name).congr rfl rfl rfl rfl
  exact (hchecked.markPredicateSlot _).mapRowBuf fun _ => .inl rfl

/-- An evaluation sets the verdict of the row buffer, and the ordinal of the filter's slot the first
time. -/
theorem Accrues.evaluateRow (h : b.Accrues) (slot : Nat) : (b.evaluateRow slot).Accrues := by
  have hlearned := h.mapRowBuf (f := fun buf =>
    { buf with predicateOrdinal := buf.predicateOrdinal.or (some slot) }) fun _ => .inl rfl
  exact hlearned.mapRowBuf fun _ => .inl rfl

/-- A buffered put stages its field and evaluates the row. -/
theorem Accrues.bufferField (h : b.Accrues) (name : String) (value : Value) :
    (b.bufferField name value).Accrues := by
  rw [TableBuilder.bufferField]
  dsimp only
  split
  · exact (h.stageField name value).evaluateRow _
  · exact h.stageField name value

/-- Every put of the row interface keeps the invariant, in the mode the row is in. -/
theorem Accrues.put (h : b.Accrues) (hfrozen : b.frozen = none) (p : Put) : (b.put p).Accrues := by
  cases hbuf : b.buffering with
  | false =>
      rw [put_of_not_buffering hbuf]
      split
      · exact h.pushFieldResolved _ p.value
      · exact h
  | true =>
      cases htarget : p.target b.plan with
      | none =>
          rw [put_of_dropped htarget]
          exact h
      | some name =>
          cases p with
          | field raw value =>
              rw [put_field_of_buffering hfrozen hbuf htarget]
              exact h.bufferField name value
          | fieldResolved resolved value =>
              rw [put_fieldResolved_of_buffering hfrozen hbuf]
              exact h.bufferField resolved value
          | resolveAndPut raw value =>
              have hstage := h.stageField name value
              rw [put_resolveAndPut_of_buffering hfrozen hbuf htarget]
              split
              · exact h.pushFieldResolved name value
              · dsimp only
                split
                · split
                  · exact (hstage.evaluateRow _).drainMidRow
                  · exact hstage.evaluateRow _
                · exact hstage

/-- The put by slot keeps it too, although it goes past the row buffer. -/
theorem Accrues.putFieldAt (h : b.Accrues) (slot : Nat) (value : Value) :
    (b.putFieldAt slot value).Accrues := by
  rw [TableBuilder.putFieldAt]
  split
  · exact h
  · exact h.congr rfl rfl rfl rfl

/-- Every call of the row interface keeps the invariant, on a builder without a layout. -/
theorem Accrues.call (h : b.Accrues) (hfrozen : b.frozen = none) (c : Call) : (b.call c).Accrues := by
  cases c with
  | beginRow => exact h.beginRow
  | put p => exact h.put hfrozen p
  | putFieldAt slot value => exact h.putFieldAt slot value
  | putStrAt slot value =>
      show (b.putStrAt slot value).Accrues
      rw [putStrAt_eq]
      exact h.putFieldAt slot (.str value)
  | endRow => exact h.endRow

/-- Every state of a run keeps it, by induction on the calls from the builder that `with_plan`
makes. -/
theorem accrues_callAll (plan : ExecutionPlan) (calls : List Call) :
    ((withPlan plan).callAll calls).Accrues := by
  induction calls using List.reverseRecOn with
  | nil =>
      obtain ⟨columns, fieldIndex, columnOrder, rowDirty, mask, h⟩ := withPlan_eq plan
      have hmask : (withPlan plan).plan.schemaOrder = [] → (withPlan plan).cachedWantedMask = 0 := by
        intro hnil
        rw [(withPlan_frame plan).1] at hnil
        rw [withPlan]
        simp [computeWantedMask, predeclareSchemaColumns, hnil]
      refine ⟨?_, ?_, ?_, hmask⟩
      · show (withPlan plan).rowBuf.isSome = (withPlan plan).plan.filter.isSome
        rw [h]
        exact Option.isSome_map
      · show ∀ buf, (withPlan plan).rowBuf = some buf → _
        rw [h]
        intro buf hbuf
        obtain ⟨_, -, rfl⟩ := Option.map_eq_some_iff.mp hbuf
        exact .inl rfl
      · show (withPlan plan).ordinalExpect ≠ [] → _
        rw [h]
        exact fun hne => absurd rfl hne
  | append_singleton calls c ih =>
      obtain ⟨-, -, hfrozen, -⟩ := declared_callAll_withPlan plan calls
      rw [callAll_append_singleton]
      exact ih.call hfrozen c

end Histories

/-! ## A reset builder and a new one -/

/-- The reset builder, with what the begin of a row resets. -/
def cleared (b : TableBuilder) : TableBuilder :=
  { b.reset with
    currentOrdinal := 0
    rowBuf := b.reset.rowBuf.map fun buf => { buf with direct := false } }

/-- Nothing that `reset` drops or keeps tells the builder from a new one: it declared no column, was
given no layout, expects no slot, and its row buffer has met no column of the filter. -/
structure Unlearned (plan : ExecutionPlan) (layout : Option FrozenSchema) (b : TableBuilder) :
    Prop where
  projection : plan.schemaOrder = []
  unfrozen : layout = none
  expects : ∀ ordinal, b.expectSlot ordinal = none
  unmarked : ∀ buf, b.rowBuf = some buf → (∀ slot, buf.predicateMask.test slot = false) ∧
    buf.predicateOrdinal = none ∧ buf.bufferWorthwhile = true

/-- `begin_row` after `reset` sees no difference to a builder whose `current_ordinal` and direct
flag are cleared as well. -/
theorem beginRow_reset (b : TableBuilder) : b.reset.beginRow = b.cleared.beginRow := by
  rw [beginRow, beginRow, cleared, notify, notify]
  simp only [Option.map_map]
  rfl

/-- So do whole rows after `reset`: once a row has been written the two builders are equal, and
before the next `begin_row` nothing tells them apart. -/
theorem writeRows_reset (b : TableBuilder) (rows : List (List Write)) :
    (b.reset.writeRows rows).beginRow = (b.cleared.writeRows rows).beginRow ∧
      (rows ≠ [] → b.reset.writeRows rows = b.cleared.writeRows rows) := by
  cases rows with
  | nil => exact ⟨b.beginRow_reset, fun hne => absurd rfl hne⟩
  | cons ws rows =>
      have hrow : b.reset.writeRow ws = b.cleared.writeRow ws := by
        rw [writeRow, writeRow, beginRow_reset]
      have hrows : b.reset.writeRows (ws :: rows) = b.cleared.writeRows (ws :: rows) := by
        show (b.reset.writeRow ws).writeRows rows = (b.cleared.writeRow ws).writeRows rows
        rw [hrow]
      exact ⟨congrArg beginRow hrows, fun _ => hrows⟩

/-- Giving the same answers to every later run is transitive. -/
theorem SameAnswers.trans {b b' b'' : TableBuilder} (h : b.SameAnswers b')
    (h' : b'.SameAnswers b'') : b.SameAnswers b'' :=
  ⟨h.finish.trans h'.finish, h.columns.trans h'.columns, h.columnOrder.trans h'.columnOrder,
    h.rowCount.trans h'.rowCount,
    ⟨h.outcomes.1.trans h'.outcomes.1, h.outcomes.2.trans h'.outcomes.2⟩,
    ⟨h.errors.1.trans h'.errors.1, h.errors.2.trans h'.errors.2⟩,
    fun ordinal => (h.expects ordinal).trans (h'.expects ordinal)⟩

/-- What the begin of a row resets changes no answer. -/
theorem sameAnswers_cleared (b : TableBuilder) : b.reset.SameAnswers b.cleared :=
  ⟨finish_congr ⟨alikeColumns_refl _, rfl, rfl, rfl, rfl⟩ rfl rfl, rfl, rfl, rfl, ⟨rfl, rfl⟩,
    ⟨rfl, rfl⟩, fun _ => rfl⟩

/-- Without a projection a new builder has no column. -/
theorem withPlan_of_plain {plan : ExecutionPlan} (h : plan.schemaOrder = []) :
    withPlan plan = { plan, rowBuf := plan.filter.map fun _ => {} } := by
  rw [withPlan]
  simp [computeWantedMask, predeclareSchemaColumns, h]

/-- A reset builder that has learned nothing is similar to a new one. -/
theorem similar_cleared {plan : ExecutionPlan} {history : List Call}
    (h : Unlearned plan none ((withPlan plan).callAll history)) :
    ((withPlan plan).callAll history).cleared.Similar (withPlan plan) := by
  have haccrues := accrues_callAll plan history
  obtain ⟨-, hplan, hfrozen, -⟩ := declared_callAll_withPlan plan history
  generalize (withPlan plan).callAll history = b at h haccrues hplan hfrozen ⊢
  -- without a projection nothing is learnt but the expectations, which the history has not
  have hwanted : b.cachedWantedMask = 0 := haccrues.wanted (hplan ▸ h.projection)
  have hexpects : b.ordinalExpect = [] := by
    by_contra hne
    obtain ⟨ordinal, hordinal⟩ := haccrues.expects hne
    exact hordinal (h.expects ordinal)
  rw [withPlan_of_plain h.projection]
  refine ⟨b.rowDirty.clear, b.cleared.rowBuf, b.events, ?_, ⟨rfl, fun name i => ?_⟩, h.projection, rfl,
    fun i => ?_, Nat.zero_le _, Nat.zero_le _, ?_⟩
  · simp only [cleared, reset, vary, hplan, hfrozen, hwanted, hexpects]
  · simp
  · exact (WordSet.test_clear _ i).trans (WordSet.test_empty i).symm
  · have hbuffer := haccrues.buffer
    rw [hplan] at hbuffer
    show Option.Rel _ ((b.rowBuf.map _).map _) (plan.filter.map _)
    cases hbuf : b.rowBuf with
    | none =>
        rw [hbuf] at hbuffer
        have hfilter : plan.filter = none :=
          Option.isNone_iff_eq_none.mp (Option.isSome_eq_false_iff.mp hbuffer.symm)
        rw [hfilter]
        exact .none
    | some buf =>
        rw [hbuf] at hbuffer
        obtain ⟨filter, hfilter⟩ := Option.isSome_iff_exists.mp hbuffer.symm
        -- a row buffer that has collected its names has the same ones as a new one would collect
        obtain ⟨hmask, hordinal, hworth⟩ := h.unmarked buf hbuf
        rw [hfilter]
        refine .some ⟨rfl, rfl, rfl, hordinal, hworth, ⟨?_, fun slot htest => ?_⟩,
          ⟨.inl rfl, fun slot htest => ?_⟩, fun _ hp => (List.not_mem_nil hp).elim⟩
        · exact hplan ▸ haccrues.names buf hbuf
        · cases (hmask slot).symm.trans htest
        · cases (WordSet.test_empty slot).symm.trans htest

/-- A builder to start with expects no slot. -/
theorem expectSlot_start (plan : ExecutionPlan) (layout : Option FrozenSchema) (ordinal : Nat) :
    (start plan layout).expectSlot ordinal = none := by
  cases layout with
  | none => exact (ordinals_withPlan plan).1 ordinal
  | some schema =>
      obtain ⟨columns, fieldIndex, columnOrder, h⟩ :=
        (withPlan plan).declareColumns_eq schema.columns
      rw [start, ensureSchema, h]
      exact (ordinals_withPlan plan).1 ordinal

/-- **A reset builder behaves as a new one** after every history that taught it nothing: it gives the
same answers after the same rows, and in the middle of a row. Where it gives the same answers at
once, no column had been declared and no slot is expected. -/
theorem sameAnswers_reset (plan : ExecutionPlan) (layout : Option FrozenSchema)
    (history : List Call) :
    let b := (start plan layout).callAll history
    (Unlearned plan layout b → ∀ (rows : List (List Write)) (ws : List Write),
      (b.reset.writeRows rows).SameAnswers ((start plan layout).writeRows rows) ∧
        ((b.reset.writeRows rows).beginRow.writeAll ws).SameAnswers
          (((start plan layout).writeRows rows).beginRow.writeAll ws)) ∧
      (b.reset.SameAnswers (start plan layout) →
        (start plan layout).columns = [] ∧ ∀ ordinal, b.expectSlot ordinal = none) := by
  intro b
  constructor
  · intro h rows ws
    obtain rfl : layout = none := h.unfrozen
    have hsimilar := (similar_cleared h).writeRows rows
    obtain ⟨hbegin, hrows⟩ := b.writeRows_reset rows
    refine ⟨?_, ?_⟩
    · cases rows with
      | nil => exact b.sameAnswers_cleared.trans hsimilar.sameAnswers
      | cons _ _ =>
          rw [hrows (List.cons_ne_nil _ _)]
          exact hsimilar.sameAnswers
    · rw [hbegin]
      exact (hsimilar.beginRow.writeAll ws).sameAnswers
  · intro h
    exact ⟨h.columns.symm, fun ordinal => (h.expects ordinal).trans (expectSlot_start _ _ ordinal)⟩

end Leftovers

section Examples

attribute [local instance] integerPlatform

/-- A filter that reads `k`. -/
def keyPlan : ExecutionPlan := { filter := some (.equal "k" "1") }

/-- A row that the filter rejects, without the field that it reads. -/
def keylessRow : List Call := [.beginRow, .put (.field "a" (.str "1")), .endRow]

/-- The rejected row has created a column, which is all it has taught the builder. After a reset the next
row is accepted as by a new builder. -/
theorem sameAnswers_reset_rejected :
    ((start keyPlan none).callAll keylessRow).columnOrder = ["a"] ∧
      (((start keyPlan none).callAll keylessRow).reset.writeRows
        [[.named (.field "a" (.str "2")), .named (.field "k" (.str "1"))]]).SameAnswers
        ((start keyPlan none).writeRows
          [[.named (.field "a" (.str "2")), .named (.field "k" (.str "1"))]]) ∧
      ((start keyPlan none).writeRows
        [[.named (.field "a" (.str "2")), .named (.field "k" (.str "1"))]]).rowCount = 1 := by
  have hunlearned : Unlearned keyPlan none ((start keyPlan none).callAll keylessRow) := by
    refine ⟨rfl, rfl, fun _ => rfl, fun buf hbuf => ?_⟩
    have hmarks : ((start keyPlan none).callAll keylessRow).rowBuf.map (fun buf =>
        (buf.predicateMask, buf.predicateOrdinal, buf.bufferWorthwhile)) =
          some (WordSet.clear ⟨[0]⟩, none, true) := rfl
    rw [hbuf] at hmarks
    obtain ⟨hmask, hordinal, hworth⟩ : buf.predicateMask = WordSet.clear ⟨[0]⟩ ∧
        buf.predicateOrdinal = none ∧ buf.bufferWorthwhile = true := by simpa using hmarks
    exact ⟨fun slot => hmask ▸ WordSet.test_clear _ slot, hordinal, hworth⟩
  exact ⟨rfl, ((sameAnswers_reset keyPlan none keylessRow).1 hunlearned _ []).1, rfl⟩

/-- A row leaves its slots expected. -/
theorem sameAnswers_reset_falls :
    ¬ ∀ (plan : ExecutionPlan) (layout : Option FrozenSchema) (history : List Call)
      (rows : List (List Write)),
      (((start plan layout).callAll history).reset.writeRows rows).SameAnswers
        ((start plan layout).writeRows rows) := by
  intro h
  have hanswers := h {} none [.beginRow, .put (.field "a" (.str "1")), .endRow] []
  have hexpects : some (0, "a") = none := hanswers.expects 0
  cases hexpects

end Examples

end TableBuilder

end Rypipe
