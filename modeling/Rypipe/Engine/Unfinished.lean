import Rypipe.Engine.Declared
import Rypipe.Engine.Reads
import Rypipe.Engine.SameContent
import Rypipe.Engine.Stacked

/-! # A row that is never ended

What `finish` makes of a builder in the middle of a row. Truncating the columns to the counted rows
takes the row back, unless it was drained and counted or has left an error: the batch is that of the
builder before the row, and the columns that the row has created are all null. -/

namespace Rypipe

section Unfinished

variable [Platform]

/-- The batch with more columns, all null. -/
def RecordBatch.withNulls (batch : RecordBatch) (extra : Schema) : RecordBatch :=
  ⟨batch.schema ++ extra, batch.columns ++ extra.map fun p => nullArray p.2 batch.rowCount,
    batch.rowCount⟩

@[simp] theorem RecordBatch.withNulls_nil (batch : RecordBatch) : batch.withNulls [] = batch := by
  cases batch
  simp [withNulls]

@[simp] theorem length_nullArray (datatype : DataType) (rows : Nat) :
    (nullArray datatype rows).values.length = rows := List.length_replicate

/-- Arrow checks the types of columns of the right length. -/
theorem RecordBatch.tryNewWithRows_eq {schema : Schema} {arrays : List ArrayRef} {rows : Nat}
    (hlength : schema.length = arrays.length) (hrows : ∀ a ∈ arrays, a.values.length = rows) :
    tryNewWithRows schema arrays rows =
      if schema.map Prod.snd = arrays.map ArrayRef.datatype then .ok ⟨schema, arrays, rows⟩
      else .error (.arrow "InvalidArgumentError") := by
  rw [tryNewWithRows, if_neg (not_not.mpr hlength), if_neg (by simpa using hrows)]
  exact ite_not _ _ _

/-- Arrow accepts null columns beside those it accepts. They have the length of the others and the
type of their field, so whether the batch is made is decided by the columns before them. -/
theorem RecordBatch.tryNew_append {schema extra : Schema} {arrays : List ArrayRef} {rows : Nat}
    (hlength : schema.length = arrays.length) (hrows : ∀ a ∈ arrays, a.values.length = rows)
    (hne : arrays ≠ []) :
    tryNew (schema ++ extra) (arrays ++ extra.map fun p => nullArray p.2 rows) =
      (tryNew schema arrays).map (·.withNulls extra) := by
  obtain ⟨a, rest, rfl⟩ := List.exists_cons_of_ne_nil hne
  obtain rfl : a.values.length = rows := hrows a List.mem_cons_self
  have hlength' : (schema ++ extra).length =
      (a :: rest ++ extra.map fun p => nullArray p.2 a.values.length).length := by
    rw [List.length_append, List.length_append, hlength, List.length_map]
  have hrows' : ∀ x ∈ a :: rest ++ extra.map fun p => nullArray p.2 a.values.length,
      x.values.length = a.values.length := by
    intro x hx
    rcases List.mem_append.mp hx with hx | hx
    · exact hrows x hx
    · obtain ⟨p, -, rfl⟩ := List.mem_map.mp hx
      exact length_nullArray p.2 a.values.length
  -- a null array has the type of its field, so only the columns before it can be refused
  have htypes : (schema ++ extra).map Prod.snd =
      (a :: rest ++ extra.map fun p => nullArray p.2 a.values.length).map ArrayRef.datatype ↔
        schema.map Prod.snd = (a :: rest).map ArrayRef.datatype := by
    rw [List.map_append, List.map_append, List.map_map]
    exact List.append_left_inj _
  have hfirst := tryNewWithRows_eq hlength hrows
  have hboth := tryNewWithRows_eq hlength' hrows'
  rw [tryNew, tryNew, List.cons_append, List.head?_cons, List.head?_cons]
  dsimp only
  rw [hfirst, ← List.cons_append, hboth]
  by_cases hsame : schema.map Prod.snd = (a :: rest).map ArrayRef.datatype
  · rw [if_pos hsame, if_pos (htypes.mpr hsame)]
    rfl
  · rw [if_neg hsame, if_neg (mt htypes.mp hsame)]
    rfl

/-- Null columns alone make a batch. -/
theorem RecordBatch.tryNew_nulls {extra : Schema} (hne : extra ≠ []) :
    tryNew extra (extra.map fun p => nullArray p.2 0) = .ok ((newEmpty []).withNulls extra) := by
  obtain ⟨p, rest, rfl⟩ := List.exists_cons_of_ne_nil hne
  have hbatch := @tryNewWithRows_eq _ (p :: rest) ((p :: rest).map fun p => nullArray p.2 0) 0
    (List.length_map _).symm fun x hx => by
      obtain ⟨q, -, rfl⟩ := List.mem_map.mp hx
      exact length_nullArray q.2 0
  rw [if_pos (by rw [List.map_map]; rfl)] at hbatch
  exact hbatch

namespace TableBuilder

/-! ## Exports -/

section Exports

variable {columns : List ColumnBuilder}

/-- The slots after others export as they would alone. By induction on the first ones, each of which
changes its own column only, and the slots behind them read other columns. -/
theorem exportSlots_append {slots slots' : List (String × Nat)}
    (hdistinct : ∀ s ∈ slots, ∀ s' ∈ slots', s.2 ≠ s'.2) {fields : Schema}
    {arrays : List ArrayRef} (hok : exportSlots columns slots' = .ok (fields, arrays)) :
    exportSlots columns (slots ++ slots') =
      (exportSlots columns slots).map fun out => (out.1 ++ fields, out.2 ++ arrays) := by
  induction slots generalizing columns with
  | nil => exact hok
  | cons slot slots ih =>
      have hrest : ∀ s ∈ slots, ∀ s' ∈ slots', s.2 ≠ s'.2 :=
        fun s hs => hdistinct s (List.mem_cons_of_mem _ hs)
      rw [List.cons_append, exportSlots, exportSlots]
      cases hc : columns[slot.2]? with
      | none => exact ih hrest hok
      | some c =>
          dsimp only
          cases harray : c.toArrowArray with
          | error err => rfl
          | ok out =>
              obtain ⟨array, left⟩ := out
              have hkept : exportSlots (columns.set slot.2 left) slots' = .ok (fields, arrays) := by
                rw [← hok]
                refine exportSlots_of_alike fun s hs => ?_
                rw [List.getElem?_set_ne (hdistinct slot List.mem_cons_self s hs)]
                cases columns[s.2]? with
                | none => exact .none
                | some c => exact .some (.refl c)
              simp only [bind, Except.bind, ih hrest hkept]
              cases exportSlots (columns.set slot.2 left) slots <;> rfl

/-- An export has an array for every field, as each slot that finds a column gives one of both. -/
theorem length_exportSlots {slots : List (String × Nat)} {fields : Schema}
    {arrays : List ArrayRef} (hok : exportSlots columns slots = .ok (fields, arrays)) :
    fields.length = arrays.length := by
  induction slots generalizing columns fields arrays with
  | nil =>
      cases hok
      rfl
  | cons slot slots ih =>
      rw [exportSlots] at hok
      cases hc : columns[slot.2]? with
      | none =>
          rw [hc] at hok
          exact ih hok
      | some c =>
          rw [hc] at hok
          simp only [bind, Except.bind] at hok
          cases harray : c.toArrowArray with
          | error err => simp [harray] at hok
          | ok out =>
              simp only [harray] at hok
              cases hrest : exportSlots (columns.set slot.2 out.2) slots with
              | error err => simp [hrest] at hok
              | ok rest =>
                  simp only [hrest, Except.ok.injEq, Prod.mk.injEq] at hok
                  obtain ⟨rfl, rfl⟩ := hok
                  rw [List.length_cons, List.length_cons, ih hrest]

/-- The arrays of distinct slots have the length of their columns. By induction on the slots; a
column that is exported is not read again. -/
theorem length_of_exportSlots {slots : List (String × Nat)} {rows : Nat}
    (hnodup : (slots.map Prod.snd).Nodup)
    (h : ∀ s ∈ slots, ∀ c, columns[s.2]? = some c → c.cells.length = rows) {fields : Schema}
    {arrays : List ArrayRef} (hok : exportSlots columns slots = .ok (fields, arrays)) :
    ∀ a ∈ arrays, a.values.length = rows := by
  induction slots generalizing columns fields arrays with
  | nil =>
      cases hok
      exact fun a ha => by cases ha
  | cons slot slots ih =>
      obtain ⟨hslot, hnodup⟩ := List.nodup_cons.mp hnodup
      rw [exportSlots] at hok
      cases hc : columns[slot.2]? with
      | none =>
          rw [hc] at hok
          exact ih hnodup (fun s hs => h s (List.mem_cons_of_mem _ hs)) hok
      | some c =>
          rw [hc] at hok
          simp only [bind, Except.bind] at hok
          cases harray : c.toArrowArray with
          | error err => simp [harray] at hok
          | ok out =>
              simp only [harray] at hok
              cases hrest : exportSlots (columns.set slot.2 out.2) slots with
              | error err => simp [hrest] at hok
              | ok rest =>
                  simp only [hrest, Except.ok.injEq, Prod.mk.injEq] at hok
                  obtain ⟨-, rfl⟩ := hok
                  have hvalues := (ColumnBuilder.toArrowArray_left harray).1
                  have hall := ih hnodup (fun s hs d hd => ?_) hrest
                  · intro a ha
                    rcases List.mem_cons.mp ha with rfl | ha
                    · rw [hvalues]
                      exact h slot List.mem_cons_self c hc
                    · exact hall a ha
                  -- the export empties a dictionary column, which no later slot reads
                  · have hother : slot.2 ≠ s.2 := fun heq => hslot (heq ▸ List.mem_map_of_mem hs)
                    rw [List.getElem?_set_ne hother] at hd
                    exact h s (List.mem_cons_of_mem _ hs) d hd

/-- The column has `rows` cells, all null, of a type that Arrow has. -/
structure NullColumn (rows : Nat) (c : ColumnBuilder) : Prop where
  valid : c.Valid
  cells : c.cells = List.replicate rows none
  hasEmpty : rows = 0 → c.kind.HasEmpty

/-- Null columns at distinct slots export null arrays, one for each slot, of the Arrow type of their
column. A column without rows is an empty array, which Arrow makes for every type but a decimal one
with an invalid scale. -/
theorem exportSlots_nulls {slots : List (String × Nat)} {rows : Nat}
    (hnodup : (slots.map Prod.snd).Nodup)
    (h : ∀ s ∈ slots, ∃ c, columns[s.2]? = some c ∧ NullColumn rows c) :
    ∃ extra : Schema, extra.map Prod.fst = slots.map Prod.fst ∧
      exportSlots columns slots = .ok (extra, extra.map fun p => nullArray p.2 rows) := by
  induction slots generalizing columns with
  | nil => exact ⟨[], rfl, rfl⟩
  | cons slot slots ih =>
      obtain ⟨hslot, hnodup⟩ := List.nodup_cons.mp hnodup
      obtain ⟨c, hc, hvalid, hcells, hempty⟩ := h slot List.mem_cons_self
      -- an empty decimal array is refused unless the scale fits, which `HasEmpty` says
      have harray : c.toArrowArray = .ok (nullArray c.arrowDatatype rows, c.emptied) := by
        rw [ColumnBuilder.toArrowArray_of_valid hvalid, hcells]
        · rfl
        · cases rows with
          | zero =>
              refine .inr fun scale hk => ?_
              have hscale := hempty rfl
              rwa [hk] at hscale
          | succ rows =>
              refine .inl ?_
              rw [hcells, List.replicate_succ]
              exact List.cons_ne_nil _ _
      obtain ⟨extra, hnames, hrest⟩ := @ih (columns.set slot.2 c.emptied) hnodup
        fun s hs => by
          have hother : slot.2 ≠ s.2 := fun heq => hslot (heq ▸ List.mem_map_of_mem hs)
          rw [List.getElem?_set_ne hother]
          exact h s (List.mem_cons_of_mem _ hs)
      refine ⟨(slot.1, c.arrowDatatype) :: extra, ?_, ?_⟩
      · rw [List.map_cons, List.map_cons, hnames]
      · rw [exportSlots, hc]
        simp only [harray, bind, Except.bind, hrest]
        rfl

end Exports

/-! ## The counted rows -/

/-- The cells of the counted rows in a slot: nulls where there is no column yet. -/
def counted (b : TableBuilder) (i : Nat) : List (Option TypedValue) :=
  ((b.columns[i]?).map fun c => c.cells.take b.rowCount).getD (List.replicate b.rowCount none)

/-- Whatever the later builder has more, its counted rows are those of the earlier. -/
structure Adds (b u : TableBuilder) : Prop where
  rowCount : u.rowCount = b.rowCount
  counted : ∀ i, u.counted i = b.counted i

section Adds

variable {b u v : TableBuilder}

/-- A builder has its own counted rows. -/
theorem Adds.refl (b : TableBuilder) : b.Adds b := ⟨rfl, fun _ => rfl⟩

/-- Two steps keep the counted rows if each of them does. -/
theorem Adds.trans (h : b.Adds u) (h' : u.Adds v) : b.Adds v :=
  ⟨h'.rowCount.trans h.rowCount, fun i => (h'.counted i).trans (h.counted i)⟩

/-- What the counted rows are read from. -/
theorem adds_of_columns (hcolumns : u.columns = b.columns) (hcount : u.rowCount = b.rowCount) :
    b.Adds u := by
  refine ⟨hcount, fun i => ?_⟩
  rw [TableBuilder.counted, TableBuilder.counted, hcolumns, hcount]

/-- A new column is back-filled with nulls for the counted rows, and the columns that were there
keep their cells, so the counted rows stay what they are. -/
theorem adds_ensureColumnIdx (h : b.Stacked) (hdirect : ¬ b.IsDirect) (name : String) :
    b.Adds (b.ensureColumnIdx name).1 := by
  rw [TableBuilder.ensureColumnIdx]
  cases hlook : b.fieldIndex.lookup name with
  | some idx => exact .refl b
  | none =>
      rw [exactWithout_of_frozen h.frozen]
      dsimp only
      refine ⟨rfl, fun i => ?_⟩
      have hnew := (ColumnBuilder.ofType_stores (b.plan.columnType name)).pushNulls b.backfill
      rw [backfill_of_not_direct hdirect] at hnew
      show (((b.columns ++ [ColumnBuilder.pushNulls b.backfill (.ofType _)])[i]?).map _).getD _ = _
      rw [backfill_of_not_direct hdirect, TableBuilder.counted, List.getElem?_append]
      split
      · rfl
      · next hi =>
        rw [List.getElem?_eq_none (Nat.le_of_not_lt hi), List.getElem?_singleton]
        split
        · show List.take b.rowCount (ColumnBuilder.cells _) = _
          rw [hnew.cells]
          simp
        · rfl

/-- Overwriting the cell of the row leaves the cells of the counted rows. -/
theorem take_cells_overwrite {c : ColumnBuilder} (hc : c.Valid) {rowCount : Nat}
    (hlen : rowCount ≤ c.len) (value : Value) :
    (overwrite rowCount value c).cells.take rowCount = c.cells.take rowCount := by
  have hcells := ColumnBuilder.length_cells c
  rw [((ColumnBuilder.stores_self hc).overwrite rowCount value).cells]
  split
  · rw [List.take_append_of_le_length (by rw [List.length_dropLast]; omega),
      List.dropLast_eq_take, List.take_take, min_eq_left (by omega)]
  · rw [List.take_append_of_le_length (by omega)]

/-- Writing a slot in a row that is not counted yet leaves the cells of the counted rows. -/
theorem adds_writeSlot (h : b.Stacked) (hdirect : ¬ b.IsDirect) (idx : Nat) (value : Value) :
    b.Adds (b.writeSlot idx value) := by
  refine ⟨rfl, fun i => ?_⟩
  show (((b.columns.modify idx (overwrite b.rowCount value))[i]?).map _).getD _ = _
  rw [TableBuilder.counted, List.getElem?_modify]
  cases hc : b.columns[i]? with
  | none => split <;> rfl
  | some c =>
      split
      · have htall := h.tall i c hc
        rw [backfill_of_not_direct hdirect] at htall
        exact take_cells_overwrite (h.valid c (List.mem_of_getElem? hc))
          (Nat.le_of_add_right_le htall) value
      · rfl

/-- So does writing a value under its name; a new column is filled with missing cells for the rows
before. -/
theorem adds_pushFieldResolved (h : b.Stacked) (hdirect : ¬ b.IsDirect) (name : String)
    (value : Value) : b.Adds (b.pushFieldResolved name value) := by
  have hensure := adds_ensureColumnIdx h hdirect name
  have hstacked := (h.ensureColumnIdx name).1
  have hsame := (b.ensureColumnIdx_frame name).1
  rw [pushFieldResolved, exactWithout_of_frozen h.frozen]
  dsimp only
  generalize b.ensureColumnIdx name = ensured at hensure hstacked hsame ⊢
  have hpushed : (((ensured.1.recordStrictViolationAt ensured.2 value).notifyPutField ensured.2
      value).recordOrdinal ensured.2 name).Stacked :=
    hstacked.congr rfl rfl rfl rfl rfl rfl rfl
  have hrecorded : ensured.1.Adds (((ensured.1.recordStrictViolationAt ensured.2
      value).notifyPutField ensured.2 value).recordOrdinal ensured.2 name) :=
    adds_of_columns rfl rfl
  refine (hensure.trans hrecorded).trans (adds_writeSlot hpushed ?_ _ _)
  show ¬ ensured.1.rowBuf.any (·.direct) = true
  rw [hsame]
  exact hdirect

/-- A put leaves the counted rows alone, unless it drains the row: what it writes is past them, and
a column it creates is null in all of them. -/
theorem adds_put (h : b.Stacked) {p : Put} (hdirect : ¬ (b.put p).IsDirect) :
    b.Adds (b.put p) := by
  have hbefore : ¬ b.IsDirect := mt (h.put p).2 hdirect
  cases htarget : p.target b.plan with
  | none =>
      rw [put_of_dropped htarget]
      exact .refl b
  | some name =>
      cases put_shape h.frozen htarget with
      | pushed _ heq =>
          rw [heq]
          exact adds_pushFieldResolved h hbefore name p.value
      | held _ hheld =>
          obtain ⟨err, g, heq, -⟩ := hheld.shape
          rw [heq]
          exact (adds_ensureColumnIdx h hbefore name).trans (adds_of_columns rfl rfl)
      | drained hbuffering hbefore b' hheld heq =>
          rw [heq] at hdirect
          exact absurd (h.drainHeld hheld hbuffering hbefore).2 hdirect

/-- **A row in progress leaves the counted rows**, unless it has been drained. -/
theorem adds_putAll (h : b.Stacked) {puts : List Put} (hdirect : ¬ (b.putAll puts).IsDirect) :
    b.Adds (b.putAll puts) := by
  induction puts generalizing b with
  | nil => exact .refl b
  | cons p puts ih =>
      have hput := (h.put p).1
      have hmiddle : ¬ (b.put p).IsDirect := mt (hput.putAll puts).2 hdirect
      exact (adds_put h hmiddle).trans (ih hput hdirect)

end Adds

/-! ## The batch of a row in progress -/

/-- The upgrade of the columns under a plan is one function applied to each of them. It maps alike
columns to alike ones, and what it makes of a column stores the same cells, as they are or in a
dictionary. -/
theorem autoDictUpgrade_map (plan : ExecutionPlan) : ∃ f : ColumnBuilder → ColumnBuilder,
    (∀ c c', c.Alike c' → (f c).Alike (f c')) ∧
      (∀ (c : ColumnBuilder) ty cells, c.Stores ty cells →
        (f c).Stores ty cells ∨ (f c).Stores .dictionary cells) ∧
      ∀ b : TableBuilder, b.plan = plan → b.autoDictUpgrade.columns = b.columns.map f := by
  by_cases hauto : plan.autoDict = true
  · refine ⟨ColumnBuilder.tryUpgradeToDict 512 (plan.dictThreshold.getD (Platform.scientific 5 2))
      (plan.dictMaxSize.getD 256), fun c c' h => h.tryUpgradeToDict _ _ _, fun c ty cells h => ?_,
      fun b hplan => ?_⟩
    · exact (h.tryUpgradeToDict _ _ _).imp_right And.right
    · rw [autoDictUpgrade, hplan, if_pos hauto]
  · refine ⟨id, fun c c' h => h, fun c ty cells h => .inl h, fun b hplan => ?_⟩
    rw [autoDictUpgrade, hplan, if_neg hauto, List.map_id]

/-- The builder `u` is `b` in the middle of a row that has not been counted. -/
structure Resumes (b u : TableBuilder) (t t' : Table) : Prop where
  declared : b.Declared t
  declared' : u.Declared t'
  cols : t.cols <+: t'.cols
  adds : b.Adds u
  plan : u.plan = b.plan
  tall : ∀ c ∈ b.columns, c.Valid ∧ b.rowCount ≤ c.len
  tall' : ∀ c ∈ u.columns, c.Valid

section Resumes

variable {b u : TableBuilder} {t t' : Table}

/-- A truncated column. -/
theorem stores_popTo {c : ColumnBuilder} (hc : c.Valid) (n : Nat) :
    (ColumnBuilder.pop^[c.len - n] c).Stores c.kind (c.cells.take n) :=
  (ColumnBuilder.stores_self hc).popTo n

/-- The exported columns of the earlier builder have a cell for every counted row. -/
theorem Resumes.length_cells (h : b.Resumes u t t') :
    ∀ c ∈ b.normalize.autoDictUpgrade.columns, c.cells.length = b.rowCount := by
  obtain ⟨f, -, hstores, hmap⟩ := autoDictUpgrade_map b.plan
  intro c hc
  rw [hmap b.normalize rfl] at hc
  obtain ⟨c', hc', rfl⟩ := List.mem_map.mp hc
  obtain ⟨c₀, hc₀, rfl⟩ := List.mem_map.mp hc'
  obtain ⟨hvalid, hle⟩ := h.tall c₀ hc₀
  have hlength := ColumnBuilder.length_cells c₀
  rcases hstores _ _ _ (stores_popTo hvalid b.rowCount) with hst | hst
  · rw [hst.cells, List.length_take]
    omega
  · rw [hst.cells, List.length_take]
    omega

/-- The columns of the earlier builder and those at the same slots of the later one are alike when
they are exported. Both are truncated to the counted rows, where the unfinished row has changed
nothing, and upgraded under the same plan. -/
theorem Resumes.alike (h : b.Resumes u t t') {i : Nat} (hi : i < t.cols.length) :
    Option.Rel ColumnBuilder.Alike b.normalize.autoDictUpgrade.columns[i]?
      u.normalize.autoDictUpgrade.columns[i]? := by
  obtain ⟨f, halike, -, hmap⟩ := autoDictUpgrade_map b.plan
  have hi' := Nat.lt_of_lt_of_le hi h.cols.length_le
  have hbi : i < b.columns.length := h.declared.size.symm ▸ hi
  have hui : i < u.columns.length := h.declared'.size.symm ▸ hi'
  have hkind : u.columns[i].kind = b.columns[i].kind := by
    have hb := congrArg (fun ks : List FieldType => ks[i]?) h.declared.kinds
    have hu := congrArg (fun ks : List FieldType => ks[i]?) h.declared'.kinds
    simp only [TableBuilder.kinds, List.getElem?_map, List.getElem?_eq_getElem hbi,
      List.getElem?_eq_getElem hui, List.getElem?_eq_getElem hi, List.getElem?_eq_getElem hi',
      Option.map_some, Option.some.injEq] at hb hu
    rw [hb, hu, List.prefix_iff_getElem.mp h.cols |>.2 i hi]
  have hcells : u.columns[i].cells.take b.rowCount = b.columns[i].cells.take b.rowCount := by
    have hcounted := h.adds.counted i
    rw [TableBuilder.counted, TableBuilder.counted, List.getElem?_eq_getElem hbi,
      List.getElem?_eq_getElem hui, h.adds.rowCount] at hcounted
    exact hcounted
  rw [hmap b.normalize rfl, hmap u.normalize h.plan, normalize, normalize, List.map_map,
    List.map_map, List.getElem?_map, List.getElem?_map, List.getElem?_eq_getElem hbi,
    List.getElem?_eq_getElem hui, h.adds.rowCount]
  refine .some (halike _ _ ?_)
  have hst := stores_popTo (h.tall _ (List.getElem_mem hbi)).1 b.rowCount
  have hst' := stores_popTo (h.tall' _ (List.getElem_mem hui)) b.rowCount
  rw [hkind, hcells] at hst'
  exact hst.alike hst'

/-- A column that the row has created is exported as a null column. -/
theorem Resumes.nulls (h : b.Resumes u t t') {i : Nat} (hi : t.cols.length ≤ i)
    (hi' : i < t'.cols.length)
    (hempty : b.rowCount = 0 → ∀ c ∈ u.columns.drop b.columns.length, c.kind.HasEmpty) :
    ∃ c, u.normalize.autoDictUpgrade.columns[i]? = some c ∧ NullColumn b.rowCount c := by
  obtain ⟨f, -, hstores, hmap⟩ := autoDictUpgrade_map b.plan
  have hbi : b.columns.length ≤ i := h.declared.size.symm ▸ hi
  have hui : i < u.columns.length := h.declared'.size.symm ▸ hi'
  have hcells : u.columns[i].cells.take b.rowCount = List.replicate b.rowCount none := by
    have hcounted := h.adds.counted i
    rw [TableBuilder.counted, TableBuilder.counted, List.getElem?_eq_none hbi,
      List.getElem?_eq_getElem hui, h.adds.rowCount] at hcounted
    exact hcounted
  refine ⟨f (ColumnBuilder.pop^[u.columns[i].len - b.rowCount] u.columns[i]), ?_, ?_⟩
  · rw [hmap u.normalize h.plan, normalize, List.map_map, List.getElem?_map,
      List.getElem?_eq_getElem hui, h.adds.rowCount]
    rfl
  · have hmem : u.columns[i] ∈ u.columns.drop b.columns.length := by
      rw [List.mem_iff_getElem?]
      refine ⟨i - b.columns.length, ?_⟩
      rw [List.getElem?_drop, Nat.add_sub_cancel' hbi, List.getElem?_eq_getElem hui]
    have hst := stores_popTo (h.tall' _ (List.getElem_mem hui)) b.rowCount
    rw [hcells] at hst
    rcases hstores _ _ _ hst with hst | hst
    · exact ⟨hst.valid, hst.cells, fun hzero => by rw [hst.kind]; exact hempty hzero _ hmem⟩
    · exact ⟨hst.valid, hst.cells, fun _ => by rw [hst.kind]; trivial⟩

/-- The slots of all names are their positions. -/
theorem Declared.slotsOf_names (h : b.Declared t) : slotsOf b.fieldIndex t.names = t.names.zipIdx := by
  have hslots : t.names.zipIdx.filterMap
      ((fun n => (b.fieldIndex.lookup n).map fun i => (n, i)) ∘ Prod.fst) = t.names.zipIdx := by
    conv_rhs => rw [← List.filterMap_some (l := t.names.zipIdx)]
    refine List.filterMap_congr fun s hs => ?_
    rw [Function.comp_apply, (h.indexed s.1 s.2).mpr (List.mem_zipIdx_iff_getElem?.mp hs)]
    rfl
  rwa [← List.filterMap_map, List.zipIdx_map_fst] at hslots

/-- A batch keeps its fields when columns without a name of theirs are added. -/
theorem Resumes.columnOrder_ne_nil (h : b.Resumes u t t') (hne : b.columnOrder ≠ []) :
    u.columnOrder ≠ [] := by
  intro hnil
  have hlength := (h.cols.map Prod.fst).length_le
  have hb := h.declared.order.length_eq
  have hu := h.declared'.order.length_eq
  rw [hnil, List.length_nil] at hu
  exact hne (List.length_eq_zero_iff.mp (by
    rw [hb]
    exact Nat.le_zero.mp (hu ▸ hlength)))

/-- With a projection the row in progress does not show. The exported names are those of the
projection, which have the same slots in both builders, and the columns at these slots are alike. -/
theorem Resumes.finish_projected (h : b.Resumes u t t') (hunknown : b.unknownError = none)
    (hunknown' : u.unknownError = none) (hstrict : b.strictError = none)
    (hstrict' : u.strictError = none) (hschema : b.plan.schemaOrder ≠ [])
    (hnames : ∀ n ∈ b.exportNames, n ∈ t.names)
    (horder : b.columnOrder = [] → u.columnOrder = []) : u.finish = b.finish := by
  by_cases hnil : b.columnOrder = []
  · rw [finish_of_no_column hunknown' hstrict' (horder hnil),
      finish_of_no_column hunknown hstrict hnil]
  · have hsame : u.exportNames = b.exportNames := by
      rw [exportNames, exportNames, h.plan, if_neg (by simpa using hschema),
        if_neg (by simpa using hschema)]
    have hprefix : t.names <+: t'.names := h.cols.map Prod.fst
    -- a projected name has the same slot in both builders
    have hkept : ∀ n ∈ b.exportNames, ∃ i, b.fieldIndex.lookup n = some i ∧
        u.fieldIndex.lookup n = some i := by
      intro n hn
      obtain ⟨i, hi⟩ := List.mem_iff_getElem?.mp (hnames n hn)
      obtain ⟨hlt, hget⟩ := List.getElem?_eq_some_iff.mp hi
      refine ⟨i, (h.declared.indexed n i).mpr hi, (h.declared'.indexed n i).mpr ?_⟩
      rw [List.prefix_iff_getElem?.mp hprefix i hlt, hget]
    have hslots : slotsOf u.fieldIndex b.exportNames = slotsOf b.fieldIndex b.exportNames := by
      refine List.filterMap_congr fun n hn => ?_
      obtain ⟨i, hi, hi'⟩ := hkept n hn
      rw [hi, hi']
    rw [finish_eq hunknown' hstrict' (h.columnOrder_ne_nil hnil) fun n hn => ?_,
      finish_eq hunknown hstrict hnil fun n hn => (h.declared.mem_index n).mpr (hnames n hn),
      hsame, hslots, exportSlots_of_alike fun s hs => ?_]
    · obtain ⟨n, hn, hs⟩ := List.mem_filterMap.mp hs
      obtain ⟨i, hi, rfl⟩ := Option.map_eq_some_iff.mp hs
      refine h.alike ?_
      have hlt := (List.getElem?_eq_some_iff.mp ((h.declared.indexed n i).mp hi)).1
      rwa [RowTable.names, List.length_map] at hlt
    · rw [hsame] at hn
      obtain ⟨i, -, hi⟩ := hkept n hn
      rw [← AList.lookup_isSome, hi]
      rfl

/-- A recorded violation is what `finish` returns. -/
theorem finish_of_strictError {err : Error} (hunknown : b.unknownError = none)
    (hstrict : b.strictError = some err) : b.finish = .error err := by
  rw [finish, prepareFinish, hunknown, hstrict]
  rfl

/-- Without a projection all declared names are exported. -/
theorem Declared.exportNames_plain (h : b.Declared t) (hschema : b.plan.schemaOrder = []) :
    b.exportNames = t.names := by
  rw [exportNames, if_pos (List.isEmpty_iff.mpr hschema), h.inOrder hschema]

/-- The columns that a row has created in `u`, as slots after those of the table `t`, and the null
columns that they are exported as. -/
structure Trails (u : TableBuilder) (t t' : Table) (rows : Nat) (slots : List (String × Nat))
    (extra : Schema) : Prop where
  names : t'.names = t.names ++ slots.map Prod.fst
  indexed : slotsOf u.fieldIndex t'.names = t.names.zipIdx ++ slots
  later : ∀ s ∈ slots, t.cols.length ≤ s.2
  fields : extra.map Prod.fst = slots.map Prod.fst
  nulls : exportSlots u.normalize.autoDictUpgrade.columns slots =
    .ok (extra, extra.map fun p => nullArray p.2 rows)

/-- The columns of the row in progress come after all others, and none of the counted rows has a cell
in them. -/
theorem Resumes.trails (h : b.Resumes u t t')
    (hempty : b.rowCount = 0 → ∀ c ∈ u.columns.drop b.columns.length, c.kind.HasEmpty) :
    ∃ slots extra, Trails u t t' b.rowCount slots extra := by
  obtain ⟨added, hcols⟩ := h.cols
  have hnames : t'.names = t.names ++ added.map Prod.fst := by
    rw [RowTable.names, ← hcols, List.map_append]
    rfl
  have hnew : ∀ s ∈ (added.map Prod.fst).zipIdx t.names.length,
      t.cols.length ≤ s.2 ∧ s.2 < t'.cols.length := by
    intro s hs
    obtain ⟨hle, hlt, -⟩ := List.mem_zipIdx hs
    rw [RowTable.names, List.length_map] at hle hlt
    rw [List.length_map] at hlt
    refine ⟨hle, ?_⟩
    rw [← hcols, List.length_append]
    omega
  obtain ⟨extra, hextra, hnulls⟩ := @exportSlots_nulls _
    u.normalize.autoDictUpgrade.columns ((added.map Prod.fst).zipIdx t.names.length) b.rowCount
    (by rw [List.zipIdx_map_snd]; exact List.nodup_range') fun s hs => by
      obtain ⟨hle, hlt⟩ := hnew s hs
      exact h.nulls hle hlt hempty
  refine ⟨_, extra, ?_, ?_, fun s hs => (hnew s hs).1, hextra, hnulls⟩
  · rw [List.zipIdx_map_fst, hnames]
  · rw [h.declared'.slotsOf_names, hnames, List.zipIdx_append, Nat.zero_add]

/-- A builder whose only columns are those of the row in progress exports the null columns alone, and
no row. -/
theorem Resumes.finish_first (h : b.Resumes u t t') (hunknown : b.unknownError = none)
    (hunknown' : u.unknownError = none) (hstrict : b.strictError = none)
    (hstrict' : u.strictError = none) (hschema : b.plan.schemaOrder = [])
    (horder : u.columnOrder ≠ [] → b.rowCount = 0) (hnil : b.columnOrder = [])
    {slots : List (String × Nat)} {extra : Schema} (htrails : Trails u t t' b.rowCount slots extra) :
    u.finish = b.finish.map (·.withNulls extra) := by
  have hu := h.declared'.inOrder (h.plan ▸ hschema)
  have hexport' := h.declared'.exportNames_plain (h.plan ▸ hschema)
  have htnil : t.names = [] := h.declared.inOrder hschema ▸ hnil
  have hslots : slots.map Prod.fst = u.columnOrder := by
    rw [hu, htrails.names, htnil, List.nil_append]
  rw [finish_of_no_column hunknown hstrict hnil]
  by_cases hnil' : u.columnOrder = []
  · have hextranil : extra = [] := by
      have hfields := htrails.fields
      rw [hslots, hnil'] at hfields
      exact List.map_eq_nil_iff.mp hfields
    rw [finish_of_no_column hunknown' hstrict' hnil', hextranil, Except.map,
      RecordBatch.withNulls_nil]
  · have hextrane : extra ≠ [] := by
      rintro rfl
      exact hnil' (hslots.symm.trans htrails.fields.symm)
    have hmem : ∀ n ∈ u.exportNames, n ∈ u.fieldIndex := fun n hn =>
      (h.declared'.mem_index n).mpr (hexport' ▸ hn)
    rw [finish_eq hunknown' hstrict' hnil' hmem, hexport', htrails.indexed, htnil, List.zipIdx_nil,
      List.nil_append, htrails.nulls, horder hnil']
    exact RecordBatch.tryNew_nulls hextrane

/-- A builder with columns exports them as before, and the null columns after them. -/
theorem Resumes.finish_later (h : b.Resumes u t t') (hunknown : b.unknownError = none)
    (hunknown' : u.unknownError = none) (hstrict : b.strictError = none)
    (hstrict' : u.strictError = none) (hschema : b.plan.schemaOrder = [])
    (hne : b.columnOrder ≠ []) {slots : List (String × Nat)} {extra : Schema}
    (htrails : Trails u t t' b.rowCount slots extra) :
    u.finish = b.finish.map (·.withNulls extra) := by
  have hexport := h.declared.exportNames_plain hschema
  have hexport' := h.declared'.exportNames_plain (h.plan ▸ hschema)
  have hold : ∀ s ∈ t.names.zipIdx, s.2 < t.cols.length := by
    intro s hs
    have hlt := (List.getElem?_eq_some_iff.mp (List.mem_zipIdx_iff_getElem?.mp hs)).1
    rwa [RowTable.names, List.length_map] at hlt
  have hfirst : exportSlots u.normalize.autoDictUpgrade.columns t.names.zipIdx =
      exportSlots b.normalize.autoDictUpgrade.columns t.names.zipIdx :=
    exportSlots_of_alike fun s hs => h.alike (hold s hs)
  have hboth := exportSlots_append (fun s (hs : s ∈ t.names.zipIdx) s' hs' => by
    have hlt := hold s hs
    have hle := htrails.later s' hs'
    omega) htrails.nulls
  rw [finish_eq hunknown' hstrict' (h.columnOrder_ne_nil hne) fun n hn =>
      (h.declared'.mem_index n).mpr (hexport' ▸ hn), hexport', htrails.indexed, hboth, hfirst,
    finish_eq hunknown hstrict hne fun n hn => (h.declared.mem_index n).mpr (hexport ▸ hn), hexport,
    h.declared.slotsOf_names]
  cases hex : exportSlots b.normalize.autoDictUpgrade.columns t.names.zipIdx with
  | error err => rfl
  | ok out =>
      obtain ⟨fields, arrays⟩ := out
      refine RecordBatch.tryNew_append (length_exportSlots hex) ?_ ?_
      · refine length_of_exportSlots ?_ (fun s _ c hc => ?_) hex
        · rw [List.zipIdx_map_snd]
          exact List.nodup_range'
        · exact h.length_cells c (List.mem_of_getElem? hc)
      · -- the builder has a column, so the export has an array
        rintro rfl
        have hfields := @fields_exportSlots _ _ _ (b.exportType t) (fun s hs =>
          h.declared.kinds_upgraded ((h.declared.indexed s.1 s.2).mpr
            (List.mem_zipIdx_iff_getElem?.mp hs))) _ _ hex
        have hlength := length_exportSlots hex
        rw [hfields, List.length_map, List.length_zipIdx, List.length_nil,
          List.length_eq_zero_iff] at hlength
        exact hne ((h.declared.inOrder hschema).trans hlength)

/-- Without a projection the columns of the row in progress come last. So the batch with the
unfinished row is the batch without it and some null columns after it: the counted rows are the
same, and a column that only the unfinished row has is missing in all of them. -/
theorem Resumes.finish_plain (h : b.Resumes u t t') (hunknown : b.unknownError = none)
    (hunknown' : u.unknownError = none) (hstrict : b.strictError = none)
    (hstrict' : u.strictError = none) (hschema : b.plan.schemaOrder = [])
    (horder : b.columnOrder = [] → u.columnOrder ≠ [] → b.rowCount = 0)
    (hempty : b.rowCount = 0 → ∀ c ∈ u.columns.drop b.columns.length, c.kind.HasEmpty) :
    ∃ extra : Schema, (∀ p ∈ extra, p.1 ∉ b.columnOrder) ∧
      u.finish = b.finish.map (·.withNulls extra) := by
  obtain ⟨slots, extra, htrails⟩ := h.trails hempty
  refine ⟨extra, fun p hp hmem => ?_, ?_⟩
  · -- the names of the new columns are new
    have hp' : p.1 ∈ slots.map Prod.fst := htrails.fields ▸ List.mem_map_of_mem hp
    have hnodup := t'.nodup
    rw [← RowTable.names, htrails.names] at hnodup
    rw [h.declared.inOrder hschema] at hmem
    exact (List.nodup_append.mp hnodup).2.2 p.1 hmem p.1 hp' rfl
  · by_cases hnil : b.columnOrder = []
    · exact h.finish_first hunknown hunknown' hstrict hstrict' hschema (horder hnil) hnil htrails
    · exact h.finish_later hunknown hunknown' hstrict hstrict' hschema hnil htrails

end Resumes

/-- The row in progress in `u` can be taken back from the rows of `b`: it has recorded no error, has
not been drained, and has created no column that shows in the batch. -/
structure Spared (b u : TableBuilder) : Prop where
  strict : u.strictError = b.strictError
  undrained : b.strictError = none → ¬ u.IsDirect
  /-- A batch without columns has no rows, one with columns has them all. -/
  columns : b.strictError = none → b.columnOrder = [] → u.columnOrder ≠ [] →
    b.rowCount = 0 ∧ b.plan.schemaOrder = []
  /-- Arrow has an empty array for every new column. -/
  hasEmpty : b.strictError = none → b.plan.schemaOrder = [] → b.rowCount = 0 →
    ∀ c ∈ u.columns.drop b.columns.length, c.kind.HasEmpty

/-- **An unfinished row contributes nothing**, where it can be taken back: `finish` gives what it
gives without the row, up to null columns. -/
theorem finish_unfinished (plan : ExecutionPlan) (rows : List (List Put)) (puts : List Put)
    (hspared : ((withPlan plan).feed rows).Spared
      (((withPlan plan).feed rows).beginRow.putAll puts)) :
    ∃ extra : Schema, (∀ p ∈ extra, p.1 ∉ ((withPlan plan).feed rows).columnOrder) ∧
      (((withPlan plan).feed rows).beginRow.putAll puts).finish =
        ((withPlan plan).feed rows).finish.map (·.withNulls extra) := by
  have htall := (tall_withPlan plan).feed rows
  have hstacked := (htall.beginRow.putAll puts).1
  obtain ⟨hdeclared, hplan, -, hunknown⟩ :=
    declared_callAll_withPlan plan (rows.flatMap rowCalls)
  obtain ⟨hdeclared', hplan', -, hunknown'⟩ :=
    declared_callAll_withPlan plan (rows.flatMap rowCalls ++ .beginRow :: puts.map .put)
  have htargets : callTargets plan (rows.flatMap rowCalls ++ .beginRow :: puts.map .put) =
      callTargets plan (rows.flatMap rowCalls) ++
        callTargets plan (.beginRow :: puts.map .put) := List.filterMap_append
  rw [← inRow_eq_callAll] at hdeclared' hplan' hunknown'
  rw [htargets, planTyped, List.map_append, RowTable.declareAll_append, ← planTyped,
    ← planTyped] at hdeclared'
  rw [← feed_eq_callAll] at hdeclared hplan hunknown
  obtain ⟨hstrict', hundrained, hcolumns, hempty⟩ := hspared
  generalize (withPlan plan).feed rows = b at *
  -- the unfinished row only adds cells at the end of the columns, and columns of its own
  have hadds : b.strictError = none → b.Adds (b.beginRow.putAll puts) := fun hstrict =>
    (adds_of_columns (b := b) (u := b.beginRow) rfl rfl).trans
      (adds_putAll htall.beginRow (hundrained hstrict))
  generalize b.beginRow.putAll puts = u at *
  cases hstrict : b.strictError with
  | some err =>
      refine ⟨[], fun p hp => (List.not_mem_nil hp).elim, ?_⟩
      rw [finish_of_strictError hunknown hstrict,
        finish_of_strictError hunknown' (hstrict'.trans hstrict)]
      rfl
  | none =>
      have hresumes : b.Resumes u _ _ := ⟨hdeclared, hdeclared',
        RowTable.cols_prefix_declareAll _ _, hadds hstrict, hplan'.trans hplan.symm,
        fun c hc => ⟨htall.valid c hc, htall.tall c hc⟩, hstacked.valid⟩
      have hstrictu := hstrict'.trans hstrict
      -- without a projection the new columns are exported as nulls, and with one none of them is
      by_cases hschema : b.plan.schemaOrder = []
      · exact hresumes.finish_plain hunknown hunknown' hstrict hstrictu hschema
          (fun hnil hne => (hcolumns hstrict hnil hne).1) (hempty hstrict hschema)
      · refine ⟨[], fun p hp => (List.not_mem_nil hp).elim, ?_⟩
        have hsame := hresumes.finish_projected hunknown hunknown' hstrict hstrictu hschema
          (fun n hn => ?_) fun hnil => by_contra fun hne =>
            hschema (hcolumns hstrict hnil hne).2
        · rw [hsame]
          cases b.finish with
          | error err => rfl
          | ok batch => exact congrArg Except.ok batch.withNulls_nil.symm
        · rw [exportNames, if_neg (by simpa using hschema), List.mem_filter] at hn
          rw [hplan] at hn
          rw [RowTable.mem_names_declareAll]
          exact .inl (mem_names_predeclared hn.1 (by simpa using hn.2))

end TableBuilder

end Unfinished

namespace TableBuilder

section Examples

attribute [local instance] integerPlatform

/-- A plan that keeps the rows with `k = "1"`. -/
def keepsOnes : ExecutionPlan := { filter := some (.equal "k" "1") }

/-- A complete row that the plan keeps. -/
def keptRow : List Put := [.field "k" (.str "1"), .field "a" (.str "x")]

/-- A row that is cut short before its filter field is seen: the value it has given so far waits in
the row buffer, and `finish` gives the rows before it. -/
theorem finish_unfinished_early :
    ∃ extra : Schema,
      (∀ p ∈ extra, p.1 ∉ ((withPlan keepsOnes).feed [keptRow]).columnOrder) ∧
      (((withPlan keepsOnes).feed [keptRow]).beginRow.putAll
          [.resolveAndPut "a" (.str "x")]).finish =
        ((withPlan keepsOnes).feed [keptRow]).finish.map (·.withNulls extra) := by
  refine finish_unfinished keepsOnes _ _
    ⟨by decide, fun _ => ?_, fun _ hnil => ?_, fun _ _ hzero => ?_⟩
  · rw [IsDirect]
    decide
  · exact absurd hnil (by decide)
  · exact absurd hzero (by decide)

/-- A row that has passed the filter in the middle is counted, and its values stay in the columns, but the
columns it has not reached are not filled up: Arrow refuses the batch, where the complete row alone is
exported. -/
theorem finish_unfinished_falls :
    ¬ ∀ (plan : ExecutionPlan) (rows : List (List Put)) (puts : List Put), ∃ extra : Schema,
      (∀ p ∈ extra, p.1 ∉ ((withPlan plan).feed rows).columnOrder) ∧
        (((withPlan plan).feed rows).beginRow.putAll puts).finish =
          ((withPlan plan).feed rows).finish.map (·.withNulls extra) := by
  intro h
  obtain ⟨extra, -, heq⟩ := h keepsOnes [keptRow] [.resolveAndPut "k" (.str "1")]
  have hcount : ∀ result : Except Error RecordBatch,
      ((result.map (·.withNulls extra)).toOption.map (·.rowCount)) =
        result.toOption.map (·.rowCount) := by
    intro result
    cases result <;> rfl
  replace heq := congrArg (fun result => result.toOption.map (·.rowCount)) heq
  rw [hcount] at heq
  exact absurd heq (by decide)

end Examples

end TableBuilder

end Rypipe
