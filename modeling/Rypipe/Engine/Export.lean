import Rypipe.Engine.Runs

/-! # The batch a builder exports

What `finish` makes of a builder between rows: a record batch over some of the columns of its table,
with one array for each, the cells of the column. `batchOf` is that batch, read off the table. -/

namespace Rypipe

variable [Platform]

/-- The Arrow type of a storage type. -/
def FieldType.arrowType : FieldType → DataType
  | .string => .utf8
  | .int64 => .int64
  | .float64 => .float64
  | .boolean => .boolean
  | .date32 => .date32
  | .timestamp unit _ => .timestamp unit
  | .decimal128 scale => .decimal128 38 (min scale 38 : Nat)
  | .dictionary => .dictionary

/-- Arrow has empty columns of the type. -/
def FieldType.HasEmpty : FieldType → Prop
  | .decimal128 scale => scale ≤ 38
  | _ => True

/-- A column of the first type may have become one of the second: texts may have become a
dictionary. -/
def FieldType.UpgradesTo (ty ty' : FieldType) : Prop :=
  ty' = ty ∨ ty = .string ∧ ty' = .dictionary

/-- A dictionary stores what the string column would. -/
theorem FieldType.UpgradesTo.store_eq {ty ty' : FieldType} (h : ty.UpgradesTo ty') :
    store ty' = store ty := by
  rcases h with rfl | ⟨rfl, rfl⟩
  · rfl
  · rfl

/-- The Arrow type of a column is that of its field type. -/
theorem ColumnBuilder.arrowDatatype_eq (c : ColumnBuilder) : c.arrowDatatype = c.kind.arrowType := by
  cases c <;> rfl

/-- The array of one column of a table. -/
def arrayOf (t : Table) (p : String × FieldType) : ArrayRef :=
  ⟨p.2.arrowType, t.column store p.1 p.2⟩

/-- The schema of some columns. -/
def schemaOf (cols : List (String × FieldType)) : Schema := cols.map fun p => (p.1, p.2.arrowType)

/-- The record batch of some columns of a table. -/
def batchOf (t : Table) (cols : List (String × FieldType)) : RecordBatch :=
  ⟨schemaOf cols, cols.map (arrayOf t), t.rows.length⟩

@[simp] theorem length_arrayOf (t : Table) (p : String × FieldType) :
    (arrayOf t p).values.length = t.rows.length := RowTable.length_column store t p.1 p.2

/-- Arrow accepts the columns of a table with their own number of rows. -/
theorem tryNewWithRows_arrayOf (t : Table) (cols : List (String × FieldType)) :
    RecordBatch.tryNewWithRows (schemaOf cols) (cols.map (arrayOf t)) t.rows.length =
      .ok (batchOf t cols) := by
  rw [RecordBatch.tryNewWithRows, if_neg (by simp [schemaOf]), if_neg (by simp), if_neg]
  · rfl
  · simp only [schemaOf, List.map_map, not_not]
    rfl

/-- Arrow accepts the columns of a table, unless there are none. -/
theorem tryNew_arrayOf (t : Table) {cols : List (String × FieldType)} (h : cols ≠ []) :
    RecordBatch.tryNew (schemaOf cols) (cols.map (arrayOf t)) = .ok (batchOf t cols) := by
  obtain ⟨p, cols, rfl⟩ := List.exists_cons_of_ne_nil h
  rw [RecordBatch.tryNew, List.map_cons, List.head?_cons]
  dsimp only
  rw [length_arrayOf]
  exact tryNewWithRows_arrayOf t (p :: cols)

namespace ColumnBuilder

/-- A column that stores the cells of a table's column exports the array of that column. -/
theorem Stores.toArrowArray {c : ColumnBuilder} {t : Table} {p : String × FieldType}
    (h : c.Stores p.2 (t.column store p.1 p.2)) (hne : t.rows ≠ [] ∨ p.2.HasEmpty) :
    c.toArrowArray = .ok (arrayOf t p, c.emptied) := by
  rw [toArrowArray_of_valid h.valid, arrowDatatype_eq, h.kind, h.cells]
  · rfl
  · rcases hne with hne | hne
    · refine Or.inl fun hnil => hne ?_
      rw [h.cells, ← List.length_eq_zero_iff, RowTable.length_column] at hnil
      exact List.length_eq_zero_iff.mp hnil
    · refine Or.inr fun scale hk => ?_
      rw [← h.kind, hk] at hne
      exact hne

/-- A column whose export can still be part of a batch of `t`: its own, or that of a column which has
been moved out. -/
structure Exports (c : ColumnBuilder) (t : Table) (p : String × FieldType) : Prop where
  kind : c.kind = p.2
  cells : c.Stores p.2 (t.column store p.1 p.2) ∨ c.cells = []

/-- Emptying a column keeps its type. -/
theorem kind_emptied (c : ColumnBuilder) : c.emptied.kind = c.kind := by
  cases c <;> rfl

/-- Moving a column out leaves it, or leaves it empty. -/
theorem emptied_eq_or (c : ColumnBuilder) : c.emptied = c ∨ c.emptied.cells = [] := by
  cases c with
  | decimal128 scale v => exact Or.inl rfl
  | _ => exact Or.inr rfl

/-- What an export leaves of a column: the cells go to the array, and the column stays as it is or
is emptied. -/
theorem toArrowArray_left {c left : ColumnBuilder} {array : ArrayRef}
    (h : c.toArrowArray = .ok (array, left)) :
    array.values = c.cells ∧ (c.cells ≠ [] → array.datatype = c.arrowDatatype) ∧
      (left = c ∨ left = c.emptied) := by
  cases c with
  | decimal128 scale v =>
      cases v with
      | nil =>
          rw [toArrowArray] at h
          split at h
          · cases h
          · cases h
            exact ⟨rfl, fun hne => absurd rfl hne, Or.inl rfl⟩
      | cons a v =>
          cases h
          exact ⟨rfl, fun _ => rfl, Or.inr rfl⟩
  | dictionary codes dict =>
      rw [toArrowArray] at h
      split at h
      · cases h
      · cases h
        exact ⟨rfl, fun _ => rfl, Or.inr rfl⟩
  | _ =>
      cases h
      exact ⟨rfl, fun _ => rfl, Or.inr rfl⟩

/-- Exporting a column gives the array of the table's column, or an empty array, and what is left
can be exported again. -/
theorem Exports.toArrowArray {c left : ColumnBuilder} {t : Table} {p : String × FieldType}
    {array : ArrayRef} (hc : c.Exports t p) (h : c.toArrowArray = .ok (array, left)) :
    (array = arrayOf t p ∨ array.values = []) ∧ c.arrowDatatype = p.2.arrowType ∧
      left.Exports t p := by
  obtain ⟨hvalues, htype, hleft⟩ := toArrowArray_left h
  have hdatatype : c.arrowDatatype = p.2.arrowType := by rw [arrowDatatype_eq, hc.kind]
  refine ⟨?_, hdatatype, ?_⟩
  · by_cases hnil : c.cells = []
    · exact Or.inr (hvalues.trans hnil)
    · rcases hc.cells with hst | hempty
      · refine Or.inl ?_
        cases array
        rw [arrayOf, ← hst.cells, ← hdatatype, ← htype hnil, ← hvalues]
      · exact absurd hempty hnil
  · rcases hleft with rfl | rfl
    · exact hc
    · refine ⟨(kind_emptied c).trans hc.kind, ?_⟩
      rcases emptied_eq_or c with heq | hempty
      · rw [heq]
        exact hc.cells
      · exact Or.inr hempty

end ColumnBuilder

namespace TableBuilder

/-- Distinct slots of columns that store the table's columns export their arrays. -/
theorem exportSlots_ok {columns : List ColumnBuilder} {t : Table} {slots : List (String × Nat)}
    (ty : String → FieldType) (h : ∀ s ∈ slots, ∃ c : ColumnBuilder, columns[s.2]? = some c ∧
      c.Stores (ty s.1) (t.column store s.1 (ty s.1)))
    (hnodup : (slots.map Prod.snd).Nodup)
    (hne : t.rows ≠ [] ∨ ∀ s ∈ slots, (ty s.1).HasEmpty) :
    exportSlots columns slots = .ok (schemaOf (slots.map fun s => (s.1, ty s.1)),
      (slots.map fun s => (s.1, ty s.1)).map (arrayOf t)) := by
  induction slots generalizing columns with
  | nil => rfl
  | cons slot slots ih =>
      obtain ⟨hidx, hnodup⟩ := List.nodup_cons.mp hnodup
      obtain ⟨c, hc, hst⟩ := h slot List.mem_cons_self
      have harray : c.toArrowArray = .ok (arrayOf t (slot.1, ty slot.1), c.emptied) :=
        hst.toArrowArray (hne.imp_right fun h => h slot List.mem_cons_self)
      have hcolumns : ∀ s ∈ slots, ∃ c' : ColumnBuilder,
          (columns.set slot.2 c.emptied)[s.2]? = some c' ∧
            c'.Stores (ty s.1) (t.column store s.1 (ty s.1)) := by
        intro s hs
        have hother : slot.2 ≠ s.2 := fun heq => hidx (heq ▸ List.mem_map_of_mem hs)
        rw [List.getElem?_set_ne hother]
        exact h s (List.mem_cons_of_mem _ hs)
      have hrest := ih hcolumns hnodup
        (hne.imp_right fun h s hs => h s (List.mem_cons_of_mem _ hs))
      rw [exportSlots, hc]
      simp only [harray, bind, Except.bind, hrest]
      rw [c.arrowDatatype_eq, hst.kind]
      rfl

/-- Whatever slots are exported, an array is that of the table's column or empty. It is empty for a
column without a row, whose array has the type but no values. -/
theorem exportSlots_sound {columns : List ColumnBuilder} {t : Table} {slots : List (String × Nat)}
    (ty : String → FieldType) (h : ∀ s ∈ slots, ∃ c : ColumnBuilder, columns[s.2]? = some c ∧
      c.Exports t (s.1, ty s.1)) (hname : ∀ s ∈ slots, ∀ s' ∈ slots, s.2 = s'.2 → s.1 = s'.1)
    {schema : Schema} {arrays : List ArrayRef}
    (hok : exportSlots columns slots = .ok (schema, arrays)) :
    schema = schemaOf (slots.map fun s => (s.1, ty s.1)) ∧
      List.Forall₂ (fun a s => a = arrayOf t (s.1, ty s.1) ∨ a.values = []) arrays slots := by
  induction slots generalizing columns schema arrays with
  | nil =>
      cases hok
      exact ⟨rfl, .nil⟩
  | cons slot slots ih =>
      obtain ⟨c, hc, hex⟩ := h slot List.mem_cons_self
      rw [exportSlots, hc] at hok
      cases harray : c.toArrowArray with
      | error err => simp [harray, bind, Except.bind] at hok
      | ok out =>
          obtain ⟨array, left⟩ := out
          obtain ⟨hcell, htype, hleft⟩ := hex.toArrowArray harray
          simp only [harray, bind, Except.bind] at hok
          cases hrest : exportSlots (columns.set slot.2 left) slots with
          | error err => simp [hrest] at hok
          | ok out =>
              obtain ⟨fields, rest⟩ := out
              simp only [hrest, Except.ok.injEq, Prod.mk.injEq] at hok
              obtain ⟨rfl, rfl⟩ := hok
              -- a dictionary is moved out of its column, so the column is read again only under
              -- the same name
              have hcolumns : ∀ s ∈ slots, ∃ c' : ColumnBuilder,
                  (columns.set slot.2 left)[s.2]? = some c' ∧ c'.Exports t (s.1, ty s.1) := by
                intro s hs
                obtain ⟨c', hc', hex'⟩ := h s (List.mem_cons_of_mem _ hs)
                by_cases heq : slot.2 = s.2
                · have hs' := hname slot List.mem_cons_self s (List.mem_cons_of_mem _ hs) heq
                  refine ⟨left, ?_, hs' ▸ hleft⟩
                  rw [← heq, List.getElem?_set_self (List.getElem?_eq_some_iff.mp hc).1]
                · exact ⟨c', by rw [List.getElem?_set_ne heq, hc'], hex'⟩
              obtain ⟨rfl, harrays⟩ := ih hcolumns (fun s hs s' hs' =>
                hname s (List.mem_cons_of_mem _ hs) s' (List.mem_cons_of_mem _ hs')) hrest
              exact ⟨by rw [htype]; rfl, .cons hcell harrays⟩

/-- Exported arrays none of which is empty are those of the table's columns. -/
theorem eq_map_arrayOf {t : Table} {slots : List (String × Nat)} (ty : String → FieldType)
    {arrays : List ArrayRef} (h : List.Forall₂
      (fun a s => a = arrayOf t (s.1, ty s.1) ∨ a.values = []) arrays slots)
    (hwhole : ∀ a ∈ arrays, a.values ≠ []) :
    arrays = (slots.map fun s => (s.1, ty s.1)).map (arrayOf t) := by
  induction h with
  | nil => rfl
  | @cons a s arrays slots ha hrest ih =>
      have hs := ha.resolve_right (hwhole a List.mem_cons_self)
      have htail := ih fun a' ha' => hwhole a' (List.mem_cons_of_mem _ ha')
      rw [List.map_cons, List.map_cons, ← htail, ← hs]

/-- A batch that Arrow accepts has the whole arrays, once it has a row. -/
theorem tryNew_sound {t : Table} {slots : List (String × Nat)} (ty : String → FieldType)
    {arrays : List ArrayRef} (h : List.Forall₂
      (fun a s => a = arrayOf t (s.1, ty s.1) ∨ a.values = []) arrays slots)
    {schema : Schema} {batch : RecordBatch} (hok : RecordBatch.tryNew schema arrays = .ok batch)
    (hrows : 0 < batch.rowCount) :
    batch.schema = schema ∧
      batch.columns = (slots.map fun s => (s.1, ty s.1)).map (arrayOf t) ∧
      batch.rowCount = t.rows.length := by
  rw [RecordBatch.tryNew] at hok
  cases hhead : arrays.head? with
  | none => simp [hhead] at hok
  | some a =>
      rw [hhead] at hok
      dsimp only at hok
      rw [RecordBatch.tryNewWithRows] at hok
      split at hok
      · cases hok
      split at hok
      · cases hok
      · next hlen =>
        split at hok
        · cases hok
        · cases hok
          dsimp only at hrows ⊢
          simp only [List.any_eq_true, bne_iff_ne, not_exists, not_and, not_not] at hlen
          -- Arrow takes the row count from the first array, so none of them is empty
          have hwhole : ∀ x ∈ arrays, x.values ≠ [] := by
            intro x hx hnil
            rw [← hlen x hx, hnil] at hrows
            exact lt_irrefl 0 hrows
          have harrays := eq_map_arrayOf ty h hwhole
          refine ⟨rfl, harrays, ?_⟩
          obtain ⟨s, -, rfl⟩ := List.mem_map.mp (harrays ▸ List.mem_of_mem_head? hhead)
          rw [length_arrayOf]

section Finish

variable {b : TableBuilder} {t : Table}

/-- A builder without recorded errors is ready to be finished. -/
theorem Between.prepareFinish (h : b.Between t) (hunknown : b.unknownError = none)
    (hstrict : b.strictError = none) :
    ∃ b', b.prepareFinish = .ok b' ∧ b'.Between t ∧ b'.columnOrder = b.columnOrder ∧
      b'.plan = b.plan := by
  have hnote : (b.notify (.chunkFinished (b.rowsAccepted + b.rowsRejected) b.rowsAccepted
      b.rowsRejected)).Between t :=
    ⟨⟨h.sound.holds, h.sound.order, h.sound.known, h.sound.rowBuf⟩, h.rowCount⟩
  refine ⟨_, ?_, hnote.normalize, rfl, rfl⟩
  rw [TableBuilder.prepareFinish, hunknown, hstrict]

/-- Only a builder without recorded errors can be finished. -/
theorem errors_of_prepareFinish {b' : TableBuilder} (h : b.prepareFinish = .ok b') :
    b.unknownError = none ∧ b.strictError = none := by
  rw [TableBuilder.prepareFinish] at h
  cases hunknown : b.unknownError with
  | some message => simp [hunknown] at h
  | none =>
      cases hstrict : b.strictError with
      | some err => simp [hunknown, hstrict] at h
      | none => exact ⟨rfl, rfl⟩

/-- A builder with recorded errors is not exported. -/
theorem errors_of_finish {batch : RecordBatch} (h : b.finish = .ok batch) :
    b.unknownError = none ∧ b.strictError = none := by
  cases hprep : b.prepareFinish with
  | error err => simp [TableBuilder.finish, hprep, bind, Except.bind] at h
  | ok b₁ => exact errors_of_prepareFinish hprep

/-- The types an upgrade of the columns gives: a string column may become a dictionary. -/
def upgradedType (b : TableBuilder) (up : ColumnBuilder → ColumnBuilder) (name : String)
    (ty : FieldType) : FieldType :=
  if ty = .string ∧ ((b.fieldIndex.lookup name).bind fun i => (b.columns[i]?).map
    fun c => (up c).kind) = some .dictionary then .dictionary else ty

/-- A column is exported with its type or, if it is a string column that was upgraded, as a
dictionary. -/
theorem upgradesTo_upgradedType (b : TableBuilder) (up : ColumnBuilder → ColumnBuilder)
    (name : String) (ty : FieldType) : ty.UpgradesTo (b.upgradedType up name ty) := by
  rw [upgradedType]
  split
  · next h => exact .inr ⟨h.1, rfl⟩
  · exact .inl rfl

/-- The automatic dictionary upgrade only changes the types of columns, to types that keep the same
of every value. So the table that the columns hold has the same rows, read with other types. -/
theorem Between.autoDictUpgrade (h : b.Between t) :
    ∃ f : String → FieldType → FieldType, (∀ name ty, FieldType.UpgradesTo ty (f name ty)) ∧
      (b.plan.autoDict = false → f = fun _ ty => ty) ∧
      b.autoDictUpgrade.Between (t.retype f) := by
  by_cases hauto : b.plan.autoDict = true
  · rw [TableBuilder.autoDictUpgrade, if_pos hauto]
    dsimp only
    generalize b.plan.dictThreshold.getD (Platform.scientific 5 2) = maxRatio
    generalize b.plan.dictMaxSize.getD 256 = maxSize
    refine ⟨b.upgradedType (ColumnBuilder.tryUpgradeToDict 512 maxRatio maxSize),
      upgradesTo_upgradedType b _, fun hfalse => absurd (hauto.symm.trans hfalse) (by simp), ?_⟩
    refine ⟨⟨h.sound.holds.retype _ ?_, ?_, ?_, h.sound.rowBuf⟩, h.rowCount⟩
    · intro i p c hp hc hst
      rw [RowTable.column_congr store (upgradesTo_upgradedType b _ p.1 p.2).store_eq]
      have hkind : ((b.fieldIndex.lookup p.1).bind fun i => (b.columns[i]?).map fun c =>
          (ColumnBuilder.tryUpgradeToDict 512 maxRatio maxSize c).kind) =
          some (ColumnBuilder.tryUpgradeToDict 512 maxRatio maxSize c).kind := by
        rw [h.sound.holds.lookup_of_cols hp, Option.bind_some, hc, Option.map_some]
      rw [upgradedType]
      simp only [hkind, Option.some.injEq]
      -- a column is upgraded or stays, and stores the same cells either way
      rcases hst.tryUpgradeToDict 512 maxRatio maxSize with hup | ⟨hty, hup⟩
      · rw [hup.kind, if_neg]
        · exact hup
        · rintro ⟨hs, hd⟩
          cases hs.symm.trans hd
      · rw [hup.kind, if_pos ⟨hty, rfl⟩]
        exact hup
    · rw [RowTable.names_retype]
      exact h.sound.order
    · rw [RowTable.names_retype]
      exact h.sound.known
  · rw [TableBuilder.autoDictUpgrade, if_neg hauto]
    refine ⟨fun _ ty => ty, fun _ _ => .inl rfl, fun _ => rfl, ?_⟩
    have hretype : t.retype (fun _ ty => ty) = t := by
      cases t
      simp [RowTable.retype]
    rw [hretype]
    exact h

/-- The slots of some names, in order. -/
def slotsOf (index : StrMap Nat) (names : List String) : List (String × Nat) :=
  names.filterMap fun n => (index.lookup n).map fun i => (n, i)

/-- The columns of some names with their types in the table. -/
def typed (t : Table) (names : List String) : List (String × FieldType) :=
  names.map fun n => (n, (t.typeOf n).getD .string)

/-- The columns of a batch of a table, by name: the array of the table's column for a name that is
exported, and none otherwise. -/
theorem columnByName_batchOf (u : Table) (names : List String) (n : String) :
    (n ∈ names → (batchOf u (typed u names)).columnByName n =
      some (arrayOf u (n, (u.typeOf n).getD .string))) ∧
    (n ∉ names → (batchOf u (typed u names)).columnByName n = none) := by
  obtain ⟨hfound, hnone⟩ := find?_typed (fun n => (u.typeOf n).getD .string) names n
  rw [batchOf, schemaOf, RecordBatch.columnByName_map, typed]
  constructor
  · intro hn
    rw [hfound hn]
    rfl
  · intro hn
    rw [hnone hn]
    rfl

section Slots

variable {columns : List ColumnBuilder} {index : StrMap Nat} {dirty : WordSet 64}
  {names : List String}

/-- The slots of columns of the table, with the types that the table has for their names. -/
theorem slotsOf_eq (h : Layout columns index dirty t noRow) (hnames : ∀ n ∈ names, n ∈ t.names) :
    (slotsOf index names).map (fun s => (s.1, (t.typeOf s.1).getD .string)) = typed t names ∧
      ∀ s ∈ slotsOf index names, index.lookup s.1 = some s.2 ∧ ∃ c : ColumnBuilder,
        columns[s.2]? = some c ∧ c.Stores ((t.typeOf s.1).getD .string)
          (t.column store s.1 ((t.typeOf s.1).getD .string)) := by
  induction names with
  | nil => exact ⟨rfl, fun s hs => by cases hs⟩
  | cons n names ih =>
      obtain ⟨hmap, hall⟩ := ih fun m hm => hnames m (List.mem_cons_of_mem _ hm)
      obtain ⟨p, hp, rfl⟩ := List.mem_map.mp (hnames n List.mem_cons_self)
      obtain ⟨i, hi⟩ := List.mem_iff_getElem?.mp hp
      have hlook := h.lookup_of_cols hi
      have hty : t.typeOf p.1 = some p.2 := RowTable.typeOf_eq_some.mpr hp
      have hcons : slotsOf index (p.1 :: names) = (p.1, i) :: slotsOf index names := by
        rw [slotsOf, List.filterMap_cons, hlook]
        rfl
      rw [hcons]
      refine ⟨by rw [List.map_cons, hmap]; rfl, fun s hs => ?_⟩
      rcases List.mem_cons.mp hs with rfl | hs
      · obtain ⟨c, hc, hst⟩ := h.stored i p hi
        rw [pending_noRow, List.append_nil] at hst
        rw [hty, Option.getD_some]
        exact ⟨hlook, c, hc, hst⟩
      · exact hall s hs

/-- Distinct names have distinct slots, so no column is exported twice. -/
theorem nodup_slotsOf (h : Layout columns index dirty t noRow) (hnodup : names.Nodup) :
    ((slotsOf index names).map Prod.snd).Nodup := by
  rw [slotsOf, List.map_filterMap]
  refine hnodup.filterMap fun m n i hm hn => ?_
  simp only [Option.map_map, Option.mem_def, Option.map_eq_some_iff] at hm hn
  obtain ⟨j, hj, rfl⟩ := hm
  obtain ⟨k, hk, hkj⟩ := hn
  have hslot : k = j := hkj
  rw [h.indexed] at hj hk
  rw [hslot] at hk
  exact Option.some.inj (hj.symm.trans hk)

/-- A slot has one name. -/
theorem name_of_slotsOf (h : Layout columns index dirty t noRow) (s : String × Nat)
    (hs : index.lookup s.1 = some s.2) (s' : String × Nat) (hs' : index.lookup s'.1 = some s'.2)
    (heq : s.2 = s'.2) : s.1 = s'.1 := by
  rw [h.indexed] at hs hs'
  rw [← heq] at hs'
  exact Option.some.inj (hs.symm.trans hs')

/-- Columns of the table under distinct names are exported, as long as there is a row or each type
has an empty array. -/
theorem exportSlots_slotsOf (h : Layout columns index dirty t noRow)
    (hnames : ∀ n ∈ names, n ∈ t.names) (hnodup : names.Nodup)
    (hne : t.rows ≠ [] ∨ ∀ p ∈ typed t names, p.2.HasEmpty) :
    exportSlots columns (slotsOf index names) =
      .ok (schemaOf (typed t names), (typed t names).map (arrayOf t)) := by
  obtain ⟨hmap, hall⟩ := slotsOf_eq h hnames
  rw [← hmap]
  refine exportSlots_ok (fun n => (t.typeOf n).getD .string) (fun s hs => (hall s hs).2)
    (nodup_slotsOf h hnodup) (hne.imp_right fun hempty s hs => ?_)
  exact hempty (s.1, (t.typeOf s.1).getD .string) (hmap ▸ List.mem_map_of_mem hs)

/-- A batch with rows that is exported from columns of the table is the batch of those columns. -/
theorem batch_of_slotsOf (h : Layout columns index dirty t noRow)
    (hnames : ∀ n ∈ names, n ∈ t.names) {schema : Schema} {arrays : List ArrayRef}
    (hok : exportSlots columns (slotsOf index names) = .ok (schema, arrays)) {batch : RecordBatch}
    (hbatch : RecordBatch.tryNew schema arrays = .ok batch) (hrows : 0 < batch.rowCount) :
    batch = batchOf t (typed t names) := by
  obtain ⟨hmap, hall⟩ := slotsOf_eq h hnames
  obtain ⟨rfl, harrays⟩ := exportSlots_sound (fun n => (t.typeOf n).getD .string)
    (fun s hs => by
      obtain ⟨c, hc, hst⟩ := (hall s hs).2
      exact ⟨c, hc, hst.kind, Or.inl hst⟩)
    (fun s hs s' hs' => name_of_slotsOf h s (hall s hs).1 s' (hall s' hs').1) hok
  obtain ⟨hschema, hcolumns, hcount⟩ := tryNew_sound
    (fun n => (t.typeOf n).getD .string) harrays hbatch hrows
  rw [hmap] at hschema hcolumns
  cases batch
  simp only at hschema hcolumns hcount
  rw [hschema, hcolumns, hcount, batchOf]

end Slots

/-- The columns `finish` adds for the projected names declare them. A name of the projection that
has no column gets one of missing cells, as long as the row count; the others are found where they
are. -/
theorem projectColumns_layout {b : TableBuilder} {t : Table} {dirty : WordSet 64}
    (h : Layout b.columns b.fieldIndex dirty t noRow) (hcount : b.rowCount = t.rows.length)
    (names : List String) (hroom : b.columns.length + names.length ≤ dirty.capacity) :
    Layout (b.projectColumns names).1.columns (b.projectColumns names).1.fieldIndex dirty
        (t.declareAll (names.map fun n => (n, b.plan.columnType n))) noRow ∧
      (b.projectColumns names).2 = slotsOf (b.projectColumns names).1.fieldIndex names ∧
      ∀ n i, b.fieldIndex.lookup n = some i →
        (b.projectColumns names).1.fieldIndex.lookup n = some i := by
  induction names generalizing b t with
  | nil => exact ⟨h, rfl, fun n i hi => hi⟩
  | cons name names ih =>
      rw [List.length_cons] at hroom
      -- one name: its column is found or declared, and no other name moves
      have hstep : ∃ idx, (b.projectColumn name).2 = idx ∧
          (b.projectColumn name).1.fieldIndex.lookup name = some idx ∧
          Layout (b.projectColumn name).1.columns (b.projectColumn name).1.fieldIndex dirty
            (t.declare name (b.plan.columnType name)) noRow ∧
          (b.projectColumn name).1.columns.length ≤ b.columns.length + 1 ∧
          (b.projectColumn name).1.plan = b.plan ∧
          (b.projectColumn name).1.rowCount = b.rowCount ∧
          ∀ n i, b.fieldIndex.lookup n = some i →
            (b.projectColumn name).1.fieldIndex.lookup n = some i := by
        rw [projectColumn]
        cases hlook : b.fieldIndex.lookup name with
        | some idx =>
            have hmem : name ∈ t.names := List.mem_of_getElem? ((h.indexed name idx).mp hlook)
            rw [RowTable.declare_of_mem hmem]
            exact ⟨idx, rfl, hlook, h, Nat.le_succ _, rfl, rfl, fun n i hi => hi⟩
        | none =>
            have hnot := (h.lookup_eq_none name).mp hlook
            -- a declared column holds one null for every row so far
            have hcol := (ColumnBuilder.ofType_stores (b.plan.columnType name)).pushNulls b.rowCount
            rw [List.nil_append, hcount] at hcol
            refine ⟨b.columns.length, rfl, AList.lookup_insert _, ?_, ?_, rfl, rfl, ?_⟩
            · exact h.appendColumn hnot (hcount ▸ hcol) (fun _ => rfl) (by omega)
            · simp
            · intro n i hi
              have hne : n ≠ name := by
                rintro rfl
                cases hlook.symm.trans hi
              exact (AList.lookup_insert_ne hne).trans hi
      obtain ⟨idx, hidx, hlook, hlayout, hlen, hplan, hrow, hkeep⟩ := hstep
      obtain ⟨hfinal, hslots, hkeep'⟩ := ih hlayout
        (by rw [hrow, hcount, RowTable.rows_declare]) (by omega)
      rw [hplan] at hfinal
      refine ⟨hfinal, ?_, fun n i hi => hkeep' n i (hkeep n i hi)⟩
      have hlook' : (b.projectColumns (name :: names)).1.fieldIndex.lookup name = some idx :=
        hkeep' name idx hlook
      rw [slotsOf, List.filterMap_cons, hlook']
      exact congrArg₂ List.cons (congrArg (Prod.mk name) hidx) hslots

/-- The names of the columns `finish` exports. -/
def exportNames (b : TableBuilder) : List String :=
  if b.plan.schemaOrder.isEmpty then b.columnOrder
  else b.plan.schemaOrder.filter fun n => !(n ∈ b.plan.dropFields : Bool)

/-- What the exported table `u` has in common with the table of the builder: its rows, and the types of
its columns, up to the upgrade. -/
structure UpgradeOf (plan : ExecutionPlan) (t u : Table) : Prop where
  rows : u.rows = t.rows
  types : ∀ n ty, u.typeOf n = some ty →
    ((t.typeOf n).getD (plan.columnType n)).UpgradesTo ty

/-- Giving the columns of a table types they upgrade to leaves the rows. -/
theorem UpgradeOf.retype (plan : ExecutionPlan) (t : Table) {f : String → FieldType → FieldType}
    (hf : ∀ name ty, FieldType.UpgradesTo ty (f name ty)) : UpgradeOf plan t (t.retype f) where
  rows := rfl
  types n ty hty := by
    rw [RowTable.typeOf_retype] at hty
    obtain ⟨ty', hty', rfl⟩ := Option.map_eq_some_iff.mp hty
    rw [hty', Option.getD_some]
    exact hf n ty'

/-- The columns added for projected names have the types of the plan. -/
theorem UpgradeOf.declareAll (plan : ExecutionPlan) (t : Table)
    {f : String → FieldType → FieldType} (hf : ∀ name ty, FieldType.UpgradesTo ty (f name ty))
    (names : List String) :
    UpgradeOf plan t ((t.retype f).declareAll (names.map fun n => (n, plan.columnType n))) where
  rows := RowTable.rows_declareAll _ _
  types n ty hty := by
    rcases RowTable.typeOf_declareAll hty with hold | ⟨hnew, hmem⟩
    · exact (UpgradeOf.retype plan t hf).types n ty hold
    · rw [RowTable.typeOf_retype, Option.map_eq_none_iff] at hnew
      obtain ⟨m, -, heq⟩ := List.mem_map.mp hmem
      obtain ⟨rfl, rfl⟩ := Prod.mk.inj heq
      rw [hnew, Option.getD_none]
      exact .inl rfl

/-- The upgrade only changes the columns. -/
theorem autoDictUpgrade_frame (b : TableBuilder) :
    b.autoDictUpgrade.columnOrder = b.columnOrder ∧ b.autoDictUpgrade.plan = b.plan := by
  rw [TableBuilder.autoDictUpgrade]
  split <;> exact ⟨rfl, rfl⟩

/-- What `finish` exports: slots of the exported names, in columns that hold a table with the rows of
the builder. -/
structure ExportOf (b : TableBuilder) (t : Table) (batch : RecordBatch) : Prop where
  hasColumns : b.columnOrder ≠ []
  exported : ∃ (u : Table) (columns : List ColumnBuilder) (index : StrMap Nat) (dirty : WordSet 64)
    (schema : Schema) (arrays : List ArrayRef), UpgradeOf b.plan t u ∧
      Layout columns index dirty u noRow ∧ (∀ n ∈ b.exportNames, n ∈ u.names) ∧
      exportSlots columns (slotsOf index b.exportNames) = .ok (schema, arrays) ∧
      RecordBatch.tryNew schema arrays = .ok batch

/-- A builder exports nothing when it has no column, and its columns otherwise. The two paths of
`finish` are the plain export in export order and the projection in declared order; for both the
batch has the rows of the table, read with the types of the columns after the upgrade. -/
theorem Between.finish_cases (h : b.Between t) {batch : RecordBatch} (hok : b.finish = .ok batch) :
    b.columnOrder = [] ∧ batch = .newEmpty [] ∨ b.ExportOf t batch := by
  cases hprep : b.prepareFinish with
  | error err => simp [TableBuilder.finish, hprep, bind, Except.bind] at hok
  | ok b₁ =>
      obtain ⟨hunknown, hstrict⟩ := errors_of_prepareFinish hprep
      obtain ⟨b₁', hprep', h₁, horder₁, hplan₁⟩ := h.prepareFinish hunknown hstrict
      obtain rfl : b₁ = b₁' := Except.ok.inj (hprep.symm.trans hprep')
      rw [TableBuilder.finish, hprep] at hok
      simp only [bind, Except.bind] at hok
      split at hok
      · next hempty =>
        cases hok
        rw [horder₁, List.isEmpty_iff] at hempty
        exact .inl ⟨hempty, rfl⟩
      · next hempty =>
        rw [horder₁, List.isEmpty_iff] at hempty
        refine .inr ⟨hempty, ?_⟩
        obtain ⟨f, hf, -, h₂⟩ := h₁.autoDictUpgrade
        obtain ⟨horder₂, hplan₂⟩ := b₁.autoDictUpgrade_frame
        generalize b₁.autoDictUpgrade = b₂ at hok h₂ horder₂ hplan₂
        have hplan := hplan₂.trans hplan₁
        rw [hplan] at hok
        rw [exportNames]
        by_cases hschema : b.plan.schemaOrder.isEmpty = true
        · simp only [hschema, Bool.not_true, Bool.false_eq_true, ↓reduceIte] at hok ⊢
          have hsort : b₂.sortColumns = b₂ := by
            rw [sortColumns, hplan, if_pos hschema]
          rw [hsort, horder₂, horder₁] at hok
          cases hex : exportSlots b₂.columns (slotsOf b₂.fieldIndex b.columnOrder) with
          | error err => rw [slotsOf] at hex; simp [hex] at hok
          | ok out =>
              obtain ⟨schema, arrays⟩ := out
              refine ⟨t.retype f, b₂.columns, b₂.fieldIndex, b₂.rowDirty, schema, arrays,
                .retype _ _ hf, h₂.sound.holds, fun n hn => ?_, hex, ?_⟩
              · rw [RowTable.names_retype]
                exact h.sound.order.mem_iff.mp hn
              · rw [slotsOf] at hex
                simpa [hex] using hok
        · simp only [hschema, Bool.not_false, ↓reduceIte] at hok ⊢
          generalize hnames : b.plan.schemaOrder.filter (fun n => !decide (n ∈ b.plan.dropFields)) =
            names at hok ⊢
          -- the layout is stated for a dirty mask with room for the new columns
          have hgrow : Layout b₂.columns b₂.fieldIndex
              (b₂.rowDirty.growFor (b₂.columns.length + names.length)) (t.retype f) noRow :=
            h₂.sound.holds.congr_dirty (fun i => WordSet.test_growFor _ _ i)
              (le_trans (Nat.le_add_right _ _) (WordSet.capacity_growFor (by decide) _ _))
          obtain ⟨hlayout, hslots, -⟩ := projectColumns_layout hgrow h₂.rowCount names
            (WordSet.capacity_growFor (by decide) _ _)
          rw [hplan] at hlayout
          rw [hslots] at hok
          cases hex : exportSlots (b₂.projectColumns names).1.columns
              (slotsOf (b₂.projectColumns names).1.fieldIndex names) with
          | error err => simp [hex] at hok
          | ok out =>
              obtain ⟨schema, arrays⟩ := out
              refine ⟨_, _, _, _, schema, arrays, .declareAll b.plan t hf names, hlayout,
                fun n hn => ?_, hex, by simpa [hex] using hok⟩
              rw [RowTable.mem_names_declareAll]
              exact Or.inr (by simpa using hn)

/-- The first array of an export of columns that have rows is whole. -/
theorem head?_exportSlots {columns : List ColumnBuilder} {index : StrMap Nat} {dirty : WordSet 64}
    {u : Table} (h : Layout columns index dirty u noRow) {names : List String}
    (hnames : ∀ n ∈ names, n ∈ u.names) {schema : Schema} {arrays : List ArrayRef}
    (hok : exportSlots columns (slotsOf index names) = .ok (schema, arrays)) :
    ∀ a, arrays.head? = some a → a.values.length = u.rows.length := by
  obtain ⟨-, hall⟩ := slotsOf_eq h hnames
  cases hslots : slotsOf index names with
  | nil =>
      rw [hslots] at hok
      cases hok
      intro a ha
      cases ha
  | cons s slots =>
      rw [hslots] at hok hall
      obtain ⟨-, c, hc, hst⟩ := hall s List.mem_cons_self
      rw [exportSlots, hc] at hok
      cases harray : c.toArrowArray with
      | error err => simp [harray, bind, Except.bind] at hok
      | ok out =>
          obtain ⟨array, left⟩ := out
          have hvalues := (ColumnBuilder.toArrowArray_left harray).1
          simp only [harray, bind, Except.bind] at hok
          cases hrest : exportSlots (columns.set s.2 left) slots with
          | error err => simp [hrest] at hok
          | ok out =>
              simp only [hrest, Except.ok.injEq, Prod.mk.injEq] at hok
              obtain ⟨-, rfl⟩ := hok
              intro a ha
              cases ha
              rw [hvalues, hst.cells, RowTable.length_column]

/-- An export has the rows of the builder: its arrays have one cell for each of them. -/
theorem ExportOf.rowCount {batch : RecordBatch} (h : b.ExportOf t batch) :
    batch.rowCount = t.rows.length := by
  obtain ⟨u, columns, index, dirty, schema, arrays, hupgrade, hlayout, hnames, hex, hnew⟩ :=
    h.exported
  have hhead := head?_exportSlots hlayout hnames hex
  rw [← hupgrade.rows]
  cases harrays : arrays with
  | nil =>
      rw [harrays] at hnew
      cases hnew
  | cons a rest =>
      rw [harrays] at hhead hnew
      rw [← hhead a rfl]
      exact ((RecordBatch.madeOf_of_tryNew hnew).rows a List.mem_cons_self).symm

/-- **A batch with rows that a builder exports is the batch of the exported names.** -/
theorem ExportOf.batch {batch : RecordBatch} (h : b.ExportOf t batch) (hrows : t.rows ≠ []) :
    ∃ u, UpgradeOf b.plan t u ∧ (∀ n ∈ b.exportNames, n ∈ u.names) ∧
      batch = batchOf u (typed u b.exportNames) := by
  have hcount := h.rowCount
  obtain ⟨u, columns, index, dirty, schema, arrays, hupgrade, hlayout, hnames, hex, hnew⟩ :=
    h.exported
  refine ⟨u, hupgrade, hnames, batch_of_slotsOf hlayout hnames hex hnew ?_⟩
  rw [hcount]
  exact List.length_pos_iff.mpr hrows

end Finish

end TableBuilder

end Rypipe
