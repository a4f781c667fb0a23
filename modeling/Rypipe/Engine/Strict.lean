import Rypipe.Engine.Declared

/-! # Strict typing

Under `strict_types` a builder checks every string against the declared type of its column before it
writes it, and remembers the first one that does not parse. So once a run finishes, every string of
an accepted row is stored; values of the other variants are not checked, and a column stores those
its type takes. -/

namespace Rypipe

section Strict

variable [Platform]

/-! ## The check and the conversion -/

/-- The strict check accepts the strings a column keeps. -/
theorem isSome_store_str (ty : FieldType) (s : String) :
    (store ty (.str s)).isSome = parsesAs s ty := by
  cases ty <;> simp [store, valueText, parsesAs]

/-- The native variants of a value that a column of a type takes. -/
def takesVariant : FieldType → Value → Bool
  | _, .null | _, .str _ => false
  | .string, _ | .dictionary, _ => true
  | .int64, .bool _ | .float64, .bool _ => false
  | .int64, _ | .float64, _ => true
  | .boolean, .bool _ | .date32, .date32 _ | .timestamp _ _, .timestamp _ => true
  | .boolean, _ | .date32, _ | .timestamp _ _, _ | .decimal128 _, _ => false

/-- A column keeps the strings that parse and the native values of the variants it takes. -/
theorem isSome_store (ty : FieldType) (value : Value) :
    (store ty value).isSome = ((value.asStr.any fun s => parsesAs s ty) || takesVariant ty value) := by
  cases value with
  | str s =>
      rw [isSome_store_str]
      cases ty <;> simp [Value.asStr, takesVariant]
  | _ => cases ty <;> simp [store, valueText, Value.asStr, takesVariant]

namespace TableBuilder

/-! ## Writes -/

/-- A write of a value in a row, by name or to a slot. -/
inductive Write where
  | named (p : Put)
  | toSlot (slot : Nat) (value : Value)
  | strToSlot (slot : Nat) (value : String)

/-- The call a write makes. -/
def Write.call : Write → Call
  | .named p => .put p
  | .toSlot slot value => .putFieldAt slot value
  | .strToSlot slot value => .putStrAt slot value

/-- Make a write. -/
def write (b : TableBuilder) (w : Write) : TableBuilder := b.call w.call

/-- Make a list of writes. -/
def writeAll (b : TableBuilder) (ws : List Write) : TableBuilder := ws.foldl write b

/-- Read one row of writes. -/
def writeRow (b : TableBuilder) (ws : List Write) : TableBuilder := (b.beginRow.writeAll ws).endRow

/-- Read a list of rows of writes. -/
def writeRows (b : TableBuilder) (rows : List (List Write)) : TableBuilder := rows.foldl writeRow b

/-- The column a write is for and its value, if the builder keeps it. -/
def written (b : TableBuilder) : Write → Option (String × Value)
  | .named p => (p.target b.plan).bind fun name =>
      if (b.exactWithout name).isSome then none else some (name, p.value)
  | .toSlot slot value => (b.columnOrder[slot]?).map fun name => (name, value)
  | .strToSlot slot value => (b.columnOrder[slot]?).map fun name => (name, .str value)

/-- The row in progress after a write. -/
def assignWrite (b : TableBuilder) (cur : CurrentRow) (w : Write) : CurrentRow :=
  match b.written w with
  | some (name, value) => Function.update cur name (some value)
  | none => cur

/-- The row in progress after a list of writes. -/
def assignWrites (b : TableBuilder) (cur : CurrentRow) : List Write → CurrentRow
  | [] => cur
  | w :: ws => (b.write w).assignWrites (b.assignWrite cur w) ws

/-- The contents of the rows the builder accepts: the last value written to each column. -/
def acceptedRows (b : TableBuilder) : List (List Write) → List CurrentRow
  | [] => []
  | ws :: rows =>
      (if b.rowCount < (b.writeRow ws).rowCount then [b.beginRow.assignWrites noRow ws] else []) ++
        (b.writeRow ws).acceptedRows rows

/-- The write is to a slot. -/
def Write.isSlot : Write → Bool
  | .named _ => false
  | .toSlot _ _ | .strToSlot _ _ => true

/-- The writes whose values stay: names are not of dropped columns; once the row has been drained, a
value goes through `resolve_and_put` or to a slot, to a column without a value in the row; and while the
row is buffered, values go to slots only where no value is buffered. -/
def Stays (b : TableBuilder) : Write → Prop
  | .named p =>
      (∀ name, p.target b.plan = some name → name ∉ b.plan.dropFields) ∧
        (b.rowBuf.any (·.direct) = true → ∀ name, p.target b.plan = some name →
          b.exactWithout name = none → (∃ raw value, p = .resolveAndPut raw value) ∧
            ∀ slot : Nat, b.fieldIndex.lookup name = some slot → b.rowDirty.test slot = false)
  | .toSlot slot _ | .strToSlot slot _ => b.buffering = true →
      if b.rowBuf.any (·.direct) then b.rowDirty.test slot = false
      else ∀ buf, b.rowBuf = some buf → Assoc.get buf.fields slot = none

/-- A value goes to a slot while the row is buffered. -/
def SlotsBuffered (b : TableBuilder) : List Write → Prop
  | [] => False
  | w :: ws => (w.isSlot = true ∧ b.buffering = true) ∨ (b.write w).SlotsBuffered ws

/-- Every write of a row stays. -/
def StaysAll (b : TableBuilder) : List Write → Prop
  | [] => True
  | w :: ws => b.Stays w ∧ (b.write w).StaysAll ws

/-- Every write of every row stays. A row with values in slots while it was buffered has to be accepted,
since the values of a rejected one are left in the columns. -/
def StaysRows (b : TableBuilder) : List (List Write) → Prop
  | [] => True
  | ws :: rows => b.beginRow.StaysAll ws ∧
      (b.beginRow.SlotsBuffered ws → b.rowCount < (b.writeRow ws).rowCount) ∧
      (b.writeRow ws).StaysRows rows

/-- `put_str_at` is `put_field_at` for a string. -/
theorem putStrAt_eq (b : TableBuilder) (slot : Nat) (value : String) :
    b.putStrAt slot value = b.putFieldAt slot (.str value) := by
  rw [putStrAt]
  split
  · rfl
  · rw [putFieldAt]
    split <;> rfl

/-! ## Slots and names -/

/-- The slots follow the export order, and every column has the type its plan gives it. -/
structure InOrder (b : TableBuilder) (t : Table) : Prop where
  order : b.columnOrder = t.names
  types : ∀ p ∈ t.cols, p.2 = b.plan.columnType p.1
  projected : ∀ name ∈ b.plan.schemaOrder, name ∉ b.plan.dropFields → name ∈ t.names

section Steps

variable {b b' : TableBuilder} {t : Table} {cur : CurrentRow}

/-- The index of a builder in a row finds the columns of the table. -/
theorem RowMode.indexed (h : b.RowMode t cur) : b.columns.length = t.cols.length ∧
    ∀ n (i : Nat), b.fieldIndex.lookup n = some i ↔ t.names[i]? = some n := by
  cases h with
  | columns h => exact ⟨h.sound.holds.size, h.sound.holds.indexed⟩
  | buffered buf h => exact ⟨h.sound.holds.size, h.sound.holds.indexed⟩
  | drained buf h => exact ⟨h.sound.holds.size, h.sound.holds.indexed⟩

/-- A row is being read, in one of the modes of a row, or into the row buffer with the values of some slots
in the columns; `early` holds then. -/
inductive WriteMode (b : TableBuilder) (t : Table) (cur : CurrentRow) (early : Prop) : Prop where
  | named (h : b.RowMode t cur)
  | slotted (cells held : CurrentRow) (buf : RowBuffer) (h : b.Holding t cells held buf)
      (hcur : overlay cells held = cur) (hearly : early)

section WriteMode

variable {early : Prop}

/-- The columns of the builder are those of the table, in any mode of the row. -/
theorem WriteMode.indexed (h : b.WriteMode t cur early) : b.columns.length = t.cols.length ∧
    ∀ n (i : Nat), b.fieldIndex.lookup n = some i ↔ t.names[i]? = some n := by
  cases h with
  | named h => exact h.indexed
  | slotted cells held buf h hcur hearly => exact ⟨h.sound.holds.size, h.sound.holds.indexed⟩

/-- The row in progress assigns columns of the table. -/
theorem WriteMode.within (h : b.WriteMode t cur early) (name : String) (hn : (cur name).isSome) :
    name ∈ t.names := by
  cases h with
  | named h => exact h.within name hn
  | slotted cells held buf h hcur hearly =>
      subst hcur
      exact h.within name hn

/-- A mode with slot writes stays one where the condition on them is weaker. -/
theorem WriteMode.mono (h : b.WriteMode t cur early) {early' : Prop} (himp : early → early') :
    b.WriteMode t cur early' := by
  cases h with
  | named h => exact .named h
  | slotted cells held buf h hcur hearly => exact .slotted cells held buf h hcur (himp hearly)

/-- A put goes on top of the values in the columns: assigning the buffered row and laying it over
them is assigning the row laid over them. -/
theorem assignPut_overlay (b : TableBuilder) (cells held : CurrentRow) (p : Put) :
    overlay cells (b.assignPut held p) = b.assignPut (overlay cells held) p := by
  rw [assignPut, assignPut]
  cases p.target b.plan with
  | none => rfl
  | some name =>
      cases hexact : b.exactWithout name with
      | none =>
          dsimp only
          rw [assignFor_of_none hexact, assignFor_of_none hexact, overlay_update_held]
      | some frozen =>
          dsimp only
          rw [assignFor_of_some hexact, assignFor_of_some hexact]

/-- A put that the builder keeps assigns the row in progress and declares its column, and the
builder is in a write mode again, with the same plan. -/
theorem WriteMode.put (h : b.WriteMode t cur early) {p : Put} (hp : b.Keeps p) :
    (b.put p).WriteMode (b.declarePut t p) (b.assignPut cur p) early ∧ b.SamePlan (b.put p) := by
  cases h with
  | named h => exact ⟨.named (h.put hp).1, (h.put hp).2⟩
  | slotted cells held buf h hcur hearly =>
      subst hcur
      have hdirect : b.rowBuf.any (·.direct) = false := by
        rw [h.rowBuf]
        exact h.direct
      obtain ⟨hout, hsame⟩ := h.put p fun name value resolved heq hunk hres =>
        hp.unknown hdirect h.buffering hunk name value resolved heq hres
      have hcur := b.assignPut_overlay cells held p
      refine ⟨?_, hsame⟩
      cases hout with
      | same h' => exact .slotted cells _ buf h' hcur hearly
      | buffered _ _ buf' h' _ => exact .slotted cells _ buf' h' hcur hearly
      | drained _ _ buf' h' _ _ _ _ _ _ =>
          rw [hcur] at h'
          exact .named (.drained buf' h')

/-- A row that has ended with values in the columns and was counted has been kept. -/
theorem Holding.keepsRow_of_lt {cells held : CurrentRow} {buf : RowBuffer}
    (h : b.Holding t cells held buf) (hlt : b.rowCount < b.endRow.rowCount) : b.keepsRow = true := by
  have hend : b.endRow = b.drainBuffered b.keepsRow := by
    rw [TableBuilder.endRow, keepsRow, h.buffering]
    simp only [Bool.not_true, Bool.false_eq_true, ↓reduceIte, h.rowBuf, h.direct, Bool.false_or]
  cases hkeeps : b.keepsRow with
  | true => rfl
  | false =>
      rw [hend, hkeeps, drainBuffered_false b h.rowBuf] at hlt
      exact absurd hlt (lt_irrefl _)

/-- `end_row` commits the row in progress, or drops it. A row with values in the columns is not
dropped. -/
theorem WriteMode.endRow (h : b.WriteMode t cur early)
    (hcounted : early → t.rows.length < b.endRow.rowCount) :
    b.endRow.Between (b.endTable t cur h.within) ∧ b.SamePlan b.endRow := by
  cases h with
  | named h => exact h.endRow
  | slotted cells held buf h hcur hearly =>
      have hlt : b.rowCount < b.endRow.rowCount := by
        rw [h.rowCount]
        exact hcounted hearly
      have hend := h.endRow (.inr (h.keepsRow_of_lt hlt))
      subst cur
      exact hend

end WriteMode

/-- The order speaks of the plan and of the export order only. -/
theorem InOrder.congr (h : b.InOrder t) (horder : b'.columnOrder = b.columnOrder)
    (hplan : b'.plan = b.plan) : b'.InOrder t := by
  refine ⟨horder.trans h.order, ?_, ?_⟩
  · rw [hplan]
    exact h.types
  · rw [hplan]
    exact h.projected

/-- Making sure of a column that is not dropped keeps the slots in order. -/
theorem InOrder.ensureColumnIdx (h : b.InOrder t) (hsize : b.columns.length = t.cols.length)
    (hindex : ∀ n (i : Nat), b.fieldIndex.lookup n = some i ↔ t.names[i]? = some n) {name : String}
    (hexact : b.exactWithout name = none) (hdrop : name ∉ b.plan.dropFields) :
    (b.ensureColumnIdx name).1.InOrder (t.declare name (b.plan.columnType name)) ∧
      (b.ensureColumnIdx name).1.columnOrder[(b.ensureColumnIdx name).2]? = some name ∧
      (b.ensureColumnIdx name).1.plan = b.plan ∧
      (b.ensureColumnIdx name).1.strictError = b.strictError := by
  rw [TableBuilder.ensureColumnIdx]
  cases hlook : b.fieldIndex.lookup name with
  | some i =>
      have hi := (hindex name i).mp hlook
      rw [RowTable.declare_of_mem (List.mem_of_getElem? hi)]
      exact ⟨h, h.order ▸ hi, rfl, rfl⟩
  | none =>
      have hname : name ∉ t.names := by
        intro hmem
        obtain ⟨i, hi⟩ := List.mem_iff_getElem?.mp hmem
        rw [(hindex name i).mpr hi] at hlook
        cases hlook
      -- a column of the schema order is there already, so the new one goes to the end
      have hlast := schemaInsertIndex_of_notMem fun hmem => hname (h.projected name hmem hdrop)
      have horder : (b.createColumn name).columnOrder = t.names ++ [name] := by
        show b.columnOrder.insertIdx (b.schemaInsertIndex name) name = _
        rw [hlast, List.insertIdx_length_self, h.order]
      simp only [hexact]
      refine ⟨⟨?_, ?_, ?_⟩, ?_, rfl, rfl⟩
      · rw [horder, names_declare_of_notMem hname]
      · intro p hp
        rcases RowTable.mem_cols_declare hp with hp | ⟨-, rfl⟩
        · exact h.types p hp
        · rfl
      · intro n hn hnot
        rw [RowTable.mem_names_declare]
        exact Or.inl (h.projected n hn hnot)
      · rw [horder, hsize, ← List.length_map Prod.fst]
        exact List.getElem?_concat_length

/-- A put of a column that is not dropped keeps the slots in order. -/
theorem InOrder.put (h : b.InOrder t) {early : Prop} (hmode : b.WriteMode t cur early) {p : Put}
    {name : String} (htarget : p.target b.plan = some name) (hexact : b.exactWithout name = none)
    (hdrop : name ∉ b.plan.dropFields) : (b.put p).InOrder (b.declarePut t p) := by
  obtain ⟨hsize, hindex⟩ := hmode.indexed
  have hquiet := quiet_put htarget hexact
  have hdeclare : b.declarePut t p = t.declare name (b.plan.columnType name) := by
    rw [declarePut, htarget]
    exact declareFor_of_none hexact
  rw [hdeclare]
  exact (h.ensureColumnIdx hsize hindex hexact hdrop).1.congr hquiet.order hquiet.plan

/-- The end of a row leaves the columns and their order alone. It only fills in their cells, so that
the columns are in the order of the table as before. -/
theorem InOrder.endRow (h : b.InOrder t) (hwithin : ∀ name, (cur name).isSome → name ∈ t.names)
    (hsame : b.SamePlan b.endRow) : b.endRow.InOrder (b.endTable t cur hwithin) := by
  have hcols : (b.endTable t cur hwithin).cols = t.cols := by
    rw [endTable]
    split <;> rfl
  have hplan := hsame.plan
  refine ⟨?_, ?_, ?_⟩
  · rw [b.quiet_endRow.order, h.order, RowTable.names, RowTable.names, hcols]
  · rw [hcols, hplan]
    exact h.types
  · rw [RowTable.names, hcols, hplan]
    exact h.projected

/-- Every string of a value parses as the type declared for its column. -/
def Checked (plan : ExecutionPlan) (name : String) (value : Value) : Prop :=
  ∀ s ty, value = .str s → plan.fieldTypes.lookup name = some ty → parsesAs s ty = true

/-- The check leaves no error exactly when there was none and the value is checked. -/
theorem strictError_recordStrictViolationAt {slot : Nat} {name : String}
    (hname : b.columnOrder[slot]? = some name) {value : Value} :
    (b.recordStrictViolationAt slot value).strictError = none ↔
      b.strictError = none ∧ (b.plan.strictTypes = true → Checked b.plan name value) := by
  rw [recordStrictViolationAt]
  by_cases hstrict : b.plan.strictTypes = true
  · simp only [hstrict, ↓reduceIte, Option.or_eq_none_iff, forall_true_left]
    refine and_congr_right fun _ => ?_
    constructor
    · rintro hviolation s ty rfl hty
      simp only [strictViolation, Value.asStr, hname, hty, bind, Option.bind] at hviolation
      split at hviolation
      · next hparses => exact hparses
      · cases hviolation
    · intro hchecked
      cases hstr : value.asStr with
      | none => simp [strictViolation, hstr]
      | some s =>
          have hvalue : value = .str s := by
            cases value with
            | str s' =>
                rw [Option.some.inj hstr]
            | _ => cases hstr
          cases hty : b.plan.fieldTypes.lookup name with
          | none => simp [strictViolation, hstr, hname, hty]
          | some ty => simp [strictViolation, hstr, hname, hty, hchecked s ty hvalue hty]
  · simp only [hstrict, Bool.false_eq_true, ↓reduceIte, false_implies, and_true]

/-- A value that passes the check is checked. -/
theorem checked_of_strictError (hstrict : b.plan.strictTypes = true) {slot : Nat} {name : String}
    (hname : b.columnOrder[slot]? = some name) {value : Value}
    (h : (b.recordStrictViolationAt slot value).strictError = none) :
    b.strictError = none ∧ Checked b.plan name value := by
  obtain ⟨hnone, hchecked⟩ := (strictError_recordStrictViolationAt hname).mp h
  exact ⟨hnone, hchecked hstrict⟩

/-- A put that stays assigns the row in progress a checked value, in every mode. The strict check is
made where the value goes to its column or is staged for it, with the column's own type, and since
no error is recorded the value has passed. -/
theorem WriteMode.putNamed {early : Prop} (h : b.WriteMode t cur early) (ho : b.InOrder t)
    (hstrict : b.plan.strictTypes = true) {p : Put} (hstays : b.Stays (.named p)) (hunknown : (b.put p).unknownError = none)
    (hok : (b.put p).strictError = none) :
    (b.put p).WriteMode (b.declarePut t p) (b.assignWrite cur (.named p)) early ∧
      (b.put p).InOrder (b.declarePut t p) ∧ b.SamePlan (b.put p) ∧ b.strictError = none ∧
      ∀ name value, b.written (.named p) = some (name, value) → Checked b.plan name value := by
  have hbefore : b.unknownError = none := @unknownError_of_call _ b (.put p) hunknown
  have hkeeps : b.Keeps p :=
    ⟨hstays.2, fun _ _ hsome => by rw [hbefore] at hsome; cases hsome⟩
  obtain ⟨hmode, hsame⟩ := h.put hkeeps
  -- a write by name assigns what `put` assigns
  have hassign : b.assignWrite cur (.named p) = b.assignPut cur p := by
    rw [assignWrite, assignPut, written]
    cases p.target b.plan with
    | none => rfl
    | some name =>
        cases hexact : b.exactWithout name with
        | none =>
            simp only [Option.bind_some, hexact, Option.isSome_none, Bool.false_eq_true, ↓reduceIte,
              assignFor_of_none hexact]
        | some frozen =>
            simp only [Option.bind_some, hexact, Option.isSome_some, ↓reduceIte,
              assignFor_of_some hexact]
  rw [hassign]
  cases htarget : p.target b.plan with
  | none =>
      have hput := put_of_dropped htarget
      have hdeclare : b.declarePut t p = t := by rw [declarePut, htarget]
      have hwritten : b.written (.named p) = none := by rw [written, htarget]; rfl
      rw [hput, hdeclare] at hmode ⊢
      rw [hput] at hok
      exact ⟨hmode, ho, .refl b, hok, fun name value hw => by rw [hwritten] at hw; cases hw⟩
  | some name =>
      cases hexact : b.exactWithout name with
      | some frozen =>
          -- a refused name would have left an error, and the run has none
          have hsome := (put_refused htarget hexact).2
          rw [hunknown] at hsome
          cases hsome
      | none =>
          have hwritten : b.written (.named p) = some (name, p.value) := by
            rw [written, htarget, Option.bind_some, hexact]
            rfl
          obtain ⟨hsize, hindex⟩ := h.indexed
          obtain ⟨-, hslot, hplan, hstrict'⟩ :=
            ho.ensureColumnIdx hsize hindex hexact (hstays.1 name htarget)
          -- the check is made where the name is admitted, and nothing after it records an error
          rw [(quiet_put htarget hexact).strict, admitField] at hok
          obtain ⟨hnone, hchecked⟩ := checked_of_strictError (hplan.symm ▸ hstrict) hslot hok
          refine ⟨hmode, ho.put h htarget hexact (hstays.1 name htarget), hsame,
            hstrict'.symm.trans hnone, ?_⟩
          intro n value hw
          obtain ⟨rfl, rfl⟩ := Prod.mk.inj (Option.some.inj (hwritten.symm.trans hw))
          exact hplan ▸ hchecked

/-- A value in a slot assigns a direct row. -/
theorem Direct.toSlot (h : b.Direct t cur) {slot : Nat} {p : String × FieldType}
    (hp : t.cols[slot]? = some p) (value : Value) :
    (b.putFieldAt slot value).Direct t (Function.update cur p.1 (some value)) := by
  have hlt : ¬ b.columns.length ≤ slot := by
    rw [h.sound.holds.size, not_le]
    exact (List.getElem?_eq_some_iff.mp hp).1
  have hwrite := h.sound.holds.write hp value (Or.inl h.rowCount)
  rw [putFieldAt, if_neg hlt]
  exact ⟨⟨hwrite, h.sound.order, h.sound.known, h.sound.rowBuf⟩, h.rowCount, h.buffering, h.direct⟩

/-- A value in a slot goes to the columns also while the row is buffered. It is the value of the row where
none is buffered for the slot. -/
theorem Holding.toSlot {cells held : CurrentRow} {buf : RowBuffer} (h : b.Holding t cells held buf)
    {slot : Nat} {p : String × FieldType} (hp : t.cols[slot]? = some p)
    (hfree : Assoc.get buf.fields slot = none) (value : Value) :
    (b.putFieldAt slot value).Holding t (Function.update cells p.1 (some value)) held buf ∧
      overlay (Function.update cells p.1 (some value)) held =
        Function.update (overlay cells held) p.1 (some value) := by
  have hlt : ¬ b.columns.length ≤ slot := by
    rw [h.sound.holds.size, not_le]
    exact (List.getElem?_eq_some_iff.mp hp).1
  have hwrite := h.sound.holds.write hp value (Or.inl h.rowCount)
  have hheld : held p.1 = none := by
    rw [← h.fields, h.sound.holds.lookup_of_cols hp]
    exact hfree
  refine ⟨?_, overlay_update_cells cells hheld value⟩
  rw [putFieldAt, if_neg hlt]
  refine ⟨h.rowBuf, h.worthwhile, h.direct,
    ⟨hwrite, h.sound.order, h.sound.known, h.sound.rowBuf⟩, h.rowCount, h.distinct, h.fields,
    fun q hq => ?_⟩
  have hlength : (b.columns.modify slot (overwrite b.rowCount value)).length = b.columns.length :=
    List.length_modify _ _ _
  exact (h.inRange q hq).trans_eq hlength.symm

/-- A value that is written to a slot whose bit is not set assigns the drained row. The column
already has the cells of all rows counted, and the value becomes its cell of the row. -/
theorem Drained.toSlot {buf : RowBuffer} (h : b.Drained t cur buf) {slot : Nat}
    {p : String × FieldType} (hp : t.cols[slot]? = some p) (hclean : b.rowDirty.test slot = false)
    (value : Value) :
    (b.putFieldAt slot value).Drained t (Function.update cur p.1 (some value)) buf := by
  have hlt : ¬ b.columns.length ≤ slot := by
    rw [h.sound.holds.size, not_le]
    exact (List.getElem?_eq_some_iff.mp hp).1
  have hnone : cur p.1 = none := by
    have hmark := h.sound.holds.marked slot p hp
    rw [hclean] at hmark
    exact Option.isNone_iff_eq_none.mp (Option.isSome_eq_false_iff.mp hmark.symm)
  -- the row is counted already, and the cell below the count is still missing
  have hwrite := h.sound.holds.write hp value (Or.inr ⟨h.rowCount, hnone⟩)
  rw [putFieldAt, if_neg hlt]
  exact ⟨h.rowBuf, h.worthwhile, h.direct,
    ⟨hwrite, h.sound.order, h.sound.known, h.sound.rowBuf⟩, h.rowCount⟩

/-- A value put to a slot assigns the row in progress where it stays, once it is checked. It goes
past the row buffer to the column; `Stays` asks that no buffered value overwrites it, and that the
drain does not come in between. -/
theorem WriteMode.putToSlot {early : Prop} (h : b.WriteMode t cur early) (ho : b.InOrder t)
    (hstrict : b.plan.strictTypes = true) {slot : Nat} {value : Value}
    (hstays : b.Stays (.toSlot slot value)) (hok : (b.putFieldAt slot value).strictError = none) :
    (b.putFieldAt slot value).WriteMode t (b.assignWrite cur (.toSlot slot value))
        (early ∨ b.buffering = true) ∧
      (b.putFieldAt slot value).InOrder t ∧ b.SamePlan (b.putFieldAt slot value) ∧
      b.strictError = none ∧
      ∀ name v, b.written (.toSlot slot value) = some (name, v) → Checked b.plan name v := by
  rw [assignWrite, written]
  cases hname : b.columnOrder[slot]? with
  | none =>
      -- there is no such slot
      have hlen : b.columns.length ≤ slot := by
        rw [ho.order, List.getElem?_eq_none_iff, RowTable.names, List.length_map] at hname
        rw [h.indexed.1]
        exact hname
      rw [putFieldAt, if_pos hlen] at hok ⊢
      exact ⟨h.mono .inl, ho, .refl b, hok, fun name v hw => by cases hw⟩
  | some name =>
      have hslot := hname
      rw [ho.order, RowTable.names, List.getElem?_map, Option.map_eq_some_iff] at hslot
      obtain ⟨p, hp, rfl⟩ := hslot
      have hlen : ¬ b.columns.length ≤ slot := by
        rw [h.indexed.1, not_le]
        exact (List.getElem?_eq_some_iff.mp hp).1
      have hmode : (b.putFieldAt slot value).WriteMode t (Function.update cur p.1 (some value))
          (early ∨ b.buffering = true) := by
        have hholding : ∀ {cells held : CurrentRow} {buf : RowBuffer}, b.Holding t cells held buf →
            overlay cells held = cur → (b.putFieldAt slot value).WriteMode t
              (Function.update cur p.1 (some value)) (early ∨ b.buffering = true) := by
          intro cells held buf hhold hover
          have hfree := hstays hhold.buffering
          rw [hhold.rowBuf, Option.any_some, hhold.direct, if_neg Bool.false_ne_true] at hfree
          obtain ⟨hput, hcur⟩ := hhold.toSlot hp (hfree buf rfl) value
          rw [hover] at hcur
          exact .slotted _ held buf hput hcur (.inr hhold.buffering)
        cases h with
        | named h =>
            cases h with
            | columns h => exact .named (.columns (h.toSlot hp value))
            | buffered buf h => exact hholding h (overlay_noRow cur)
            | drained buf h =>
                have hclean := hstays h.buffering
                rw [h.rowBuf, Option.any_some, h.direct, if_pos rfl] at hclean
                exact .named (.drained buf (h.toSlot hp hclean value))
        | slotted cells held buf h hcur hearly => exact hholding h hcur
      have hput : (b.putFieldAt slot value).columnOrder = b.columnOrder ∧
          b.SamePlan (b.putFieldAt slot value) := by
        rw [putFieldAt, if_neg hlen]
        exact ⟨rfl, rfl, rfl⟩
      rw [putFieldAt, if_neg hlen] at hok
      obtain ⟨hnone, hchecked⟩ := checked_of_strictError hstrict hname hok
      refine ⟨hmode, ho.congr hput.1 hput.2.plan, hput.2, hnone, ?_⟩
      rintro n v ⟨⟩
      exact hchecked

/-- The row in progress has no unchecked value. -/
def CheckedRow (plan : ExecutionPlan) (row : CurrentRow) : Prop :=
  ∀ name value, row name = some value → Checked plan name value

/-- A row of checked values stays one when a checked value is written to it. -/
theorem CheckedRow.assignWrite {plan : ExecutionPlan} (h : CheckedRow plan cur) {w : Write}
    (hw : ∀ name value, b.written w = some (name, value) → Checked plan name value) :
    CheckedRow plan (b.assignWrite cur w) := by
  rw [TableBuilder.assignWrite]
  split
  · next name value hwritten =>
    intro n v hn
    by_cases heq : n = name
    · subst heq
      rw [Function.update_self] at hn
      cases hn
      exact hw n value hwritten
    · rw [Function.update_of_ne heq] at hn
      exact h n v hn
  · exact h

/-- A violation is remembered. By the cases of a call: the check sets the error only where there is
none, so the first violation stays, and nothing but `reset` and the end of the run takes it. -/
theorem strictError_of_call {c : Call} (hunknown : (b.call c).unknownError = none)
    (hok : (b.call c).strictError = none) : b.strictError = none := by
  -- a violation is recorded only where there is none yet
  have hrecord : ∀ {b : TableBuilder} {slot : Nat} {value : Value},
      (b.recordStrictViolationAt slot value).strictError = none → b.strictError = none := by
    intro b slot value h
    rw [recordStrictViolationAt] at h
    dsimp only at h
    split at h
    · exact (Option.or_eq_none_iff.mp h).1
    · exact h
  have hslot : ∀ {slot : Nat} {value : Value}, (b.putFieldAt slot value).strictError = none →
      b.strictError = none := by
    intro slot value h
    rw [putFieldAt] at h
    split at h
    · exact h
    · exact hrecord h
  cases c with
  | beginRow => exact hok
  | put p =>
      cases htarget : p.target b.plan with
      | none =>
          have hput : b.call (.put p) = b := put_of_dropped htarget
          rwa [hput] at hok
      | some name =>
          cases hexact : b.exactWithout name with
          | some frozen =>
              -- a refused name leaves an error of its own, which the run does not have
              have hsome := (put_refused htarget hexact).2
              have hnone : (b.put p).unknownError = none := hunknown
              rw [hnone] at hsome
              cases hsome
          | none =>
              have hensure : (b.ensureColumnIdx name).1.strictError = b.strictError := by
                rw [ensureColumnIdx]
                cases b.fieldIndex.lookup name with
                | some i => rfl
                | none =>
                    simp only [hexact]
                    rfl
              rw [← hensure]
              exact hrecord ((quiet_put htarget hexact).strict ▸ hok)
  | putFieldAt slot value => exact hslot hok
  | putStrAt slot value =>
      have heq : b.call (.putStrAt slot value) = b.putFieldAt slot (.str value) :=
        b.putStrAt_eq slot value
      exact hslot (heq ▸ hok)
  | endRow => exact b.quiet_endRow.strict ▸ hok

/-- No error has been recorded. -/
structure NoError (b : TableBuilder) : Prop where
  unknown : b.unknownError = none
  strict : b.strictError = none

/-- A call does not take an error back, so a builder without an error after it had none before. -/
theorem NoError.of_call {c : Call} (h : (b.call c).NoError) : b.NoError :=
  ⟨unknownError_of_call h.unknown, strictError_of_call h.unknown h.strict⟩

/-- The same for the writes of a row, by induction on them. -/
theorem NoError.of_writeAll {ws : List Write} (h : (b.writeAll ws).NoError) : b.NoError := by
  induction ws generalizing b with
  | nil => exact h
  | cons w ws ih => exact (ih h).of_call

/-- The same for a row, whose last call is `end_row`. -/
theorem NoError.of_writeRow {ws : List Write} (h : (b.writeRow ws).NoError) :
    (b.beginRow.writeAll ws).NoError :=
  @of_call _ (b.beginRow.writeAll ws) .endRow h

/-- The same for rows, by induction on them. -/
theorem NoError.of_writeRows {rows : List (List Write)} (h : (b.writeRows rows).NoError) :
    b.NoError := by
  induction rows generalizing b with
  | nil => exact h
  | cons ws rows ih => exact @of_call _ b .beginRow (ih h).of_writeRow.of_writeAll

/-- A builder under strict types that reads a row, all of whose values are checked. -/
structure StrictRow (b : TableBuilder) (t : Table) (cur : CurrentRow) (early : Prop) : Prop where
  mode : b.WriteMode t cur early
  inOrder : b.InOrder t
  strict : b.plan.strictTypes = true
  checked : CheckedRow b.plan cur

/-- What a write that stays does when no error is recorded: it assigns the value to the row, the
value has passed the check of its column, and the rows before it are as they were. A slot write
while the builder buffers is remembered as one. -/
theorem StrictRow.write {early : Prop} (h : b.StrictRow t cur early) {w : Write}
    (hstays : b.Stays w) (hok : (b.write w).NoError) :
    ∃ t', (b.write w).StrictRow t' (b.assignWrite cur w)
        (early ∨ (w.isSlot = true ∧ b.buffering = true)) ∧ b.SamePlan (b.write w) ∧
      t'.rows = t.rows := by
  -- both slot writes put the value in its column and check it there
  have hslot : ∀ slot value, b.Stays (.toSlot slot value) →
      (b.putFieldAt slot value).strictError = none →
      (b.putFieldAt slot value).StrictRow t (b.assignWrite cur (.toSlot slot value))
          (early ∨ (true = true ∧ b.buffering = true)) ∧
        b.SamePlan (b.putFieldAt slot value) := by
    intro slot value hstays hnone
    obtain ⟨hmode, ho, hsame, -, hchecked⟩ := h.mode.putToSlot h.inOrder h.strict hstays hnone
    refine ⟨⟨hmode.mono (Or.imp_right (And.intro rfl)), ho, hsame.plan ▸ h.strict, ?_⟩, hsame⟩
    rw [hsame.plan]
    exact h.checked.assignWrite hchecked
  cases w with
  | named p =>
      obtain ⟨hmode, ho, hsame, -, hchecked⟩ :=
        h.mode.putNamed h.inOrder h.strict hstays hok.unknown hok.strict
      refine ⟨_, ⟨hmode.mono .inl, ho, hsame.plan ▸ h.strict, ?_⟩, hsame, rows_declarePut b t p⟩
      show CheckedRow (b.put p).plan _
      rw [hsame.plan]
      exact h.checked.assignWrite hchecked
  | toSlot slot value =>
      obtain ⟨hrow, hsame⟩ := hslot slot value hstays hok.strict
      exact ⟨t, hrow, hsame, rfl⟩
  | strToSlot slot value =>
      have heq : b.write (.strToSlot slot value) = b.putFieldAt slot (.str value) :=
        b.putStrAt_eq slot value
      rw [heq] at hok ⊢
      obtain ⟨hrow, hsame⟩ := hslot slot (.str value) hstays hok.strict
      exact ⟨t, hrow, hsame, rfl⟩

/-- The writes of a row assign it checked values. By induction on the writes; whether one of them
was a slot write into a buffering builder is carried along. -/
theorem StrictRow.writeAll {early : Prop} (h : b.StrictRow t cur early) {ws : List Write}
    (hstays : b.StaysAll ws) (hok : (b.writeAll ws).NoError) :
    ∃ t', (b.writeAll ws).StrictRow t' (b.assignWrites cur ws) (early ∨ b.SlotsBuffered ws) ∧
      b.SamePlan (b.writeAll ws) ∧ t'.rows = t.rows := by
  induction ws generalizing b t cur early with
  | nil => exact ⟨t, ⟨h.mode.mono .inl, h.inOrder, h.strict, h.checked⟩, .refl b, rfl⟩
  | cons w ws ih =>
      obtain ⟨t₁, h₁, hsame₁, hrows₁⟩ := h.write hstays.1 (NoError.of_writeAll hok)
      obtain ⟨t₂, h₂, hsame₂, hrows₂⟩ := ih h₁ hstays.2 hok
      refine ⟨t₂, ⟨h₂.mode.mono ?_, h₂.inOrder, h₂.strict, h₂.checked⟩, hsame₁.trans hsame₂,
        hrows₂.trans hrows₁⟩
      rw [SlotsBuffered, or_assoc]
      exact id

/-- A builder under strict types between rows, all of whose rows are checked. -/
structure StrictTable (b : TableBuilder) (t : Table) : Prop where
  between : b.Between t
  inOrder : b.InOrder t
  strict : b.plan.strictTypes = true
  checked : ∀ row ∈ t.rows, CheckedRow b.plan row

/-- A row of writes that stay is committed checked, or leaves no trace. Its writes are made in one
of the modes, by induction on them, and `end_row` either commits what they have assigned or drops
it. -/
theorem StrictTable.writeRow (h : b.StrictTable t) {ws : List Write}
    (hstays : b.beginRow.StaysAll ws)
    (hcounted : b.beginRow.SlotsBuffered ws → b.rowCount < (b.writeRow ws).rowCount)
    (hok : (b.writeRow ws).NoError) :
    ∃ t', (b.writeRow ws).StrictTable t' ∧ b.SamePlan (b.writeRow ws) ∧
      t'.rows = t.rows ++ if b.rowCount < (b.writeRow ws).rowCount
        then [b.beginRow.assignWrites noRow ws] else [] := by
  obtain ⟨hbegin, hframe, -, -⟩ := h.between.beginRow
  have hstart : b.beginRow.StrictRow t noRow False :=
    ⟨.named hbegin, h.inOrder.congr rfl rfl, h.strict, fun name value hn => by cases hn⟩
  obtain ⟨t₁, h₁, hsame₁, hrows₁⟩ := hstart.writeAll hstays hok.of_writeRow
  obtain ⟨hend, hsame₂⟩ := h₁.mode.endRow fun hearly => by
    rw [hrows₁, ← h.between.rowCount]
    exact hcounted (hearly.resolve_left id)
  have hsame : b.SamePlan (b.writeRow ws) := hframe.samePlan.trans (hsame₁.trans hsame₂)
  -- the row is committed exactly where the count of rows grew
  have hrows : ((b.beginRow.writeAll ws).endTable t₁ _ h₁.mode.within).rows =
      t.rows ++ if b.rowCount < (b.writeRow ws).rowCount
        then [b.beginRow.assignWrites noRow ws] else [] := by
    have hcount : (b.writeRow ws).rowCount = _ := hend.rowCount
    rw [hcount, h.between.rowCount, endTable]
    cases (b.beginRow.writeAll ws).keepsRow with
    | true =>
        have hlt : t.rows.length < (t₁.commit _ h₁.mode.within).rows.length := by
          show _ < (t₁.rows ++ [_]).length
          rw [hrows₁, List.length_append]
          exact Nat.lt_succ_self _
        rw [if_pos rfl, if_pos hlt]
        show t₁.rows ++ [_] = _
        rw [hrows₁]
    | false =>
        rw [if_neg Bool.false_ne_true, hrows₁, if_neg (lt_irrefl _), List.append_nil]
  refine ⟨_, ⟨hend, h₁.inOrder.endRow _ hsame₂, hsame.plan ▸ h.strict, ?_⟩, hsame, hrows⟩
  rw [hrows, hsame.plan]
  intro row hrow
  -- the rows before were checked, and the writes of this one were
  rcases List.mem_append.mp hrow with hrow | hrow
  · exact h.checked row hrow
  · split at hrow
    · obtain rfl := List.mem_singleton.mp hrow
      have hchecked := h₁.checked
      rwa [hsame₁.plan] at hchecked
    · cases hrow

/-- The accepted rows of a list are committed with checked values, in order. By induction on the
rows, each of which is committed if it was counted and leaves no trace otherwise. -/
theorem StrictTable.writeRows (h : b.StrictTable t) {rows : List (List Write)}
    (hstays : b.StaysRows rows) (hok : (b.writeRows rows).NoError) :
    ∃ t', (b.writeRows rows).StrictTable t' ∧ b.SamePlan (b.writeRows rows) ∧
      t'.rows = t.rows ++ b.acceptedRows rows := by
  induction rows generalizing b t with
  | nil => exact ⟨t, h, .refl b, by simp [acceptedRows]⟩
  | cons ws rows ih =>
      obtain ⟨t₁, h₁, hsame₁, hrows₁⟩ := h.writeRow hstays.1 hstays.2.1 (NoError.of_writeRows hok)
      obtain ⟨t₂, h₂, hsame₂, hrows₂⟩ := ih h₁ hstays.2.2 hok
      refine ⟨t₂, h₂, hsame₁.trans hsame₂, ?_⟩
      rw [hrows₂, hrows₁, acceptedRows, List.append_assoc]

/-! ## Runs -/

/-- The builder a run starts with: a new one, with a frozen layout when there is one. -/
def start (plan : ExecutionPlan) : Option FrozenSchema → TableBuilder
  | none => withPlan plan
  | some schema => (withPlan plan).ensureSchema schema

/-- The builder a run starts with has no row, and its slots in order. A plan with a projection has
declared its columns, and a layout may have added its own; both come with the types that the plan
has for them. -/
theorem inOrder_start {plan : ExecutionPlan} {layout : Option FrozenSchema}
    (hlayout : ∀ schema ∈ layout, ∀ p ∈ schema.columns, p.2 = plan.columnType p.1) :
    ∃ t, (start plan layout).Between t ∧ (start plan layout).InOrder t ∧
      (start plan layout).plan = plan ∧ t.rows = [] := by
  have hwith := columnOrder_withPlan plan
  have hplan := (withPlan_frame plan).1
  -- a projected column is declared with its type in the plan
  have htypes : ∀ p ∈ (RowTable.empty.declareAll (predeclared plan) : Table).cols,
      p.2 = plan.columnType p.1 := by
    intro p hp
    rcases RowTable.mem_cols_declareAll hp with hp | ⟨-, hp⟩
    · cases hp
    · rw [predeclared] at hp
      split at hp
      · cases hp
      · obtain ⟨n, -, rfl⟩ := List.mem_map.mp hp
        rfl
  have hprojected : ∀ name ∈ plan.schemaOrder, name ∉ plan.dropFields →
      name ∈ (RowTable.empty.declareAll (predeclared plan) : Table).names :=
    fun name hname hdrop => mem_names_predeclared hname hdrop
  have hrows : (RowTable.empty.declareAll (predeclared plan) : Table).rows = [] :=
    RowTable.rows_declareAll _ _
  cases layout with
  | none =>
      refine ⟨_, between_withPlan plan, ⟨hwith, ?_, ?_⟩, hplan, hrows⟩
      · rwa [start, hplan]
      · rwa [start, hplan]
  -- the columns of a given schema come after the projected ones
  | some schema =>
      have hplan' : (start plan (some schema)).plan = plan :=
        (plan_ensureSchema _ schema).trans hplan
      refine ⟨_, (between_withPlan plan).ensureSchema hrows schema, ⟨?_, ?_, ?_⟩, hplan',
        (RowTable.rows_declareAll _ _).trans hrows⟩
      · exact order_declareColumns (declared_withPlan plan) hwith schema.columns
      · rw [hplan']
        intro p hp
        rcases RowTable.mem_cols_declareAll hp with hp | ⟨-, hp⟩
        · exact htypes p hp
        · exact hlayout schema rfl p hp
      · rw [hplan']
        intro name hname hdrop
        rw [RowTable.mem_names_declareAll]
        exact Or.inl (hprojected name hname hdrop)

/-- Under strict types it has no row to check. -/
theorem strictTable_start {plan : ExecutionPlan} (hstrict : plan.strictTypes = true)
    {layout : Option FrozenSchema}
    (hlayout : ∀ schema ∈ layout, ∀ p ∈ schema.columns, p.2 = plan.columnType p.1) :
    ∃ t, (start plan layout).StrictTable t ∧ (start plan layout).plan = plan ∧ t.rows = [] := by
  obtain ⟨t, hbetween, horder, hplan, hrows⟩ := inOrder_start hlayout
  refine ⟨t, ⟨hbetween, horder, hplan.symm ▸ hstrict, ?_⟩, hplan, hrows⟩
  rw [hrows]
  exact fun row hrow => by cases hrow

/-- **Strict typing.** When a run under `strict_types` whose writes stay finishes, the last value
written to a column of a declared type in an accepted row is stored as what the type makes of it: not
null if it is a string, and otherwise not null exactly when the type takes its variant. -/
theorem strict_cells {plan : ExecutionPlan} (hstrict : plan.strictTypes = true)
    {layout : Option FrozenSchema}
    (hlayout : ∀ schema ∈ layout, ∀ p ∈ schema.columns, p.2 = plan.columnType p.1)
    {rows : List (List Write)} (hstays : (start plan layout).StaysRows rows) {batch : RecordBatch}
    (hok : ((start plan layout).writeRows rows).finish = .ok batch) {k : Nat} {row : CurrentRow}
    (hrow : ((start plan layout).acceptedRows rows)[k]? = some row) {name : String} {ty : FieldType}
    (hty : plan.fieldTypes.lookup name = some ty) {value : Value} (hvalue : row name = some value) :
    ∃ c cell, ((start plan layout).writeRows rows).getColumn name = some c ∧ c.kind = ty ∧
      c.cells[k]? = some cell ∧ cell = store ty value ∧
      cell.isSome = (value.asStr.isSome || takesVariant ty value) := by
  obtain ⟨t₀, h₀, hplan₀, hrows₀⟩ := strictTable_start hstrict hlayout
  have herrors := errors_of_finish hok
  obtain ⟨t, h, hsame, hrows⟩ := h₀.writeRows hstays ⟨herrors.1, herrors.2⟩
  have hplan := hsame.plan.trans hplan₀
  rw [hrows₀, List.nil_append] at hrows
  rw [← hrows] at hrow
  have hmem := List.mem_of_getElem? hrow
  obtain ⟨p, hp, rfl⟩ := List.mem_map.mp (t.within row hmem name (by rw [hvalue]; rfl))
  -- the column of the name, with the stored cells of the accepted rows
  obtain ⟨i, hi⟩ := List.mem_iff_getElem?.mp hp
  have htype : p.2 = ty := by
    rw [h.inOrder.types p hp, hplan, ExecutionPlan.columnType, hty]
  obtain ⟨c, hc, hst⟩ := h.between.sound.holds.stored i p hi
  rw [pending_noRow, List.append_nil] at hst
  have hcell : c.cells[k]? = some (store ty value) := by
    rw [hst.cells, RowTable.column, List.getElem?_map, hrow, Option.map_some, cell, hvalue, htype]
    rfl
  refine ⟨c, store ty value, ?_, hst.kind.trans htype, hcell, rfl, ?_⟩
  · rw [getColumn, h.between.sound.holds.lookup_of_cols hi]
    exact hc
  · rw [isSome_store]
    -- a string was checked when it was written, and any other value by its variant alone
    have hchecked := h.checked row hmem p.1 value hvalue
    cases hstr : value.asStr with
    | none => rfl
    | some s =>
        have hvalue : value = .str s := by
          cases value with
          | str s' =>
              cases hstr
              rfl
          | _ => cases hstr
        rw [Option.any_some, hchecked s ty hvalue (hplan.symm ▸ hty)]
        rfl

end Steps

end TableBuilder

end Strict

section Examples

attribute [local instance] integerPlatform

open TableBuilder

/-- A plan that declares `n` as an integer column, under strict types. -/
def strictPlan : ExecutionPlan :=
  { fieldTypes := (∅ : StrMap FieldType).insert "n" .int64, strictTypes := true }

/-- The row `{n: value}`. -/
def rowN (value : Value) : List Write := [.named (.field "n" value)]

/-- The plan with the slot `0` for `n`, which keeps the rows with `k == "1"`. -/
def slottedPlan : ExecutionPlan :=
  { strictPlan with schemaOrder := ["n"], filter := some (.equal "k" "1") }

/-- The row `{n: 7, k: 1}`, with `n` put to its slot while the row is buffered. -/
def slottedRow : List Write := [.strToSlot 0 "7", .named (.field "k" (.str "1"))]

/-- The value that is put by slot goes to its column at once, where no value of the row is buffered,
and the row passes. -/
theorem stays_slottedRow : (start slottedPlan none).StaysRows [slottedRow] := by
  refine ⟨⟨?_, ⟨?_, ?_⟩, trivial⟩, fun _ => ?_, trivial⟩
  · intro _ buf hbuf
    obtain rfl := Option.some.inj hbuf
    rfl
  · exact fun _ _ => List.not_mem_nil
  · intro hdirect
    cases hdirect
  · exact Nat.lt_add_one 0

/-- A numeral in a slot is stored. -/
theorem strict_cells_of_numeral :
    ∃ c cell, ((start slottedPlan none).writeRows [slottedRow]).getColumn "n" = some c ∧
      c.kind = .int64 ∧ c.cells[0]? = some cell ∧ cell = store .int64 (.str "7") ∧
      cell.isSome = true := by
  have hok : ((start slottedPlan none).writeRows [slottedRow]).finish =
      .ok ⟨[("n", .int64)], [⟨.int64, [some (.int64 7)]⟩], 1⟩ := rfl
  have hrow : ((start slottedPlan none).acceptedRows [slottedRow])[0]? =
      some ((start slottedPlan none).beginRow.assignWrites noRow slottedRow) := rfl
  exact strict_cells rfl (fun schema hs => by cases hs) stays_slottedRow hok hrow rfl rfl

/-- A truth value put in an integer column is not checked, and leaves a null. -/
theorem strict_cells_falls :
    ¬ ∀ (plan : ExecutionPlan) (rows : List (List Write)) (batch : RecordBatch),
      plan.strictTypes = true → ((start plan none).writeRows rows).finish = .ok batch →
      ∀ (k : Nat) (row : CurrentRow), ((start plan none).acceptedRows rows)[k]? = some row →
      ∀ (name : String) (ty : FieldType) (value : Value), plan.fieldTypes.lookup name = some ty →
        row name = some value → value ≠ .null →
        ∃ c cell, ((start plan none).writeRows rows).getColumn name = some c ∧
          c.cells[k]? = some (some cell) := by
  intro h
  have hok : ((start strictPlan none).writeRows [rowN (.bool true)]).finish =
      .ok ⟨[("n", .int64)], [⟨.int64, [none]⟩], 1⟩ := rfl
  obtain ⟨c, cell, hc, hcell⟩ := h strictPlan [rowN (.bool true)] _ rfl hok 0 _ rfl "n" .int64
    (.bool true) rfl rfl nofun
  have hcolumn : ((start strictPlan none).writeRows [rowN (.bool true)]).getColumn "n" =
      some (.int64 [none]) := rfl
  obtain rfl := Option.some.inj (hcolumn.symm.trans hc)
  cases hcell

end Examples

end Rypipe
