import Rypipe.Engine.Leftovers
import Rypipe.SlotPath.Leftover
import Mathlib.Data.List.DropRight

/-! # What decides a row

The verdict of `end_row` on a row, as a function of the values of the row and of the builder before it.
A buffered row is judged on the values up to the last one at which the filter is evaluated, and where
these leave it undecided on all of them (`bufferedVerdict`); a row in the columns is judged on the
columns with its cells (`columnsVerdict`); and a row that was written by slot while the builder buffers
is judged as a row without values (`passesBlank`). -/

namespace Rypipe

variable [Platform]

namespace TableBuilder

/-! ## Where the filter is evaluated -/

/-- Whether a value that is buffered for the slot evaluates the filter. -/
def evaluatesSlot (b : TableBuilder) (slot : Nat) : Bool :=
  (b.markPredicateSlot slot).isPredicateSlot slot

/-- The names of the filter's fields, as the row buffer has collected them or would collect them. -/
def namesOf (b : TableBuilder) (buf : RowBuffer) : List String :=
  if buf.predNames = [] then filterNames b.plan else buf.predNames

/-- A slot is the filter's by its bit, by the index once the names are collected, or by the export
order. -/
def FilterSlot (b : TableBuilder) (buf : RowBuffer) (slot : Nat) : Prop :=
  buf.predicateMask.test slot = true ∨
    (buf.predNames = [] ∧ ∃ name ∈ filterNames b.plan, b.fieldIndex.lookup name = some slot) ∨
    ∃ name ∈ b.namesOf buf, b.columnOrder[slot]? = some name

section Marks

variable {b b' : TableBuilder} {buf buf' : RowBuffer}

theorem FilterSlot.congr (hplan : b'.plan = b.plan) (hindex : b'.fieldIndex = b.fieldIndex)
    (horder : b'.columnOrder = b.columnOrder) (hmask : buf'.predicateMask = buf.predicateMask)
    (hnames : buf'.predNames = buf.predNames) (slot : Nat) :
    b'.FilterSlot buf' slot ↔ b.FilterSlot buf slot := by
  rw [FilterSlot, FilterSlot, namesOf, namesOf, hplan, hindex, horder, hmask, hnames]

/-- The row buffer with the filter's names collected and their slots marked. -/
def collected (b : TableBuilder) (buf : RowBuffer) : RowBuffer :=
  { buf with
    predNames := filterNames b.plan
    predicateMask := ((filterNames b.plan).filterMap fun n => b.fieldIndex.lookup n).foldl
      WordSet.insert (buf.predicateMask.resizeFor b.columns.length) }

/-- Collecting the names marks the slots that they would mark. The names are kept in the order of
the predicate and looked up in the index, so no slot is lost. -/
theorem marked_collected (hindex : ∀ name i, b.fieldIndex.lookup name = some i → i < b.columns.length)
    (hnames : buf.predNames = []) {slot : Nat} (hslot : slot < b.columns.length) :
    b.FilterSlot (b.collected buf) slot ↔ b.FilterSlot buf slot := by
  have hbit : (b.collected buf).predicateMask.test slot = true ↔
      (∃ name ∈ filterNames b.plan, b.fieldIndex.lookup name = some slot) ∨
        buf.predicateMask.test slot = true := by
    have hroom : ∀ i ∈ (filterNames b.plan).filterMap fun n => b.fieldIndex.lookup n,
        i < (buf.predicateMask.resizeFor b.columns.length).capacity := by
      intro i hi
      obtain ⟨name, -, hlook⟩ := List.mem_filterMap.mp hi
      exact Nat.lt_of_lt_of_le (hindex name i hlook) (WordSet.capacity_resizeFor (by decide) _ _)
    rw [collected, WordSet.test_insertAll hroom, WordSet.test_resizeFor (by decide) _ hslot,
      Bool.or_eq_true, decide_eq_true_iff, List.mem_filterMap]
  have hboth : b.namesOf (b.collected buf) = filterNames b.plan := ite_self _
  have hall : b.namesOf buf = filterNames b.plan := if_pos hnames
  have hempty : ¬ ((b.collected buf).predNames = [] ∧
      ∃ name ∈ filterNames b.plan, b.fieldIndex.lookup name = some slot) := by
    rintro ⟨hnil, name, hname, -⟩
    have hnil : filterNames b.plan = [] := hnil
    rw [hnil] at hname
    cases hname
  rw [FilterSlot, FilterSlot, hbit, hboth, hall, or_iff_right hempty, and_iff_right hnames, or_assoc,
    or_left_comm]

/-- The names of the filter are collected at the first slot without a bit. The slots that count as
marked stay the same, and unless the slot has its bit the row buffer knows all names of the filter. -/
theorem collects_marks
    (hindex : ∀ name i, b.fieldIndex.lookup name = some i → i < b.columns.length)
    (hbuf : b.rowBuf = some buf) (slot : Nat) :
    ∃ buf', (if b.rowBuf.any fun buf => !buf.predicateMask.test slot && buf.predNames.isEmpty then
        b.buildPredicateMask else b) = { b with rowBuf := some buf' } ∧
      (∀ j < b.columns.length, b.FilterSlot buf' j ↔ b.FilterSlot buf j) ∧
      (buf'.predicateMask.test slot = true ∨ (buf'.predNames = [] → filterNames b.plan = [])) := by
  rw [hbuf, Option.any_some]
  split
  · next hfirst =>
    rw [Bool.and_eq_true, List.isEmpty_iff] at hfirst
    refine ⟨b.collected buf, ?_, fun j hj => marked_collected hindex hfirst.2 hj, Or.inr id⟩
    rw [buildPredicateMask, mapRowBuf, hbuf, Option.map_some, hfirst.2]
    rfl
  · next hlater =>
    rw [Bool.and_eq_true, List.isEmpty_iff, Bool.not_eq_true', not_and_or,
      Bool.not_eq_false] at hlater
    exact ⟨buf, by rw [← hbuf], fun j _ => Iff.rfl, hlater.imp_right fun hne hnil => absurd hnil hne⟩

/-- A slot without a bit counts as marked exactly when the export order has one of the collected names
at it. -/
theorem filterSlot_of_unmarked (hnil : buf.predNames = [] → filterNames b.plan = []) {slot : Nat}
    (hbit : ¬ buf.predicateMask.test slot = true) :
    b.FilterSlot buf slot ↔ ∃ name ∈ buf.predNames, b.columnOrder[slot]? = some name := by
  have hall : b.namesOf buf = buf.predNames := by
    rw [namesOf]
    split
    · next h => rw [hnil h, h]
    · rfl
  rw [FilterSlot, hall]
  refine ⟨fun h => ?_, fun h => Or.inr (Or.inr h)⟩
  rcases h with h | ⟨hempty, name, hname, -⟩ | h
  · exact absurd h hbit
  · rw [hnil hempty] at hname
    cases hname
  · exact h

/-- Setting the bit of a slot that counts as marked changes no slot that counts as marked. -/
theorem filterSlot_insert {slot : Nat} (hset : b.FilterSlot buf slot) {mask : WordSet 64}
    (hroom : slot < mask.capacity) (htest : ∀ j, mask.test j = buf.predicateMask.test j) (j : Nat) :
    b.FilterSlot { buf with predicateMask := mask.insert slot } j ↔ b.FilterSlot buf j := by
  have hbit : (mask.insert slot).test j = true ↔ j = slot ∨ buf.predicateMask.test j = true := by
    rw [WordSet.test_insert _ hroom, htest, Bool.or_eq_true, decide_eq_true_iff]
  show ((mask.insert slot).test j = true ∨ _) ↔ _
  rw [hbit, or_assoc]
  refine or_iff_right_of_imp ?_
  rintro rfl
  exact hset

/-- The row buffer after a slot was marked: the slots that count as marked are the same, and the bit of
the slot says whether it is one. The names are collected first, and then the slot gets its bit if the
export order has one of them at it. -/
theorem markPredicateSlot_marks
    (hindex : ∀ name i, b.fieldIndex.lookup name = some i → i < b.columns.length)
    (hbuf : b.rowBuf = some buf) {f : FilterPredicate} (hf : b.plan.filter = some f) {slot : Nat}
    (hslot : slot < b.columns.length) :
    ∃ buf', (b.markPredicateSlot slot).rowBuf = some buf' ∧
      (∀ j < b.columns.length, b.FilterSlot buf' j ↔ b.FilterSlot buf j) ∧
      (buf'.predicateMask.test slot = true ↔ b.FilterSlot buf slot) := by
  obtain ⟨buf₁, hbuild, hmarked, hnames⟩ := collects_marks hindex hbuf slot
  have hfilter : b.plan.filter.isNone = false := by rw [hf]; rfl
  rw [markPredicateSlot, hfilter, if_neg Bool.false_ne_true, hbuild, ← hmarked slot hslot]
  simp only [isPredicateSlot, Option.any_some]
  by_cases hbit : buf₁.predicateMask.test slot = true
  · rw [if_pos hbit]
    exact ⟨buf₁, rfl, hmarked, iff_of_true hbit (Or.inl hbit)⟩
  rw [if_neg hbit]
  have hmark := filterSlot_of_unmarked (hnames.resolve_left hbit) hbit
  cases hname : b.columnOrder[slot]? with
  | none =>
      refine ⟨buf₁, rfl, hmarked, iff_of_false hbit ?_⟩
      rw [hmark]
      rintro ⟨name, -, h⟩
      cases hname.symm.trans h
  | some name =>
      by_cases hmem : name ∈ buf₁.predNames
      · -- the slot gets its bit
        have hset : b.FilterSlot buf₁ slot := hmark.mpr ⟨name, hmem, hname⟩
        obtain ⟨mask, hmask, hroom, htest⟩ : ∃ mask : WordSet 64,
            (if buf₁.predicateMask.words.length ≤ slot / 64 then
              buf₁.predicateMask.resize (slot / 64 + 1) else buf₁.predicateMask) = mask ∧
            slot < mask.capacity ∧ ∀ j, mask.test j = buf₁.predicateMask.test j :=
          ⟨_, rfl, buf₁.predicateMask.test_resize_word (by decide) slot⟩
        refine ⟨{ buf₁ with predicateMask := mask.insert slot }, ?_, fun j hj => ?_,
          iff_of_true (WordSet.test_insert_self _ hroom) hset⟩
        · simp only [mapRowBuf, Option.map_some, if_pos hmem, hmask]
        · exact (filterSlot_insert hset hroom htest j).trans (hmarked j hj)
      · refine ⟨buf₁, ?_, hmarked, iff_of_false hbit ?_⟩
        · simp only [mapRowBuf, Option.map_some, if_neg hmem]
        · rw [hmark]
          rintro ⟨name', hmem', h⟩
          rw [hname] at h
          exact hmem (Option.some.inj h ▸ hmem')

/-- Whether a slot evaluates the filter is whether it counts as marked. -/
theorem evaluatesSlot_iff
    (hindex : ∀ name i, b.fieldIndex.lookup name = some i → i < b.columns.length)
    (hbuf : b.rowBuf = some buf) {f : FilterPredicate} (hf : b.plan.filter = some f) {slot : Nat}
    (hslot : slot < b.columns.length) : b.evaluatesSlot slot = true ↔ b.FilterSlot buf slot := by
  obtain ⟨buf', hbuf', -, hbit⟩ := markPredicateSlot_marks hindex hbuf hf hslot
  rw [evaluatesSlot, isPredicateSlot, hbuf', Option.any_some]
  exact hbit

end Marks

/-! ## Verdicts -/

/-- The columns with the cells of a row: its values written to their slots in the order they came, and a
null in every other column. -/
def withRow (b : TableBuilder) (values : List (Nat × Value)) : List ColumnBuilder :=
  (values.foldl (fun columns p => columns.modify p.1 (overwrite b.rowCount p.2)) b.columns).mapIdx
    fun i c => if i ∈ values.map Prod.fst then c else c.push none

/-- The verdict of the filter on the columns with the cells of a row. -/
def columnsVerdict (b : TableBuilder) (values : List (Nat × Value)) : Bool :=
  b.plan.filter.all fun f => f.check (b.withRow values) b.fieldIndex b.rowCount b.plan

/-- The verdict of the filter on the values of a row up to the last one at which it is evaluated. -/
def judged (b : TableBuilder) (f : FilterPredicate) (values : List (String × Value)) :
    PredicateState :=
  let read := values.rdropWhile fun p => !(b.fieldIndex.lookup p.1).any b.evaluatesSlot
  if read.isEmpty then .undecided else evalPredicate b.plan (rowGet b.plan (rowOf read)) f

/-- The verdict on a buffered row: the last one that was reached, or if that is undecided the one on the
whole row, its missing values taken as null. -/
def bufferedVerdict (b : TableBuilder) (values : List (String × Value)) : Bool :=
  b.plan.filter.all fun f =>
    (if b.judged f values = .undecided then
      evalPredicateWithNull b.plan (rowGet b.plan (rowOf values)) f
    else b.judged f values) == .pass

/-- Whether the filter passes a row without values. -/
def passesBlank (plan : ExecutionPlan) : Bool :=
  plan.filter.all fun f => evalPredicateWithNull plan (fun _ => none) f == .pass

/-! ## Rows -/

/-- A field of a row: its raw name, its value, and whether a text goes through `put_str_at`. -/
structure RowField where
  name : String
  value : Value
  asStr : Bool := false

/-- The field given to `put_field`. -/
def RowField.put (x : RowField) : Put := .field x.name x.value

/-- The slot of the column of the field, if it is not dropped. -/
def RowField.slot (plan : ExecutionPlan) (index : StrMap Nat) (x : RowField) : Option Nat :=
  (plan.resolveField x.name).bind fun name => index.lookup name

/-- The field written to a slot. -/
def RowField.toSlot (x : RowField) (slot : Nat) : Write :=
  match x.asStr, x.value with
  | true, .str s => .strToSlot slot s
  | _, value => .toSlot slot value

/-- A row given to `put_field`, field by field. -/
def namedRow (row : List RowField) : List Put := row.map RowField.put

/-- A row written by the slots of its columns. -/
def slotRow (plan : ExecutionPlan) (index : StrMap Nat) (row : List RowField) : List Write :=
  row.filterMap fun x => (x.slot plan index).map x.toSlot

/-- The values of a row under the output names of the plan. -/
def rowValues (plan : ExecutionPlan) (row : List RowField) : List (String × Value) :=
  row.filterMap fun x => (plan.resolveField x.name).map fun name => (name, x.value)

/-- Values with the slots of their columns. -/
def slotValues (index : StrMap Nat) (values : List (String × Value)) : List (Nat × Value) :=
  values.filterMap fun p => (index.lookup p.1).map fun slot => (slot, p.2)

/-- A row, with whether it is written by slot or given to `put_field`. -/
structure RowWrite where
  bySlot : Bool
  fields : List RowField

/-- The row given to `put_field`. -/
def RowWrite.byName (r : RowWrite) : RowWrite := { r with bySlot := false }

/-- The writes of the row. -/
def RowWrite.writes (plan : ExecutionPlan) (index : StrMap Nat) (r : RowWrite) : List Write :=
  if r.bySlot then slotRow plan index r.fields else (namedRow r.fields).map .named

/-- The verdict on a row, from the builder before it. -/
def verdict (b : TableBuilder) (r : RowWrite) : Bool :=
  let values := rowValues b.plan r.fields
  if !b.beginRow.buffering then b.beginRow.columnsVerdict (slotValues b.fieldIndex values)
  else if r.bySlot then passesBlank b.plan
  else b.beginRow.bufferedVerdict values

/-- Every column with a cell where the row goes, left there by another row, gets a value of the row. -/
def CoversLeftovers (b : TableBuilder) (r : RowWrite) : Prop :=
  ∀ p ∈ b.columns.zipIdx,
    p.2 ∉ (slotValues b.fieldIndex (rowValues b.plan r.fields)).map Prod.fst →
      p.1.getTypedValue b.rowCount = none

instance (b : TableBuilder) (r : RowWrite) : Decidable (b.CoversLeftovers r) :=
  inferInstanceAs (Decidable (∀ _ ∈ _, _ → _ = none))

end TableBuilder

end Rypipe
