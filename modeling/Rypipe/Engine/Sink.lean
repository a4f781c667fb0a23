import Rypipe.Engine.TableBuilder
import Rypipe.Foundation.Assoc

/-! # The row interface of the builder

The `ColumnarSink` methods of the table builder: `beginRow`, the put entry points and `endRow`, with
the buffering of a filtered row and its drain into the columns
(`engine/table_builder/predicates.rs`). -/

namespace Rypipe

variable [Platform]

namespace TableBuilder

variable (b : TableBuilder)

/-- Replace the row buffer, if there is one. -/
def mapRowBuf (f : RowBuffer → RowBuffer) : TableBuilder := { b with rowBuf := b.rowBuf.map f }

/-- `get_buffered_value`: the value buffered for a filter field. -/
def getBufferedValue (field : String) : Option Value := do
  let buf ← b.rowBuf
  let resolved ← b.plan.resolveField field
  Assoc.get buf.fields (← b.fieldIndex.lookup resolved)

/-- `evaluate_predicate_state`. -/
def evaluatePredicateState : PredicateState :=
  match b.plan.filter with
  | some pred => evalPredicate b.plan b.getBufferedValue pred
  | none => .pass

/-- `evaluate_against_null`. -/
def evaluateAgainstNull : PredicateState :=
  match b.plan.filter with
  | some pred => evalPredicateWithNull b.plan b.getBufferedValue pred
  | none => .pass

/-- `build_predicate_mask`: collect the filter's names and mark the slots they already have. -/
def buildPredicateMask : TableBuilder :=
  b.mapRowBuf fun buf =>
    if !buf.predNames.isEmpty then buf
    else
      let names := (b.plan.filter.map (collectPredicateFieldNames b.plan)).getD []
      { buf with
        predNames := names
        predicateMask := (names.filterMap fun n => b.fieldIndex.lookup n).foldl WordSet.insert
          (buf.predicateMask.resizeFor b.columns.length) }

/-- `is_predicate_slot`. -/
def isPredicateSlot (slot : Nat) : Bool := b.rowBuf.any fun buf => buf.predicateMask.test slot

/-- `mark_predicate_slot`: make sure the mask says whether `slot` is a filter column. -/
def markPredicateSlot (slot : Nat) : TableBuilder :=
  if b.plan.filter.isNone then b
  else
    let b := if b.rowBuf.any fun buf => !buf.predicateMask.test slot && buf.predNames.isEmpty then
        b.buildPredicateMask else b
    if b.isPredicateSlot slot then b
    else
      match b.columnOrder[slot]? with
      | some name =>
          b.mapRowBuf fun buf =>
            if name ∈ buf.predNames then
              let mask := if buf.predicateMask.words.length ≤ slot / 64 then
                  buf.predicateMask.resize (slot / 64 + 1) else buf.predicateMask
              { buf with predicateMask := mask.insert slot }
            else buf
      | none => b

/-- Buffer a value under an output name: make sure of the column, check strict types, mark a filter
column, buffer. -/
def stageField (resolved : String) (value : Value) : TableBuilder × Nat :=
  let (b, slot) := b.ensureColumnIdx resolved
  let b := (b.recordStrictViolationAt slot value).markPredicateSlot slot
  (b.mapRowBuf fun buf => { buf with fields := Assoc.put buf.fields slot value }, slot)

/-- After a filter field was buffered: learn its slot, once, and evaluate the filter. -/
def evaluateRow (slot : Nat) : TableBuilder :=
  let b := b.mapRowBuf fun buf =>
    { buf with predicateOrdinal := buf.predicateOrdinal.or (some slot) }
  b.mapRowBuf fun buf => { buf with state := b.evaluatePredicateState }

/-- The buffered path of a put: buffer the value, and evaluate the filter if it reads the slot. -/
def bufferField (resolved : String) (value : Value) : TableBuilder :=
  let (b, slot) := b.stageField resolved value
  if b.isPredicateSlot slot then b.evaluateRow slot else b

/-- The frozen layout, where it is exact and neither it nor the builder has the column. -/
def unknownTo (name : String) : Option FrozenSchema :=
  (b.exactWithout name).filter fun frozen => !(name ∈ frozen.names : Bool)

/-- The loop of `drain_buffered`: write the buffered values, last first, each slot once. -/
def drainFields (b : TableBuilder) (seen : WordSet 64) : List (Nat × Value) → TableBuilder
  | [] => b
  | (slot, value) :: rest =>
      if seen.test slot then b.drainFields seen rest
      else
        ((b.writeSlot slot value).notifyPutField slot value).drainFields (seen.insert slot) rest

/-- Clear the buffered values and the state at the end of a drain. -/
def clearBuffered : TableBuilder :=
  b.mapRowBuf fun buf => { buf with fields := [], state := .undecided }

/-- `drain_buffered`: write the buffered row to the columns, or discard it. -/
def drainBuffered (pass : Bool) : TableBuilder :=
  match b.rowBuf with
  | none => b
  | some buf =>
      if pass then
        let words := (b.columns.length + 63) / 64
        let b := { b with rowDirty := b.rowDirty.growFor b.columns.length }
        let b := b.drainFields ((WordSet.empty).resize (max 1 words)) buf.fields.reverse
        -- mid-row, the dirty bits stay for `nullFillMissing`
        let b := if buf.direct then b else b.nullFill
        b.acceptRow.clearBuffered
      else ({ b with rowDirty := b.rowDirty.clear }).rejectRow.clearBuffered

/-- The filter has passed in the middle of a row: drain it and write the rest directly. -/
def drainMidRow : TableBuilder :=
  (b.mapRowBuf fun buf => { buf with direct := true }).drainBuffered true

/-- The columns the adaptive strategy compares the filter's slot with. -/
def expectedColumns : Nat :=
  match b.frozen with
  | some frozen => frozen.columns.length
  | none =>
      if b.plan.schemaOrder.isEmpty then b.columns.length else b.plan.schemaOrder.length

/-- `begin_row`: reset the row buffer, and stop buffering once the filter field came late. -/
def beginRow : TableBuilder :=
  let b := b.notify (.beginRow b.rowCount)
  let late (buf : RowBuffer) : Bool :=
    buf.bufferWorthwhile && decide (0 < b.rowCount) &&
      buf.predicateOrdinal.any fun ordinal => decide (b.expectedColumns * 4 / 5 ≤ ordinal)
  { b with
    currentOrdinal := 0
    rowBuf := b.rowBuf.map fun buf =>
      { buf with
        bufferWorthwhile := buf.bufferWorthwhile && !late buf
        fields := []
        state := .undecided
        direct := false } }

/-- Whether puts go to the row buffer. -/
def buffering : Bool := b.plan.filter.isSome && b.rowBuf.all (·.bufferWorthwhile)

/-- `put_field`. -/
def putField (name : String) (value : Value) : TableBuilder :=
  if !b.buffering then b.pushField name value
  else
    match b.plan.resolveField name with
    | none => b
    | some resolved =>
        match if b.unknownError.isNone then b.unknownTo resolved else none with
        | some frozen => b.reportUnknown (frozen.unknownField resolved "")
        | none => b.bufferField resolved value

/-- `put_field_resolved`. -/
def putFieldResolved (resolved : String) (value : Value) : TableBuilder :=
  if !b.buffering then b.pushFieldResolved resolved value
  else
    match b.unknownTo resolved with
    | some frozen => b.reportUnknown (frozen.unknownField resolved "")
    | none => b.bufferField resolved value

/-- `put_field_at`: push a value to a known slot. -/
def putFieldAt (slot : Nat) (value : Value) : TableBuilder :=
  if b.columns.length ≤ slot then b
  else ((b.recordStrictViolationAt slot value).notifyPutField slot value).writeSlot slot value

/-- `put_str_at`: `put_field_at` for a string, with a shorter path when there is no row buffer. -/
def putStrAt (slot : Nat) (value : String) : TableBuilder :=
  if b.rowBuf.isSome then b.putFieldAt slot (.str value)
  else if b.columns.length ≤ slot then b
  else
    let b := (b.recordStrictViolationAt slot (.str value)).notifyPutField slot (.str value)
    { b with
      rowDirty := b.rowDirty.insert slot
      columns := b.columns.modify slot fun c =>
        (if b.rowCount < c.len then c.pop else c).pushStr (some value) }

/-- The direct path of `resolve_and_put`, without a filter or once it has decided: resolve and
push. -/
def resolveAndPush (name : String) (value : Value) : TableBuilder :=
  if b.plan.isPlain then b.pushFieldResolved name value
  else
    match b.plan.resolveField name with
    | some resolved => b.pushFieldResolved resolved value
    | none => b

/-- `resolve_and_put`: resolve a raw field name and put the value; once the filter passes, drain the
buffered values and push the rest of the row directly. -/
def resolveAndPut (name : String) (value : Value) : TableBuilder :=
  if !b.buffering then b.resolveAndPush name value
  else
    match b.plan.resolveField name with
    | none => b
    | some resolved =>
        match b.unknownTo resolved with
        | some frozen => b.reportUnknown (frozen.unknownField resolved "")
        | none =>
            if b.rowBuf.any (·.direct) then b.pushFieldResolved resolved value
            else
              let (b, slot) := b.stageField resolved value
              if b.isPredicateSlot slot then
                let b := b.evaluateRow slot
                -- only the path without renames drains in the middle of the row
                if b.plan.isPlain && b.evaluatePredicateState == .pass then b.drainMidRow else b
              else b

/-- `end_row`. -/
def endRow : TableBuilder :=
  if !b.buffering then b.finishRow
  else
    match b.rowBuf with
    | none => b.drainBuffered true
    | some buf =>
        if buf.direct then b.nullFillMissing
        else
          let state := if buf.state = .undecided then b.evaluateAgainstNull else buf.state
          b.drainBuffered (decide (state = .pass))

/-- `row_rejected`. -/
def rowRejected : Bool := b.plan.filter.isSome && b.rowBuf.any fun buf => buf.state == .fail

/-- `row_satisfied`. -/
def rowSatisfied : Bool :=
  if b.cachedWantedMask = 0 then false
  else
    let dirty := b.rowDirty.words.foldl (· ||| ·) 0
    dirty &&& b.cachedWantedMask == b.cachedWantedMask

end TableBuilder

end Rypipe
