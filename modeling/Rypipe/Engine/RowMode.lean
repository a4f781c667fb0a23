import Rypipe.Engine.Buffer

/-! # The modes of a row

A row is read in one of three modes, and `RowMode` describes a builder in each of them by the table
of the rows before and the row in progress. One lemma for each step of the row interface says how
the step changes the two: `Between.beginRow`, `RowMode.put`, `RowMode.endRow`. -/

namespace Rypipe

variable [Platform]

namespace TableBuilder

/-- What the steps of a row do not change. -/
structure SamePlan (b b' : TableBuilder) : Prop where
  plan : b'.plan = b.plan
  frozen : b'.frozen = b.frozen

/-- A builder has its own plan and layout. -/
theorem SamePlan.refl (b : TableBuilder) : b.SamePlan b := ⟨rfl, rfl⟩

/-- Steps that keep plan and layout compose. -/
theorem SamePlan.trans {b b' b'' : TableBuilder} (h : b.SamePlan b') (h' : b'.SamePlan b'') :
    b.SamePlan b'' := ⟨h'.plan.trans h.plan, h'.frozen.trans h.frozen⟩

/-- A step that only works on the row keeps plan and layout. -/
theorem Frame.samePlan {b b' : TableBuilder} (h : b.Frame b') : b.SamePlan b' := ⟨h.plan, h.frozen⟩

/-- No row is being read. -/
structure Between (b : TableBuilder) (t : Table) : Prop where
  sound : b.Sound t noRow
  rowCount : b.rowCount = t.rows.length

/-- The values of the row go directly to the columns, which do not count it yet. -/
structure Direct (b : TableBuilder) (t : Table) (cur : CurrentRow) : Prop where
  sound : b.Sound t cur
  rowCount : b.rowCount = t.rows.length
  buffering : b.buffering = false
  direct : b.rowBuf.any (·.direct) = false

/-- A row is being read: directly, into the row buffer, or drained from it. -/
inductive RowMode (b : TableBuilder) (t : Table) (cur : CurrentRow) : Prop where
  | columns (h : b.Direct t cur)
  | buffered (buf : RowBuffer) (h : b.Buffered t cur buf)
  | drained (buf : RowBuffer) (h : b.Drained t cur buf)

/-- The row in progress assigns columns of the table. -/
theorem RowMode.within {b : TableBuilder} {t : Table} {cur : CurrentRow} (h : b.RowMode t cur)
    (name : String) (hn : (cur name).isSome) : name ∈ t.names := by
  cases h with
  | columns h => exact h.sound.holds.within name hn
  | buffered buf h => exact h.within_held name hn
  | drained buf h => exact h.sound.holds.within name hn

/-- The table after a put: its column exists, unless the field is dropped or refused. -/
def declarePut (b : TableBuilder) (t : Table) (p : Put) : Table :=
  match p.target b.plan with
  | some name => b.declareFor t name
  | none => t

/-- The row in progress after a put: its value is the value of the column, unless the field is
dropped or refused. -/
def assignPut (b : TableBuilder) (cur : CurrentRow) (p : Put) : CurrentRow :=
  match p.target b.plan with
  | some name => b.assignFor cur name p.value
  | none => cur

@[simp] theorem rows_declarePut (b : TableBuilder) (t : Table) (p : Put) :
    (b.declarePut t p).rows = t.rows := by
  rw [declarePut]
  split
  · exact rows_declareFor b t _
  · rfl

/-- The unknown names are those an exact frozen layout withholds. -/
theorem Sound.unknownTo_eq {b : TableBuilder} {t : Table} {cur : CurrentRow} (h : b.Sound t cur)
    (name : String) : b.unknownTo name = b.exactWithout name := by
  rw [unknownTo]
  cases hexact : b.exactWithout name with
  | none => rfl
  | some frozen =>
      rw [exactWithout] at hexact
      split at hexact
      · cases hexact
      · next hnot =>
        have hf : b.frozen = some frozen := (Option.filter_eq_some_iff.mp hexact).1
        have hknown : name ∉ frozen.names := fun hmem =>
          hnot ((h.holds.mem_index name).mpr (h.known frozen hf name hmem))
        simp [hknown]

/-- A report of an unknown field keeps what the columns hold. -/
theorem Sound.reportUnknown {b : TableBuilder} {t : Table} {cur : CurrentRow} (h : b.Sound t cur)
    (message : String) : (b.reportUnknown message).Sound t cur :=
  ⟨h.holds, h.order, h.known, h.rowBuf⟩

section Begin

/-- `begin_row` starts an empty row, buffered or direct. Which of the two is decided by the rows
before, and both start with no value. -/
theorem Between.beginRow {b : TableBuilder} {t : Table} (h : b.Between t) :
    b.beginRow.RowMode t noRow ∧ b.Frame b.beginRow ∧
      b.beginRow.fieldIndex = b.fieldIndex ∧ b.beginRow.unknownError = b.unknownError := by
  refine ⟨?_, ⟨rfl, rfl, rfl⟩, rfl, rfl⟩
  have hs : b.beginRow.Sound t noRow := by
    refine ⟨h.sound.holds, h.sound.order, h.sound.known, ?_⟩
    show (b.rowBuf.map _).isSome = b.plan.filter.isSome
    rw [Option.isSome_map]
    exact h.sound.rowBuf
  cases hbuf : b.beginRow.rowBuf with
  | none =>
      have hfilter : b.beginRow.plan.filter.isSome = false := by
        rw [← hs.rowBuf, hbuf]
        rfl
      exact .columns ⟨hs, h.rowCount, by rw [buffering, hfilter]; rfl, by rw [hbuf]; rfl⟩
  | some buf =>
      obtain ⟨buf₀, hbuf₀, rfl⟩ := Option.map_eq_some_iff.mp hbuf
      have hfilter : b.beginRow.plan.filter.isSome = true := by
        rw [← hs.rowBuf, hbuf]
        rfl
      by_cases hworth : b.beginRow.buffering = true
      · have hw := hworth
        rw [buffering, hfilter, hbuf] at hw
        refine .buffered _ ⟨hbuf, by simpa using hw, rfl, hs, h.rowCount, List.nodup_nil, ?_, ?_⟩
        · intro name
          cases b.beginRow.fieldIndex.lookup name <;> rfl
        · intro p hp
          cases hp
      · exact .columns ⟨hs, h.rowCount, by simpa using hworth, by rw [hbuf]; rfl⟩

end Begin

section Puts

variable {b : TableBuilder} {t : Table} {cur : CurrentRow} {buf : RowBuffer}

/-- A name that the layout does not refuse is assigned in the row. -/
theorem assignFor_of_none {name : String} (h : b.exactWithout name = none) (value : Value) :
    b.assignFor cur name value = Function.update cur name (some value) := by
  rw [assignFor, h]
  rfl

/-- Such a name is declared with the type that the plan has for it. -/
theorem declareFor_of_none {name : String} (h : b.exactWithout name = none) :
    b.declareFor t name = t.declare name (b.plan.columnType name) := by
  rw [declareFor, h]
  rfl

/-- A name that the layout refuses is not assigned. -/
theorem assignFor_of_some {name : String} {frozen : FrozenSchema}
    (h : b.exactWithout name = some frozen) (value : Value) : b.assignFor cur name value = cur := by
  rw [assignFor, h]
  rfl

/-- Nor is it declared. -/
theorem declareFor_of_some {name : String} {frozen : FrozenSchema}
    (h : b.exactWithout name = some frozen) : b.declareFor t name = t := by
  rw [declareFor, h]
  rfl

/-- A direct put assigns the row in the columns, by any entry point; a put that is dropped or
refused assigns nothing. -/
theorem Direct.put (h : b.Direct t cur) (p : Put) :
    (b.put p).Direct (b.declarePut t p) (b.assignPut cur p) ∧ b.Frame (b.put p) := by
  rw [put_of_not_buffering h.buffering, declarePut, assignPut]
  cases htarget : p.target b.plan with
  | none => exact ⟨h, .refl b⟩
  | some name =>
      have hback : b.backfill = t.rows.length := by
        rw [TableBuilder.backfill, h.direct]
        exact h.rowCount
      obtain ⟨hs, hf, hbuf⟩ := h.sound.pushFieldResolved hback p.value (Or.inl h.rowCount)
      refine ⟨⟨hs, ?_, ?_, ?_⟩, hf⟩
      · rw [hf.rowCount, h.rowCount, rows_declareFor]
      · show (b.pushFieldResolved name p.value).buffering = false
        rw [TableBuilder.buffering, hf.plan, hbuf]
        exact h.buffering
      · show (b.pushFieldResolved name p.value).rowBuf.any _ = false
        rw [hbuf]
        exact h.direct

/-- Evaluating the filter keeps the buffered row. -/
theorem Holding.evaluateRow {cells : CurrentRow} (h : b.Holding t cells cur buf) (slot : Nat) :
    ∃ buf', (b.evaluateRow slot).Holding t cells cur buf' ∧ b.Frame (b.evaluateRow slot) ∧
      (b.evaluateRow slot).unknownError = b.unknownError ∧
      buf'.state = b.evaluatePredicateState := by
  obtain ⟨g, heq, hg⟩ := b.evaluateRow_eq slot
  obtain ⟨hfields, hdirect, hworth, hstate⟩ := hg buf
  rw [heq]
  exact ⟨g buf, h.mapRowBuf hfields hdirect hworth, ⟨rfl, rfl, rfl⟩, rfl, hstate⟩

/-- Whether buffering a value under an output name evaluates the filter. -/
def evaluatesAt (b : TableBuilder) (resolved : String) (value : Value) : Bool :=
  (b.stageField resolved value).1.isPredicateSlot (b.stageField resolved value).2

/-- The buffered verdict after a value came for `resolved`: the one before, or the verdict on the
new row where the filter is evaluated. -/
def Judged (b : TableBuilder) (resolved : String) (value : Value) (cur : CurrentRow)
    (buf buf' : RowBuffer) : Prop :=
  buf'.state = buf.state ∨ (b.evaluatesAt resolved value = true ∧
    ∃ f, b.plan.filter = some f ∧ buf'.state = evalPredicate b.plan (rowGet b.plan cur) f)

/-- Buffering a field that is not withheld assigns the row in progress. -/
theorem Holding.bufferField {cells : CurrentRow} (h : b.Holding t cells cur buf) {resolved : String}
    (value : Value) (hname : b.exactWithout resolved = none) :
    ∃ buf', (b.bufferField resolved value).Holding (b.declareFor t resolved) cells
        (b.assignFor cur resolved value) buf' ∧ b.Frame (b.bufferField resolved value) ∧
      Judged b resolved value (b.assignFor cur resolved value) buf buf' := by
  rw [assignFor_of_none hname, declareFor_of_none hname]
  obtain ⟨b₁, slot, buf₁, hstage, h₁, hstate, hframe, -⟩ := h.stageField value hname
  simp only [Judged, evaluatesAt, TableBuilder.bufferField, hstage]
  split
  · next heval =>
    obtain ⟨buf₂, h₂, hframe₂, -, hstate₂⟩ := h₁.evaluateRow slot
    obtain ⟨f, hf⟩ := Option.isSome_iff_exists.mp h₁.filter
    refine ⟨buf₂, h₂, hframe.trans hframe₂, Or.inr ⟨heval, f, hframe.plan ▸ hf, ?_⟩⟩
    rw [hstate₂, h₁.evaluatePredicateState hf, hframe.plan]
  · exact ⟨buf₁, h₁, hframe, Or.inl hstate⟩

/-- A refused field leaves the buffered row alone. -/
theorem Holding.reportUnknown {cells : CurrentRow} (h : b.Holding t cells cur buf)
    (message : String) : (b.reportUnknown message).Holding t cells cur buf :=
  ⟨h.rowBuf, h.worthwhile, h.direct, h.sound.reportUnknown message, h.rowCount, h.distinct,
    h.fields, h.inRange⟩

/-- The outcome of a put on a buffered row: the row stays buffered, or the filter has passed on it
and it has been drained. -/
inductive PutOutcome (b : TableBuilder) (p : Put) (b' : TableBuilder) (t : Table)
    (cells cur : CurrentRow) (buf : RowBuffer) : Prop
  | same (h : b'.Holding t cells cur buf)
  | buffered (resolved : String) (htarget : p.target b.plan = some resolved) (buf' : RowBuffer)
      (h : b'.Holding t cells cur buf') (hjudged : Judged b resolved p.value cur buf buf')
  | drained (resolved : String) (htarget : p.target b.plan = some resolved) (buf' : RowBuffer)
      (h : b'.Drained t (overlay cells cur) buf') (hstaged : b'.Staged t (overlay cells cur) noRow buf')
      (hstate : buf'.state = .undecided) (heval : b.evaluatesAt resolved p.value = true)
      (f : FilterPredicate) (hfilter : b.plan.filter = some f)
      (hpass : evalPredicate b.plan (rowGet b.plan cur) f = .pass)

/-- `resolve_and_put` of a known name stages the value and evaluates the filter, if the name is one of
its fields. A Pass drains the row at once; a Fail or no decision leaves it in the row buffer. -/
theorem Holding.resolveAndPut {cells : CurrentRow} (h : b.Holding t cells cur buf) {name resolved : String}
    (value : Value) (hres : b.plan.resolveField name = some resolved)
    (hexact : b.exactWithout resolved = none) :
    PutOutcome b (.resolveAndPut name value) (b.put (.resolveAndPut name value))
      (b.declareFor t resolved) cells (b.assignFor cur resolved value) buf ∧
      b.SamePlan (b.put (.resolveAndPut name value)) := by
  have hdirect : b.rowBuf.any (·.direct) = false := by
    rw [h.rowBuf]
    exact h.direct
  rw [TableBuilder.put, TableBuilder.resolveAndPut, h.buffering, hres]
  simp only [Bool.not_true, Bool.false_eq_true, ↓reduceIte]
  rw [h.sound.unknownTo_eq, hexact]
  dsimp only
  rw [hdirect, assignFor_of_none hexact, declareFor_of_none hexact]
  obtain ⟨b₁, slot, buf₁, hstage, h₁, hstate, hframe, -⟩ := h.stageField value hexact
  rw [hstage]
  simp only [Bool.false_eq_true, ↓reduceIte]
  split
  · next heval =>
    have heval' : b.evaluatesAt resolved value = true := by
      rw [evaluatesAt, hstage]
      exact heval
    obtain ⟨buf₂, h₂, hframe₂, -, hstate₂⟩ := h₁.evaluateRow slot
    have hplan := (hframe.trans hframe₂).plan
    obtain ⟨f, hf⟩ := Option.isSome_iff_exists.mp h₂.filter
    have hf' : b.plan.filter = some f := hplan ▸ hf
    split
    · next hpass =>
      -- the filter passes, and the row is drained
      rw [Bool.and_eq_true, beq_iff_eq, h₂.evaluatePredicateState hf, hplan] at hpass
      obtain ⟨buf₃, h₃, hs₃, hst₃, hp₃, hfr₃⟩ := h₂.drainMidRow
      exact ⟨.drained resolved hres buf₃ h₃ hs₃ hst₃ heval' f hf' hpass.2,
        (hframe.trans hframe₂).samePlan.trans ⟨hp₃, hfr₃⟩⟩
    · refine ⟨.buffered resolved hres buf₂ h₂ (Or.inr ⟨heval', f, hf', ?_⟩),
        (hframe.trans hframe₂).samePlan⟩
      rw [hstate₂, h₁.evaluatePredicateState (by rw [hframe.plan]; exact hf'),
        hframe.plan]
  · exact ⟨.buffered resolved hres buf₁ h₁ (Or.inl hstate), hframe.samePlan⟩

/-- A put on a buffered row assigns the row in progress. Once an unknown field has been reported,
`put_field` does not notice another one. -/
theorem Holding.put {cells : CurrentRow} (h : b.Holding t cells cur buf) (p : Put)
    (hknown : ∀ name value resolved, p = .field name value → b.unknownError.isSome →
      b.plan.resolveField name = some resolved → b.exactWithout resolved = none) :
    PutOutcome b p (b.put p) (b.declarePut t p) cells (b.assignPut cur p) buf ∧
      b.SamePlan (b.put p) := by
  -- an unknown name under an exact schema is reported, and nothing is buffered
  have hrefused : ∀ (resolved : String) (value : Value) (frozen : FrozenSchema) (message : String),
      b.exactWithout resolved = some frozen →
      PutOutcome b p (b.reportUnknown message) (b.declareFor t resolved) cells
        (b.assignFor cur resolved value) buf ∧ b.SamePlan (b.reportUnknown message) := by
    intro resolved value frozen message hexact
    rw [assignFor_of_some hexact, declareFor_of_some hexact]
    exact ⟨.same (h.reportUnknown message), rfl, rfl⟩
  -- a known name waits in the row buffer
  have hbuffer : ∀ resolved : String, p.target b.plan = some resolved →
      b.exactWithout resolved = none →
      PutOutcome b p (b.bufferField resolved p.value) (b.declareFor t resolved) cells
        (b.assignFor cur resolved p.value) buf ∧
        b.SamePlan (b.bufferField resolved p.value) := by
    intro resolved htarget hexact
    obtain ⟨buf', h', hframe, hjudged⟩ := h.bufferField p.value hexact
    exact ⟨.buffered resolved htarget buf' h' hjudged, hframe.samePlan⟩
  cases p with
  | field name value =>
      rw [TableBuilder.put, putField, h.buffering, declarePut, assignPut, Put.target]
      simp only [Bool.not_true, Bool.false_eq_true, ↓reduceIte]
      cases hres : b.plan.resolveField name with
      | none => exact ⟨.same h, .refl b⟩
      | some resolved =>
          dsimp only
          rw [h.sound.unknownTo_eq]
          cases hexact : b.exactWithout resolved with
          | none =>
              rw [ite_self]
              exact hbuffer resolved hres hexact
          | some frozen =>
              cases hunk : b.unknownError with
              | none => exact hrefused resolved value frozen _ hexact
              | some message =>
                  -- a second unknown name would be buffered, which `hknown` excludes
                  have hnone := hknown name value resolved rfl (by rw [hunk]; rfl) hres
                  cases hexact.symm.trans hnone
  | fieldResolved resolved value =>
      rw [TableBuilder.put, putFieldResolved, h.buffering, declarePut, assignPut, Put.target]
      simp only [Bool.not_true, Bool.false_eq_true, ↓reduceIte]
      rw [h.sound.unknownTo_eq]
      cases hexact : b.exactWithout resolved with
      | none => exact hbuffer resolved rfl hexact
      | some frozen => exact hrefused resolved value frozen _ hexact
  | resolveAndPut name value =>
      cases hres : b.plan.resolveField name with
      | none =>
          rw [TableBuilder.put, TableBuilder.resolveAndPut, h.buffering, declarePut, assignPut,
            Put.target, hres]
          exact ⟨.same h, .refl b⟩
      | some resolved =>
          have htarget : (Put.resolveAndPut name value).target b.plan = some resolved := hres
          rw [declarePut, assignPut, htarget]
          cases hexact : b.exactWithout resolved with
          | none => exact h.resolveAndPut value hres hexact
          | some frozen =>
              rw [TableBuilder.put, TableBuilder.resolveAndPut, h.buffering, hres]
              simp only [Bool.not_true, Bool.false_eq_true, ↓reduceIte]
              rw [h.sound.unknownTo_eq, hexact]
              exact hrefused resolved value frozen _ hexact

/-- A builder that has drained its row still counts as buffering: it has a filter and a row buffer
that is worthwhile. -/
theorem Drained.buffering (h : b.Drained t cur buf) : b.buffering = true := by
  have hfilter : b.plan.filter.isSome = true := by
    rw [← h.sound.rowBuf, h.rowBuf]
    rfl
  rw [TableBuilder.buffering, hfilter, h.rowBuf]
  simpa using h.worthwhile

/-- A change of the row buffer that keeps the mode keeps the drained row, which is in the
columns. -/
theorem Drained.mapRowBuf (h : b.Drained t cur buf) {g : RowBuffer → RowBuffer}
    (hdirect : (g buf).direct = buf.direct)
    (hworth : (g buf).bufferWorthwhile = buf.bufferWorthwhile) :
    (b.mapRowBuf g).Drained t cur (g buf) where
  rowBuf := by rw [TableBuilder.mapRowBuf, h.rowBuf, Option.map_some]
  worthwhile := hworth.trans h.worthwhile
  direct := hdirect.trans h.direct
  sound := by
    refine ⟨h.sound.holds, h.sound.order, h.sound.known, ?_⟩
    show (b.rowBuf.map g).isSome = b.plan.filter.isSome
    rw [Option.isSome_map, h.sound.rowBuf]
  rowCount := h.rowCount

/-- An unknown field sets the error and keeps the mode. -/
theorem Drained.reportUnknown (h : b.Drained t cur buf) (message : String) :
    (b.reportUnknown message).Drained t cur buf :=
  ⟨h.rowBuf, h.worthwhile, h.direct, h.sound.reportUnknown message, h.rowCount⟩

/-- A refused field that is buffered after the drain only reaches the row buffer. -/
theorem Drained.bufferField (h : b.Drained t cur buf) {resolved : String} {frozen : FrozenSchema}
    (hexact : b.exactWithout resolved = some frozen) (value : Value) :
    ∃ buf', (b.bufferField resolved value).Drained t cur buf' ∧
      b.SamePlan (b.bufferField resolved value) := by
  have hnot : b.fieldIndex.lookup resolved = none := by
    rw [AList.lookup_eq_none]
    intro hmem
    rw [exactWithout_of_mem hmem] at hexact
    cases hexact
  have hens : b.ensureColumnIdx resolved =
      (b.reportUnknown (frozen.unknownField resolved fullListAdvice), 0) := by
    rw [ensureColumnIdx, hnot, hexact]
  obtain ⟨err, g, hstage, hg⟩ := stageField_eq hens value
  obtain ⟨-, hdirect, hworth, -⟩ := hg buf
  have h₁ : ({ b.reportUnknown (frozen.unknownField resolved fullListAdvice) with
      strictError := err } : TableBuilder).Drained t cur buf := by
    have h' := h.reportUnknown (frozen.unknownField resolved fullListAdvice)
    exact ⟨h'.rowBuf, h'.worthwhile, h'.direct,
      ⟨h'.sound.holds, h'.sound.order, h'.sound.known, h'.sound.rowBuf⟩, h'.rowCount⟩
  have h₂ := h₁.mapRowBuf hdirect hworth
  rw [TableBuilder.bufferField, hstage]
  dsimp only
  split
  · obtain ⟨g', heq, hg'⟩ := evaluateRow_eq
      ({ b.reportUnknown (frozen.unknownField resolved fullListAdvice) with
        strictError := err }.mapRowBuf g) 0
    obtain ⟨-, hdirect', hworth', -⟩ := hg' (g buf)
    rw [heq]
    exact ⟨_, h₂.mapRowBuf hdirect' hworth', rfl, rfl⟩
  · exact ⟨_, h₂, rfl, rfl⟩

/-- After a mid-row drain, `resolve_and_put` assigns a column that has no value in the row yet. The
row is in the columns and counted already, so the value overwrites the cell of the last row;
`put_field`, which would buffer it, is excluded here. -/
theorem Drained.put (h : b.Drained t cur buf) (p : Put)
    (hfresh : ∀ resolved, p.target b.plan = some resolved → b.exactWithout resolved = none →
      (∃ name value, p = .resolveAndPut name value) ∧ cur resolved = none) :
    ∃ buf', (b.put p).Drained (b.declarePut t p) (b.assignPut cur p) buf' ∧
      b.SamePlan (b.put p) := by
  -- an unknown name under an exact schema is reported, and no column changes
  have hrefused : ∀ (resolved : String) (value : Value) (frozen : FrozenSchema) (message : String),
      b.exactWithout resolved = some frozen →
      ∃ buf', (b.reportUnknown message).Drained (b.declareFor t resolved)
        (b.assignFor cur resolved value) buf' ∧ b.SamePlan (b.reportUnknown message) := by
    intro resolved value frozen message hexact
    rw [assignFor_of_some hexact, declareFor_of_some hexact]
    exact ⟨buf, h.reportUnknown message, rfl, rfl⟩
  cases p with
  | field name value =>
      rw [TableBuilder.put, putField, h.buffering, declarePut, assignPut]
      simp only [Bool.not_true, Bool.false_eq_true, ↓reduceIte, Put.target, Put.value]
      cases hres : b.plan.resolveField name with
      | none => exact ⟨buf, h, .refl b⟩
      | some resolved =>
          dsimp only
          rw [h.sound.unknownTo_eq]
          cases hexact : b.exactWithout resolved with
          | none =>
              -- after a drain only `resolve_and_put` writes to the columns
              obtain ⟨⟨_, _, hput⟩, -⟩ := hfresh resolved hres hexact
              cases hput
          | some frozen =>
              cases hunk : b.unknownError with
              | none => exact hrefused resolved value frozen _ hexact
              | some message =>
                  obtain ⟨buf', h', hsame⟩ := h.bufferField hexact value
                  rw [assignFor_of_some hexact, declareFor_of_some hexact]
                  exact ⟨buf', h', hsame⟩
  | fieldResolved resolved value =>
      rw [TableBuilder.put, putFieldResolved, h.buffering, declarePut, assignPut]
      simp only [Bool.not_true, Bool.false_eq_true, ↓reduceIte, Put.target, Put.value]
      rw [h.sound.unknownTo_eq]
      cases hexact : b.exactWithout resolved with
      | none =>
          obtain ⟨⟨_, _, hput⟩, -⟩ := hfresh resolved rfl hexact
          cases hput
      | some frozen => exact hrefused resolved value frozen _ hexact
  | resolveAndPut name value =>
      rw [TableBuilder.put, resolveAndPut, h.buffering, declarePut, assignPut]
      simp only [Bool.not_true, Bool.false_eq_true, ↓reduceIte, Put.target, Put.value]
      cases hres : b.plan.resolveField name with
      | none => exact ⟨buf, h, .refl b⟩
      | some resolved =>
          dsimp only
          rw [h.sound.unknownTo_eq]
          cases hexact : b.exactWithout resolved with
          | some frozen => exact hrefused resolved value frozen _ hexact
          | none =>
              have hdirect : b.rowBuf.any (·.direct) = true := by
                rw [h.rowBuf]
                exact h.direct
              -- a column declared after the drain is filled up to the current row
              have hback : b.backfill = t.rows.length := by
                rw [TableBuilder.backfill, hdirect, h.rowCount]
                rfl
              obtain ⟨-, hnone⟩ := hfresh resolved hres hexact
              obtain ⟨hs, hf, hbuf⟩ := h.sound.pushFieldResolved hback value
                (Or.inr ⟨h.rowCount, hnone⟩)
              simp only [hdirect, ↓reduceIte]
              refine ⟨buf, ⟨hbuf.trans h.rowBuf, h.worthwhile, h.direct, hs, ?_⟩, hf.samePlan⟩
              rw [hf.rowCount, h.rowCount, rows_declareFor]

/-- The puts the builder keeps: once the row has been drained, a value goes through
`resolve_and_put` to a column without a value in the row; and while the row is buffered, no
`put_field` follows the report of an unknown field with another unknown one. -/
structure Keeps (b : TableBuilder) (p : Put) : Prop where
  drained : b.rowBuf.any (·.direct) = true → ∀ resolved, p.target b.plan = some resolved →
    b.exactWithout resolved = none → (∃ name value, p = .resolveAndPut name value) ∧
      ∀ slot : Nat, b.fieldIndex.lookup resolved = some slot → b.rowDirty.test slot = false
  unknown : b.rowBuf.any (·.direct) = false → b.buffering = true → b.unknownError.isSome = true →
    ∀ name value resolved, p = .field name value → b.plan.resolveField name = some resolved →
      b.exactWithout resolved = none

/-- A put that the builder keeps assigns the row in progress, in every mode. -/
theorem RowMode.put (h : b.RowMode t cur) {p : Put} (hp : b.Keeps p) :
    (b.put p).RowMode (b.declarePut t p) (b.assignPut cur p) ∧ b.SamePlan (b.put p) := by
  cases h with
  | columns h => exact ⟨.columns (h.put p).1, (h.put p).2.samePlan⟩
  | buffered buf h =>
      have hdirect : b.rowBuf.any (·.direct) = false := by
        rw [h.rowBuf]
        exact h.direct
      obtain ⟨hout, hsame⟩ := h.put p fun name value resolved heq hunk hres =>
        hp.unknown hdirect h.buffering hunk name value resolved heq hres
      cases hout with
      | same h' => exact ⟨.buffered buf h', hsame⟩
      | buffered _ _ buf' h' _ => exact ⟨.buffered buf' h', hsame⟩
      -- a Pass in the middle of the row drains it
      | drained _ _ buf' h' _ _ _ _ _ _ =>
          rw [overlay_noRow] at h'
          exact ⟨.drained buf' h', hsame⟩
  | drained buf h =>
      have hdirect : b.rowBuf.any (·.direct) = true := by
        rw [h.rowBuf]
        exact h.direct
      obtain ⟨buf', h', hsame⟩ := h.put p fun resolved htarget hexact => by
        obtain ⟨hput, hclean⟩ := hp.drained hdirect resolved htarget hexact
        -- a clean bit says that the row has not written the column yet
        refine ⟨hput, ?_⟩
        cases hlook : b.fieldIndex.lookup resolved with
        | none =>
            have hnot := (h.sound.holds.lookup_eq_none resolved).mp hlook
            by_contra hsome
            exact hnot (h.sound.holds.within resolved (Option.isSome_iff_ne_none.mpr hsome))
        | some slot =>
            obtain ⟨ty, hty⟩ := h.sound.holds.cols_of_lookup hlook
            have hmark := h.sound.holds.marked slot _ hty
            rw [hclean slot hlook] at hmark
            exact Option.isNone_iff_eq_none.mp (Option.isSome_eq_false_iff.mp hmark.symm)
      exact ⟨.drained buf' h', hsame⟩

end Puts

section End

variable {b : TableBuilder} {t : Table} {cur : CurrentRow} {buf : RowBuffer}

/-- Whether `end_row` keeps the row. -/
def keepsRow (b : TableBuilder) : Bool :=
  if !b.buffering then
    match b.plan.filter with
    | some f => f.check b.nullFill.columns b.fieldIndex b.rowCount b.plan
    | none => true
  else
    match b.rowBuf with
    | none => true
    | some buf =>
        buf.direct ||
          decide ((if buf.state = .undecided then b.evaluateAgainstNull else buf.state) = .pass)

/-- The table after `end_row`. -/
def endTable (b : TableBuilder) (t : Table) (cur : CurrentRow)
    (h : ∀ name, (cur name).isSome → name ∈ t.names) : Table :=
  if b.keepsRow then t.commit cur h else t

/-- `end_row` of a direct row commits it, or pops it again. The check reads the columns after the
null-fill, so it sees the whole row. -/
theorem Direct.endRow (h : b.Direct t cur) :
    b.endRow.Between (b.endTable t cur h.sound.holds.within) ∧ b.SamePlan b.endRow := by
  have hend : b.endRow = if b.keepsRow then b.nullFill.acceptRow else b.nullFill.popRow.rejectRow := by
    rw [TableBuilder.endRow, keepsRow, h.buffering, finishRow]
    simp only [Bool.not_false, ↓reduceIte, nullFill_plan, nullFill_fieldIndex, nullFill_rowCount]
    cases b.plan.filter <;> rfl
  have hfill := h.sound.nullFill
  rw [hend, endTable]
  cases b.keepsRow with
  | true =>
      refine ⟨⟨hfill.acceptRow, ?_⟩, b.nullFill_plan, b.nullFill_frozen⟩
      show b.nullFill.rowCount + 1 = (t.rows ++ [cur]).length
      rw [nullFill_rowCount, h.rowCount, List.length_append, List.length_singleton]
  | false =>
      have hs : b.nullFill.popRow.Sound t noRow :=
        ⟨hfill.holds.popRow, hfill.order, hfill.known, hfill.rowBuf⟩
      exact ⟨⟨hs.rejectRow, b.nullFill_rowCount.trans h.rowCount⟩, b.nullFill_plan,
        b.nullFill_frozen⟩

/-- `end_row` of a buffered row drains it to the columns, or drops it; values in the columns stay there, so
a row with such values has to be kept. -/
theorem Holding.endRow {cells : CurrentRow} (h : b.Holding t cells cur buf)
    (hkept : cells = noRow ∨ b.keepsRow = true) :
    b.endRow.Between (b.endTable t (overlay cells cur) h.within) ∧ b.SamePlan b.endRow := by
  have hend : b.endRow = b.drainBuffered b.keepsRow := by
    rw [TableBuilder.endRow, keepsRow, h.buffering]
    simp only [Bool.not_true, Bool.false_eq_true, ↓reduceIte, h.rowBuf, h.direct, Bool.false_or]
  rw [hend, endTable]
  cases hkeeps : b.keepsRow with
  | true =>
      obtain ⟨hs, hrow, hplan, hfrozen⟩ := h.accept
      refine ⟨⟨hs, ?_⟩, hplan, hfrozen⟩
      rw [hrow]
      show _ = (t.rows ++ [_]).length
      rw [List.length_append, List.length_singleton]
  | false =>
      obtain rfl := hkept.resolve_right (by rw [hkeeps]; exact Bool.false_ne_true)
      obtain ⟨hs, hrow, hplan, hfrozen⟩ := Buffered.reject h
      exact ⟨⟨hs, hrow⟩, hplan, hfrozen⟩

/-- `end_row` of a drained row null-fills it; the row was counted when it was drained. -/
theorem Drained.endRow (h : b.Drained t cur buf) :
    b.endRow.Between (b.endTable t cur h.sound.holds.within) ∧ b.SamePlan b.endRow := by
  have hkeeps : b.keepsRow = true := by
    rw [keepsRow, h.buffering]
    simp only [Bool.not_true, Bool.false_eq_true, ↓reduceIte, h.rowBuf, h.direct, Bool.true_or]
  have hend : b.endRow = b.nullFill := by
    rw [TableBuilder.endRow, h.buffering]
    simp only [Bool.not_true, Bool.false_eq_true, ↓reduceIte, h.rowBuf, h.direct]
    rfl
  rw [hend, endTable, if_pos hkeeps]
  refine ⟨⟨h.sound.nullFill, ?_⟩, b.nullFill_plan, b.nullFill_frozen⟩
  rw [nullFill_rowCount, h.rowCount]
  show _ = (t.rows ++ [cur]).length
  rw [List.length_append, List.length_singleton]

/-- `end_row` commits the row in progress, or drops it. -/
theorem RowMode.endRow (h : b.RowMode t cur) :
    b.endRow.Between (b.endTable t cur h.within) ∧ b.SamePlan b.endRow := by
  cases h with
  | columns h => exact h.endRow
  | buffered buf h =>
      have hend := h.endRow (.inl rfl)
      simp only [overlay_noRow] at hend
      exact hend
  | drained buf h => exact h.endRow

end End

end TableBuilder

end Rypipe
