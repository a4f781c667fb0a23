import Rypipe.SlotPath.Written

/-! # Rows written by slot

A run of rows some of which are written by the slots of their columns (`put_field_at`, `put_str_at`),
against the run in which `put_field` is given all of them. The slot path writes to the columns at once, so
that under a filter that is evaluated on the row buffer the row is judged as a row without values, and its
cells stay in the columns when it is rejected. The runs agree row by row exactly as long as the verdicts do
and a row that is kept covers what is left over (`slot_path_iff`). -/

namespace Rypipe

section SlotPath

variable [Platform]

namespace TableBuilder

section Named

variable {a b : TableBuilder} {t : Table}

/-! ## Rows given to `put_field` -/

/-- What `put_field` leaves alone, for a column that exists. The plan, the index and the rows are
those from before; only the column or the row buffer is written. -/
theorem putField_frame {raw name : String} {slot : Nat} (hres : b.plan.resolveField raw = some name)
    (hslot : b.fieldIndex.lookup name = some slot) (value : Value) :
    (b.put (.field raw value)).plan = b.plan ∧
      (b.put (.field raw value)).fieldIndex = b.fieldIndex ∧
      (b.put (.field raw value)).rowBuf.any (·.direct) = b.rowBuf.any (·.direct) := by
  have hmem : name ∈ b.fieldIndex := AList.lookup_isSome.mp (by rw [hslot]; rfl)
  have hexact := exactWithout_of_mem hmem
  have hens : b.ensureColumnIdx name = (b, slot) := by rw [ensureColumnIdx, hslot]
  have htarget : (Put.field raw value).target b.plan = some name := hres
  have hquiet := quiet_put htarget hexact
  rw [admitField, hens] at hquiet
  refine ⟨hquiet.plan, hquiet.index, ?_⟩
  cases hbuf : b.buffering with
  | false =>
      rw [put_of_not_buffering hbuf, htarget]
      show (b.pushFieldResolved name value).rowBuf.any _ = _
      rw [pushFieldResolved, hexact, hens]
      rfl
  | true =>
      have hput : b.put (.field raw value) = b.bufferField name value := by
        have hunknown : b.unknownTo name = none := by rw [unknownTo, hexact]; rfl
        simp [TableBuilder.put, putField, hbuf, hres, hunknown]
      obtain ⟨err, g, heq, hg⟩ := bufferField_eq hslot value
      rw [hput, heq]
      show (b.rowBuf.map g).any _ = _
      cases b.rowBuf with
      | none => rfl
      | some buf => exact hg buf

/-- The builder keeps what `put_field` gives it for columns that exist, and declares none. Whether
the row goes to the columns or waits in the buffer, its values are those of the fields that the plan
resolves, the last one for each name. -/
theorem namedRow_keeps {row : List RowField}
    (hcols : ∀ x ∈ row, ∀ name, b.plan.resolveField x.name = some name → name ∈ b.fieldIndex)
    (hnames : ∀ name, name ∈ b.fieldIndex → name ∈ t.names)
    (hdirect : b.rowBuf.any (·.direct) = false) :
    b.KeepsAll (namedRow row) ∧ b.declarePuts t (namedRow row) = t ∧
      b.assignments (namedRow row) = rowValues b.plan row := by
  induction row generalizing b with
  | nil => exact ⟨trivial, rfl, rfl⟩
  | cons x row ih =>
      have hrest : ∀ y ∈ row, ∀ name, b.plan.resolveField y.name = some name →
          name ∈ b.fieldIndex := fun y hy => hcols y (List.mem_cons_of_mem x hy)
      have hkeeps : b.Keeps x.put := by
        refine ⟨fun htrue => ?_, fun _ _ _ name value resolved heq hres => ?_⟩
        · cases hdirect.symm.trans htrue
        · have hname : x.name = name := (Put.field.inj heq).1
          exact exactWithout_of_mem (hcols x List.mem_cons_self resolved (hname ▸ hres))
      cases hres : b.plan.resolveField x.name with
      -- a field that the plan drops changes nothing
      | none =>
          have htarget : x.put.target b.plan = none := hres
          have hput : b.put x.put = b := put_of_dropped htarget
          obtain ⟨hk, hdeclare, hassign⟩ := ih hrest hnames hdirect
          refine ⟨⟨hkeeps, hput.symm ▸ hk⟩, ?_, ?_⟩
          · show (b.put x.put).declarePuts (b.declarePut t x.put) (namedRow row) = t
            rw [hput, declarePut, htarget]
            exact hdeclare
          · rw [rowValues, List.filterMap_cons, hres]
            show (b.assignments (x.put :: namedRow row)) = _
            rw [assignments, List.filterMap_cons, htarget]
            exact hassign
      | some name =>
          have htarget : x.put.target b.plan = some name := hres
          have hmem := hcols x List.mem_cons_self name hres
          -- the column exists, so the put neither declares one nor turns the row direct
          obtain ⟨slot, hslot⟩ := Option.isSome_iff_exists.mp (AList.lookup_isSome.mpr hmem)
          obtain ⟨hplan, hindex, hsame⟩ := putField_frame hres hslot x.value
          obtain ⟨hk, hdeclare, -⟩ := ih (b := b.put x.put) (by
            rw [show (b.put x.put).plan = b.plan from hplan,
              show (b.put x.put).fieldIndex = b.fieldIndex from hindex]
            exact hrest) (by
            rw [show (b.put x.put).fieldIndex = b.fieldIndex from hindex]
            exact hnames) (hsame.trans hdirect)
          obtain ⟨-, -, hassign⟩ := ih hrest hnames hdirect
          refine ⟨⟨hkeeps, hk⟩, ?_, ?_⟩
          · show (b.put x.put).declarePuts (b.declarePut t x.put) (namedRow row) = t
            have hstays : b.declarePut t x.put = t := by
              rw [declarePut, htarget]
              show b.declareFor t name = t
              rw [declareFor_of_none (exactWithout_of_mem hmem),
                RowTable.declare_of_mem (hnames name hmem)]
            rw [hstays]
            exact hdeclare
          · rw [rowValues, List.filterMap_cons, hres]
            show (b.assignments (x.put :: namedRow row)) = (name, x.value) :: rowValues b.plan row
            rw [assignments, List.filterMap_cons, htarget, Option.bind_some,
              exactWithout_of_mem hmem]
            exact congrArg ((name, x.value) :: ·) hassign

/-- The table after a row: the row is added if it is kept. -/
def rowTable (t : Table) (cur : CurrentRow) (within : ∀ name, (cur name).isSome → name ∈ t.names)
    (keeps : Bool) : Table := if keeps then t.commit cur within else t

/-- The table of a row has one row more exactly if the row is kept. -/
theorem length_rowTable {cur : CurrentRow} (within : ∀ name, (cur name).isSome → name ∈ t.names)
    (keeps : Bool) : (rowTable t cur within keeps).rows.length = countRow t.rows.length keeps := by
  cases keeps with
  | false => rfl
  | true => exact List.length_append

/-- **A row given to `put_field`** adds its own values to the table if its verdict keeps it. -/
theorem Between.namedRow (h : a.Between t) {row : List RowField}
    (hcols : ∀ x ∈ row, ∀ name, a.plan.resolveField x.name = some name → name ∈ a.fieldIndex) :
    (a.row (namedRow row)).Between (rowTable t (rowOf (rowValues a.plan row))
      (h.rests.within hcols) (a.verdict ⟨false, row⟩)) := by
  have hdirect : a.beginRow.rowBuf.any (·.direct) = false := by
    show (a.rowBuf.map _).any _ = false
    cases a.rowBuf <;> rfl
  obtain ⟨hkeeps, hdeclare, hassign⟩ := namedRow_keeps (b := a.beginRow) (t := t) hcols
    (fun name => (h.sound.holds.mem_index name).mp) hdirect
  obtain ⟨t', ht', -, hcols', hrows⟩ := h.row hkeeps
  rw [hdeclare] at hcols'
  have hput : a.rowPut (TableBuilder.namedRow row) = rowOf (rowValues a.plan row) :=
    congrArg rowOf hassign
  -- the verdict decides whether the row is counted, and so what the table is
  have hcount : (a.row (TableBuilder.namedRow row)).rowCount =
      countRow a.rowCount (a.verdict ⟨false, row⟩) := by
    have hend := (h.rests.row (r := ⟨false, row⟩) hcols).1.rowCount
    have hrow : a.writeRow ((RowWrite.mk false row).writes a.plan a.fieldIndex) =
        a.row (TableBuilder.namedRow row) :=
      congrArg TableBuilder.endRow (List.foldl_map : a.beginRow.writeAll _ = _)
    rwa [hrow] at hend
  have heq : t' = rowTable t (rowOf (rowValues a.plan row)) (h.rests.within hcols)
      (a.verdict ⟨false, row⟩) := by
    rw [hcount, hput] at hrows
    obtain ⟨cols, rows, hnodup, hwithin⟩ := t'
    obtain rfl : cols = t.cols := hcols'
    cases hk : a.verdict ⟨false, row⟩ with
    | false =>
        rw [hk, countRow, if_neg Bool.false_ne_true, if_neg (Nat.lt_irrefl _)] at hrows
        obtain rfl : rows = t.rows := hrows
        rfl
    | true =>
        rw [hk, countRow, if_pos rfl, if_pos (Nat.lt_succ_self _)] at hrows
        obtain rfl : rows = t.rows ++ [rowOf (rowValues a.plan row)] := hrows
        rfl
  exact heq ▸ ht'

end Named

/-! ## What the rows show -/

section Runs

variable {a b : TableBuilder} {t : Table}

/-- The cells of the rows, column by column. -/
def rowCells (b : TableBuilder) : List (List (Option TypedValue)) :=
  b.normalize.columns.map ColumnBuilder.cells

/-- The builders have as many rows with the same cells, and export the same. -/
structure SameRows (a b : TableBuilder) : Prop where
  rowCount : b.rowCount = a.rowCount
  cells : b.rowCells = a.rowCells
  finish : b.finish = a.finish

/-- The rows are those of the table `t`, and then the given rows with their own values and no other. -/
def OwnRows (b : TableBuilder) (t : Table) (rows : List (List (String × Value))) : Prop :=
  b.rowCells = t.cols.map fun p => (t.rows ++ rows.map rowOf).map (cell store p.2 p.1)

/-- The cells of columns that hold a table up to one cell. The cell of a row that is open is not
counted among them. -/
theorem Loose.rowCells (h : b.Loose t) :
    b.rowCells = t.cols.map fun p => t.rows.map (cell store p.2 p.1) := by
  obtain ⟨hsize, hstored⟩ := h.storeTable
  refine List.ext_getElem? fun i => ?_
  rw [TableBuilder.rowCells, List.getElem?_map, List.getElem?_map]
  cases hp : t.cols[i]? with
  | none =>
      have hlt := List.getElem?_eq_none_iff.mp hp
      rw [List.getElem?_eq_none (hsize ▸ hlt)]
      rfl
  | some p =>
      obtain ⟨c, hc, hst⟩ := hstored i p hp
      rw [hc, Option.map_some, Option.map_some, hst.cells]
      rfl

/-- A cell of the rows is one of the column. -/
theorem getElem?_rowCells {i : Nat} {c : ColumnBuilder} (hc : b.columns[i]? = some c)
    (hvalid : c.Valid) : b.rowCells[i]? = some (c.cells.take b.rowCount) := by
  have hpop := (ColumnBuilder.stores_self hvalid).popTo b.rowCount
  rw [rowCells, normalize, List.getElem?_map, List.getElem?_map, hc]
  exact congrArg some hpop.cells

/-- Two builders between rows, one given its rows by name and one some of them by slot, with the same
table; the columns of the second may be a cell ahead. -/
structure InStep (t : Table) (a b : TableBuilder) : Prop where
  between : a.Between t
  rests : b.Rests t
  quiet : a.Quiet b

/-- Builders in step show the same rows. -/
theorem InStep.sameRows (h : InStep t a b) : SameRows a b := by
  have hrow : b.rowCount = a.rowCount := h.rests.loose.rowCount.trans h.between.rowCount.symm
  have hloose := h.between.rests.loose
  have halike : AlikeColumns a.normalize.columns b.normalize.columns :=
    hloose.storeTable.alike h.rests.loose.storeTable
  exact ⟨hrow, h.rests.loose.rowCells.trans hloose.rowCells.symm, finish_congr
    ⟨halike, h.quiet.index, h.quiet.order, h.quiet.plan, hrow⟩ h.quiet.unknown h.quiet.strict⟩

/-- A row is decided alike in the two runs: the verdicts are the same, and if it is kept it covers what
is left over. -/
def DecidedAlike (a b : TableBuilder) (r : RowWrite) : Prop :=
  a.verdict r.byName = b.verdict r ∧ (a.verdict r.byName = true → b.CoversLeftovers r)

instance (a b : TableBuilder) (r : RowWrite) : Decidable (DecidedAlike a b r) :=
  inferInstanceAs (Decidable (_ ∧ _))

omit [Platform] in
/-- The count of rows tells whether the row was kept. -/
theorem countRow_inj {n : Nat} {keeps keeps' : Bool} (h : countRow n keeps = countRow n keeps') :
    keeps = keeps' := by
  cases keeps <;> cases keeps' <;> simp [countRow] at h ⊢

/-- **One row.** Builders in step stay so if the row is decided alike, and show other rows if it is
not. The one that is written by slot ends the row in the columns or with an idle buffer; the one
that is written by name ends it as it would alone; and what a rejected row leaves in the columns of
the first is a cell ahead. -/
theorem InStep.row (h : InStep t a b) {r : RowWrite}
    (hcols : ∀ x ∈ r.fields, ∀ name, a.plan.resolveField x.name = some name →
      name ∈ a.fieldIndex) :
    (DecidedAlike a b r → InStep
      (rowTable t (rowOf (rowValues a.plan r.fields)) (h.between.rests.within hcols)
        (a.verdict r.byName))
      (a.row (namedRow r.fields)) (b.writeRow (r.writes a.plan a.fieldIndex))) ∧
    (¬ DecidedAlike a b r →
      ¬ SameRows (a.row (namedRow r.fields)) (b.writeRow (r.writes a.plan a.fieldIndex))) := by
  have hrow : b.rowCount = a.rowCount := h.rests.loose.rowCount.trans h.between.rowCount.symm
  have hnamed := h.between.namedRow hcols
  have haquiet := (h.between.rests.row (r := r.byName) hcols).2
  obtain ⟨hend, hbquiet⟩ := h.rests.row (r := r) (by rwa [h.quiet.plan, h.quiet.index])
  simp only [h.quiet.plan, h.quiet.index] at hend hbquiet
  have harow : a.writeRow (r.byName.writes a.plan a.fieldIndex) = a.row (namedRow r.fields) :=
    congrArg TableBuilder.endRow (List.foldl_map : a.beginRow.writeAll _ = _)
  rw [harow] at haquiet
  generalize a.row (namedRow r.fields) = a' at hnamed haquiet ⊢
  generalize b.writeRow (r.writes a.plan a.fieldIndex) = b' at hend hbquiet ⊢
  constructor
  · rintro ⟨hverdict, hcovers⟩
    refine ⟨hnamed, ?_, haquiet.symm.trans ((h.quiet.recordAll hrow _).trans hbquiet)⟩
    cases hk : a.verdict r.byName with
    | false => exact hend.dropped (hverdict ▸ hk)
    | true => exact hend.kept (hverdict ▸ hk) (hcovers hk)
  · intro hnot hsame
    have hverdict : a.verdict r.byName = b.verdict r := by
      refine countRow_inj (n := a.rowCount) ?_
      rw [← hrow, ← hend.rowCount, hsame.rowCount, hnamed.rowCount, length_rowTable, hrow,
        h.between.rowCount]
      rfl
    have hkeeps : a.verdict r.byName = true ∧ ¬ b.CoversLeftovers r := by
      rw [DecidedAlike, not_and] at hnot
      exact Classical.not_imp.mp (hnot hverdict)
    -- the row shows a cell that is not its own
    obtain ⟨i, p, c, hp, hc, hvalid, hcell⟩ := hend.leaks (hverdict ▸ hkeeps.1) hkeeps.2
    have hnamed' : rowTable t (rowOf (rowValues a.plan r.fields)) (h.between.rests.within hcols)
        (a.verdict ⟨false, r.fields⟩) = t.commit _ (h.between.rests.within hcols) := if_pos hkeeps.1
    rw [hnamed'] at hnamed
    have hcells := congrArg (·[i]?) hsame.cells
    have hcount : b'.rowCount = t.rows.length + 1 := by
      rw [hend.rowCount, ← hverdict, hkeeps.1, h.rests.loose.rowCount]
      rfl
    simp only [getElem?_rowCells hc hvalid, hnamed.rests.loose.rowCells, List.getElem?_map] at hcells
    rw [show (t.commit _ (h.between.rests.within hcols)).cols = t.cols from rfl, hp] at hcells
    have hcell' := congrArg (·[t.rows.length]?) (Option.some.inj hcells)
    have hlast : ((t.commit _ (h.between.rests.within hcols)).rows.map
        (cell store p.2 p.1))[t.rows.length]? =
        some (cell store p.2 p.1 (rowOf (rowValues a.plan r.fields))) := by
      show ((t.rows ++ [_]).map _)[t.rows.length]? = _
      rw [List.getElem?_map, List.getElem?_concat_length]
      rfl
    simp only [hcount, List.getElem?_take_of_lt (Nat.lt_succ_self _), hlast] at hcell'
    refine hcell ?_
    rw [getTypedValue_of_stores (ColumnBuilder.stores_self hvalid), hcell']
    rfl

/-- The run `b`, with rows written by slot, shows the rows of the run `a`, in which `put_field` is given
all of them: those of the table `t` and then some of the given rows, each with its own values. -/
structure NoTrace (plan : ExecutionPlan) (index : StrMap Nat) (t : Table) (a b : TableBuilder)
    (rows : List RowWrite) : Prop where
  same : SameRows (a.feed (rows.map fun r => namedRow r.fields))
    (b.writeRows (rows.map (·.writes plan index)))
  own : ∃ kept : List (List RowField), kept.Sublist (rows.map RowWrite.fields) ∧
    OwnRows (b.writeRows (rows.map (·.writes plan index))) t (kept.map (rowValues plan))

/-- Every row is decided alike in the two runs, from the builders before it. -/
def AllDecidedAlike (plan : ExecutionPlan) (index : StrMap Nat) (a b : TableBuilder) :
    List RowWrite → Prop
  | [] => True
  | r :: rows => DecidedAlike a b r ∧ AllDecidedAlike plan index (a.row (namedRow r.fields))
      (b.writeRow (r.writes plan index)) rows

instance (plan : ExecutionPlan) (index : StrMap Nat) (a b : TableBuilder) :
    (rows : List RowWrite) → Decidable (AllDecidedAlike plan index a b rows)
  | [] => inferInstanceAs (Decidable True)
  | _ :: rows =>
    have := fun a b => instDecidableAllDecidedAlike plan index a b rows
    inferInstanceAs (Decidable (_ ∧ _))

/-- Before the first row there is no trace. -/
theorem InStep.noTrace (h : InStep t a b) (plan : ExecutionPlan) (index : StrMap Nat) :
    NoTrace plan index t a b [] := by
  refine ⟨h.sameRows, [], .slnil, ?_⟩
  show b.rowCells = _
  rw [h.rests.loose.rowCells, List.map_nil, List.map_nil, List.append_nil]

/-- A row that is kept comes first of the rows after it. The later rows are judged on the table that
has it, by the same condition. -/
theorem NoTrace.cons {plan : ExecutionPlan} {index : StrMap Nat} {r : RowWrite}
    {rows : List RowWrite} {keeps : Bool}
    {within : ∀ name, (rowOf (rowValues plan r.fields) name).isSome → name ∈ t.names}
    (h : NoTrace plan index (rowTable t (rowOf (rowValues plan r.fields)) within keeps)
      (a.row (namedRow r.fields)) (b.writeRow (r.writes plan index)) rows) :
    NoTrace plan index t a b (r :: rows) := by
  obtain ⟨hsame, kept, hkept, hown⟩ := h
  refine ⟨hsame, ?_⟩
  cases keeps with
  | false => exact ⟨kept, hkept.cons r.fields, hown⟩
  | true =>
      refine ⟨r.fields :: kept, hkept.cons_cons r.fields, hown.trans ?_⟩
      have hrows : (rowTable t (rowOf (rowValues plan r.fields)) within true).rows ++
          (kept.map (rowValues plan)).map rowOf =
          t.rows ++ ((r.fields :: kept).map (rowValues plan)).map rowOf := List.append_assoc ..
      rw [hrows]
      rfl

section Steps

variable {r : RowWrite} {rows : List RowWrite}

/-- A row given to `put_field` keeps the plan and the columns. Every name that it writes has a
column, so that none is created. -/
theorem InStep.frame (h : InStep t a b)
    (hcols : ∀ x ∈ r.fields, ∀ name, a.plan.resolveField x.name = some name →
      name ∈ a.fieldIndex) :
    (a.row (namedRow r.fields)).plan = a.plan ∧
      (a.row (namedRow r.fields)).fieldIndex = a.fieldIndex := by
  have hquiet := (h.between.rests.row (r := r.byName) hcols).2
  have harow : a.writeRow (r.byName.writes a.plan a.fieldIndex) = a.row (namedRow r.fields) :=
    congrArg TableBuilder.endRow (List.foldl_map : a.beginRow.writeAll _ = _)
  rw [harow] at hquiet
  exact ⟨hquiet.plan.trans (a.recordAll_frame _).2.1, hquiet.index.trans (a.recordAll_frame _).1⟩

/-- Runs that show the same rows after every row decide every row alike. -/
theorem InStep.allDecidedAlike (h : InStep t a b)
    (hcols : ∀ r ∈ rows, ∀ x ∈ r.fields, ∀ name, a.plan.resolveField x.name = some name →
      name ∈ a.fieldIndex)
    (hsame : ∀ n, SameRows (a.feed ((rows.take n).map fun r => namedRow r.fields))
      (b.writeRows ((rows.take n).map (·.writes a.plan a.fieldIndex)))) :
    AllDecidedAlike a.plan a.fieldIndex a b rows := by
  induction rows generalizing a b t with
  | nil => trivial
  | cons r rows ih =>
      obtain ⟨halike, hdiffer⟩ := h.row (hcols r List.mem_cons_self)
      obtain ⟨hplan, hindex⟩ := h.frame (hcols r List.mem_cons_self)
      have hrow : DecidedAlike a b r := by
        by_contra hnot
        exact hdiffer hnot (hsame 1)
      refine ⟨hrow, ?_⟩
      have hrest := ih (halike hrow)
      rw [hplan, hindex] at hrest
      exact hrest (fun r' hr' => hcols r' (List.mem_cons_of_mem _ hr')) fun n => hsame (n + 1)

/-- A run whose rows are decided alike leaves no trace of the rows it rejects. -/
theorem InStep.noTrace_of_alike (h : InStep t a b)
    (hcols : ∀ r ∈ rows, ∀ x ∈ r.fields, ∀ name, a.plan.resolveField x.name = some name →
      name ∈ a.fieldIndex)
    (halike : AllDecidedAlike a.plan a.fieldIndex a b rows) (n : Nat) :
    NoTrace a.plan a.fieldIndex t a b (rows.take n) := by
  induction rows generalizing a b t n with
  | nil =>
      rw [List.take_nil]
      exact h.noTrace _ _
  | cons r rows ih =>
      cases n with
      | zero => exact h.noTrace _ _
      | succ n =>
          obtain ⟨hplan, hindex⟩ := h.frame (hcols r List.mem_cons_self)
          have hrest := ih ((h.row (hcols r List.mem_cons_self)).1 halike.1)
          rw [hplan, hindex] at hrest
          exact (hrest (fun r' hr' => hcols r' (List.mem_cons_of_mem _ hr')) halike.2 n).cons

end Steps

/-- A builder between rows has empty cells where the next row goes. -/
theorem Between.emptyAhead (h : b.Between t) : b.EmptyAhead := by
  intro c hc
  obtain ⟨i, hi⟩ := List.mem_iff_getElem?.mp hc
  obtain ⟨p, hp⟩ : ∃ p, t.cols[i]? = some p := ⟨_, List.getElem?_eq_getElem
    (h.sound.holds.size ▸ (List.getElem?_eq_some_iff.mp hi).1)⟩
  obtain ⟨c', hc', hst⟩ := h.sound.holds.stored i p hp
  obtain rfl : c = c' := Option.some.inj (hi.symm.trans hc')
  have hlen : (t.column store p.1 p.2).length = b.rowCount := by
    rw [RowTable.length_column, h.rowCount]
  rw [pending_noRow, List.append_nil] at hst
  rw [getTypedValue_of_stores hst, List.getElem?_eq_none hlen.le]
  rfl

/-- Without a filter every row is decided alike: no row is rejected, and nothing is left over. -/
theorem InStep.allDecidedAlike_of_no_filter (h : InStep t a b) (hfilter : a.plan.filter = none)
    (hempty : b.EmptyAhead) {rows : List RowWrite}
    (hcols : ∀ r ∈ rows, ∀ x ∈ r.fields, ∀ name, a.plan.resolveField x.name = some name →
      name ∈ a.fieldIndex) : AllDecidedAlike a.plan a.fieldIndex a b rows := by
  induction rows generalizing a b t with
  | nil => trivial
  | cons r rows ih =>
      have hkeeps : ∀ {c : TableBuilder} {r : RowWrite}, c.plan.filter = none →
          c.verdict r = true := by
        intro c r hnone
        have hbuffering : c.beginRow.buffering = false := by
          rw [buffering, show c.beginRow.plan = c.plan from rfl, hnone]
          rfl
        have hplan : c.beginRow.plan.filter = none := hnone
        rw [verdict, hbuffering, columnsVerdict, hplan]
        rfl
      have hb : b.plan.filter = none := by rw [h.quiet.plan, hfilter]
      have hrow : DecidedAlike a b r := by
        refine ⟨(hkeeps hfilter).trans (hkeeps hb).symm, fun _ p hp _ => ?_⟩
        exact hempty p.1 (List.fst_mem_of_mem_zipIdx hp)
      obtain ⟨hplan, hindex⟩ := h.frame (hcols r List.mem_cons_self)
      refine ⟨hrow, ?_⟩
      have hnext := (h.row (hcols r List.mem_cons_self)).1 hrow
      have hend := (h.rests.row (r := r) (by
        rw [h.quiet.plan, h.quiet.index]
        exact hcols r List.mem_cons_self)).1.emptyAhead (hkeeps hb)
      rw [h.quiet.plan, h.quiet.index] at hend
      have hrest := ih hnext (by rw [hplan]; exact hfilter) hend
      rw [hplan, hindex] at hrest
      exact hrest fun r' hr' => hcols r' (List.mem_cons_of_mem _ hr')

/-- Without a filter a run with rows written by slot shows what `put_field` shows. -/
theorem noTrace_of_no_filter {b : TableBuilder} {t : Table} (h : b.Between t)
    (hfilter : b.plan.filter = none) {rows : List RowWrite}
    (hcols : ∀ r ∈ rows, ∀ x ∈ r.fields, ∀ name, b.plan.resolveField x.name = some name →
      name ∈ b.fieldIndex) (n : Nat) : NoTrace b.plan b.fieldIndex t b b (rows.take n) :=
  have hstep : InStep t b b := ⟨h, h.rests, .refl b⟩
  hstep.noTrace_of_alike hcols (hstep.allDecidedAlike_of_no_filter hfilter h.emptyAhead hcols) n

/-- **The slot path leaves no trace of rejected rows, and agrees with the name path, exactly as long as
every row is decided alike.** After each prefix of the run the rows of the builder are the rows before it
and then the own values of rows that are kept, and they are those `put_field` leaves. A run without a
filter decides every row alike; under a filter a row that is written by slot while the builder buffers has
to get from its values the verdict of a row without values, and a row that is kept has to have a value
wherever a rejected one left a cell. -/
theorem slot_path_iff {b : TableBuilder} {t : Table} (h : b.Between t) {rows : List RowWrite}
    (hcols : ∀ r ∈ rows, ∀ x ∈ r.fields, ∀ name, b.plan.resolveField x.name = some name →
      name ∈ b.fieldIndex) :
    (∀ n, NoTrace b.plan b.fieldIndex t b b (rows.take n)) ↔
      AllDecidedAlike b.plan b.fieldIndex b b rows := by
  have hstep : InStep t b b := ⟨h, h.rests, .refl b⟩
  constructor
  · exact fun htrace => hstep.allDecidedAlike hcols fun n => (htrace n).same
  · exact hstep.noTrace_of_alike hcols

end Runs

end TableBuilder

end SlotPath

section Examples

attribute [local instance] integerPlatform

namespace TableBuilder

/-- A text for a field, which `put_str_at` can write. -/
def textField (name value : String) : RowField := { name, value := .str value, asStr := true }

/-- A builder with the columns `a` and `b` whose filter keeps the rows with `b = "1"`. -/
def columnsAB : TableBuilder :=
  withPlan { schemaOrder := ["a", "b"], filter := some (.equal "b" "1") }

/-- The table of `columnsAB`, which has no rows. -/
def tableAB : Table := RowTable.empty.declareAll (predeclared columnsAB.plan)

/-- Rows for `a` and `b`, the second one given to `put_field` and the others written by slot. -/
def rowsAB : List RowWrite :=
  [⟨true, [textField "a" "x", textField "b" "2"]⟩, ⟨false, [textField "a" "y", textField "b" "1"]⟩,
    ⟨true, [textField "a" "z", textField "b" "3"]⟩, ⟨true, [textField "a" "w", textField "b" "1"]⟩]

/-- In the rows of the example every field that is kept has its column from the start. -/
theorem columnsAB_columns (rows : List RowWrite)
    (h : ∀ r ∈ rows, ∀ x ∈ r.fields, (columnsAB.plan.resolveField x.name).all
      fun name => (columnsAB.fieldIndex.lookup name).isSome) :
    ∀ r ∈ rows, ∀ x ∈ r.fields, ∀ name, columnsAB.plan.resolveField x.name = some name →
      name ∈ columnsAB.fieldIndex := by
  intro r hr x hx name hname
  have hall := h r hr x hx
  rw [hname] at hall
  exact AList.lookup_isSome.mp hall

/-- Two rows are rejected after they were written to the columns, one of them judged on the row buffer and
one on the columns. The rows after them are kept and cover what they leave. -/
theorem slot_path_covered :
    NoTrace columnsAB.plan columnsAB.fieldIndex tableAB columnsAB columnsAB rowsAB :=
  (slot_path_iff (b := columnsAB) (between_withPlan _)
    (columnsAB_columns rowsAB (by decide))).mpr (by decide) 4

/-- A builder with the column `a` whose filter keeps the rows with `a = "1"`. -/
def columnA : TableBuilder :=
  withPlan { schemaOrder := ["a"], filter := some (.equal "a" "1") }

/-- A row that the filter passes is rejected when it is written by slot. -/
theorem slot_path_falls :
    ¬ ∀ (b : TableBuilder) (t : Table) (rows : List (List RowField)), b.Between t →
      (∀ row ∈ rows, ∀ x ∈ row, ∀ name, b.plan.resolveField x.name = some name →
        name ∈ b.fieldIndex) →
      (b.writeRows (rows.map (slotRow b.plan b.fieldIndex))).finish =
        (b.feed (rows.map namedRow)).finish := by
  intro h
  have hsame := h columnA _ [[textField "a" "1"]] (between_withPlan _) (by
    intro row hrow x hx name hname
    obtain rfl : row = [textField "a" "1"] := List.mem_singleton.mp hrow
    obtain rfl : x = textField "a" "1" := List.mem_singleton.mp hx
    obtain rfl : "a" = name := Option.some.inj hname
    decide)
  have hslots : (columnA.writeRows ([[textField "a" "1"]].map
      (slotRow columnA.plan columnA.fieldIndex))).finish =
      .ok ⟨[("a", .utf8)], [⟨.utf8, []⟩], 0⟩ := rfl
  have hnamed : (columnA.feed ([[textField "a" "1"]].map namedRow)).finish =
      .ok ⟨[("a", .utf8)], [⟨.utf8, [some (.str "1")]⟩], 1⟩ := rfl
  rw [hslots, hnamed] at hsame
  have hcount := congrArg RecordBatch.rowCount (Except.ok.inj hsame)
  exact absurd hcount (by decide)

/-- A value written by slot in a row that is rejected shows in the next row that is kept. -/
example : ((columnsAB.writeRow (slotRow columnsAB.plan columnsAB.fieldIndex
    [textField "a" "x", textField "b" "2"])).row (namedRow [textField "b" "1"])).rowCells =
    [[some (.str "x")], [some (.str "1")]] := rfl

end TableBuilder

end Examples

end Rypipe
