import Rypipe.Concat

/-! # Column alignment over whole runs

The builders that complete rows and the operations between rows can reach, with the accepted rows
each of them stands for. In a run whose steps are all `Step.Safe`, every column has one cell for
each accepted row, the last value put for the column in that row. -/

namespace Rypipe

section Runs

variable [Platform]

/-- A step of a run. The builder that `extend` appends comes with the rows it stands for. -/
inductive Step where
  | row (puts : List Put)
  | ensureSchema (schema : FrozenSchema)
  | splitOff (n : Nat)
  | extend (other : TableBuilder) (rows : List CurrentRow)

/-- The builders reached by complete rows and the operations between rows, with the rows accepted so
far; only steps that `ok` admits are taken, and steps that fail end the run. -/
inductive Reached (ok : TableBuilder → List CurrentRow → Step → Prop) :
    TableBuilder → List CurrentRow → Prop where
  | withPlan (plan : ExecutionPlan) : Reached ok (.withPlan plan) []
  | row {b : TableBuilder} {rows : List CurrentRow} (h : Reached ok b rows) (puts : List Put)
      (hok : ok b rows (.row puts)) :
      Reached ok (b.row puts)
        (if b.rowCount < (b.row puts).rowCount then rows ++ [b.rowPut puts] else rows)
  | ensureSchema {b : TableBuilder} {rows : List CurrentRow} (h : Reached ok b rows)
      (schema : FrozenSchema) (hok : ok b rows (.ensureSchema schema)) :
      Reached ok (b.ensureSchema schema) rows
  | splitHead {b : TableBuilder} {rows : List CurrentRow} (h : Reached ok b rows) (n : Nat)
      (hpos : 0 < n) (hn : n ≤ b.rowCount) (hok : ok b rows (.splitOff n)) :
      Reached ok (b.splitOff n).1 (rows.take n)
  | splitRest {b : TableBuilder} {rows : List CurrentRow} (h : Reached ok b rows) (n : Nat)
      (hpos : 0 < n) (hn : n ≤ b.rowCount) (hok : ok b rows (.splitOff n)) :
      Reached ok (b.splitOff n).2 (rows.drop n)
  | extend {b other : TableBuilder} {rows rows' : List CurrentRow} (h : Reached ok b rows)
      (h' : Reached ok other rows') (hok : ok b rows (.extend other rows'))
      (hres : (b.extend other).2 = .ok ()) : Reached ok (b.extend other).1 (rows ++ rows')

/-- The type of a merged column: that of the first one, unless it is promoted to that of the second. -/
def mergedType : FieldType → FieldType → FieldType
  | .string, .dictionary => .dictionary
  | .int64, .float64 => .float64
  | ty, _ => ty

/-- A column of type `u` keeps of the values of the rows what the promotion makes of what a column of
type `ty` keeps. -/
def KeptAs (ty u : FieldType) (name : String) (rows : List CurrentRow) : Prop :=
  ∀ row ∈ rows, cell store u name row = (cell store ty name row).map (widen u)

/-- The steps that keep the columns aligned: rows of puts the builder keeps, a layout fixed before
any row or without a new column, and merges of columns whose type keeps the values of both sides. Where
both sides have one type it always does (`keptAs_self`). -/
def Step.Safe (b : TableBuilder) (rows : List CurrentRow) : Step → Prop
  | .row puts => b.beginRow.KeepsAll puts
  | .ensureSchema schema => b.rowCount = 0 ∨ ∀ name ∈ schema.names, name ∈ b.fieldIndex
  | .splitOff _ => True
  | .extend other rows' => ∀ name d, other.getColumn name = some d →
      KeptAs (((b.getColumn name).map ColumnBuilder.kind).getD (other.plan.columnType name))
        (mergedType (((b.getColumn name).map ColumnBuilder.kind).getD
          (other.plan.columnType name)) d.kind) name rows ∧
      KeptAs d.kind (mergedType (((b.getColumn name).map ColumnBuilder.kind).getD
        (other.plan.columnType name)) d.kind) name rows'

/-- The columns of the builder hold the rows, one cell for each. -/
structure Aligned (b : TableBuilder) (rows : List CurrentRow) : Prop where
  columns : b.columns.length = b.fieldIndex.keys.length
  lengths : ∀ c ∈ b.columns, c.len = b.rowCount
  clean : ∀ i, b.rowDirty.test i = false
  counted : b.rowCount = rows.length
  cells : ∀ (name : String) (slot : Nat) (c : ColumnBuilder), b.fieldIndex.lookup name = some slot →
    b.columns[slot]? = some c → c.cells = rows.map (cell store c.kind name)

/-- A column of one type keeps what it keeps: where the merge does not change the type, `KeptAs`
asks nothing of the rows. -/
theorem keptAs_self (ty : FieldType) (name : String) (rows : List CurrentRow) :
    KeptAs ty ty name rows := by
  intro row _
  rw [cell]
  cases row name with
  | none => rfl
  | some value =>
      obtain ⟨hvalid, hkind, hcells⟩ := (ColumnBuilder.ofType_stores ty).pushValue value
      have hself := ((ColumnBuilder.ofType ty).pushValue value).widenAll_self
      rw [hkind, hcells] at hself
      exact (List.singleton_inj.mp hself).symm

/-- The cells of a column whose type keeps them. -/
theorem KeptAs.column {ty u : FieldType} {name : String} {t : Table} (h : KeptAs ty u name t.rows) :
    t.column store name u = widenAll u (t.column store name ty) := by
  rw [RowTable.column, RowTable.column, widenAll, List.map_map]
  exact List.map_congr_left h

namespace TableBuilder

/-- The type of what a merge leaves, when it succeeds: `mergedType` of the two, the type of the
wider column where one of them had to be promoted. -/
theorem kind_mergeColumn {name : String} {c d e : ColumnBuilder} (hc : c.Valid) (hd : d.Valid)
    (h : mergeColumn name c d = (e, .ok ())) : e.kind = mergedType c.kind d.kind := by
  by_cases hkey : c.variantKey = d.variantKey
  · -- the columns are appended as they are
    have hfirst : mergedType c.kind d.kind = c.kind := by
      cases c <;> cases d <;> first | rfl | exact absurd hkey (by simp [ColumnBuilder.variantKey])
    simp only [mergeColumn, hkey, ↓reduceIte] at h
    cases hext : c.extendOwned d with
    | error err =>
        rw [hext] at h
        cases (Prod.mk.inj h).2
    | ok e' =>
        rw [hext] at h
        obtain rfl := (Prod.mk.inj h).1
        rw [hfirst]
        exact (ColumnBuilder.extendOwned_sound hc hd hext).2.1
  · -- one of them is promoted to the type of the other
    obtain ⟨-, hpc, hpd, -⟩ := mergeColumn_sound hc hd h
    generalize e.kind = u at hpc hpd
    cases c <;> cases d <;> cases hpc <;> cases hpd <;> first | rfl | exact absurd rfl hkey

/-- A builder between rows is aligned with its table: the columns have the lengths and cells of the
table's rows, and no dirty bit is set. -/
theorem Between.aligned {b : TableBuilder} {t : Table} (h : b.Between t) : Aligned b t.rows where
  columns := by
    have hperm : b.fieldIndex.keys.Perm t.names := by
      refine (List.perm_ext_iff_of_nodup b.fieldIndex.keys_nodup t.nodup).mpr ?_
      exact fun name => AList.mem_keys.symm.trans (h.sound.holds.mem_index name)
    rw [h.sound.holds.size, hperm.length_eq, RowTable.names, List.length_map]
  lengths c hc := by
    obtain ⟨i, hi⟩ := List.mem_iff_getElem?.mp hc
    have hlt : i < t.cols.length := by
      rw [← h.sound.holds.size]
      exact (List.getElem?_eq_some_iff.mp hi).1
    rw [h.sound.holds.len_column (List.getElem?_eq_getElem hlt) hi, h.rowCount]
    rfl
  clean := h.sound.holds.clean
  counted := h.rowCount
  cells name slot c hslot hc := by
    obtain ⟨ty, hty⟩ := h.sound.holds.cols_of_lookup hslot
    obtain ⟨c', hc', hst⟩ := h.sound.holds.stored slot _ hty
    obtain rfl : c = c' := Option.some.inj (hc.symm.trans hc')
    rw [pending_noRow, List.append_nil] at hst
    rw [hst.cells, hst.kind]
    rfl

/-- The stored type of a column is its type in the table. -/
theorem Between.kind_getColumn {b : TableBuilder} {t : Table} (h : b.Between t) {name : String}
    {ty : FieldType} (hmem : (name, ty) ∈ t.cols) :
    (b.getColumn name).map ColumnBuilder.kind = some ty := by
  obtain ⟨i, hi⟩ := List.mem_iff_getElem?.mp hmem
  obtain ⟨c, hc, hst⟩ := h.sound.holds.stored i _ hi
  rw [getColumn, h.sound.holds.lookup_of_cols hi, Option.bind_some, hc, Option.map_some, hst.kind]

/-- The type of a column that both builders have, or that the first one adopts. -/
theorem Between.typeOf_adopted {b other : TableBuilder} {t : Table} (hb : b.Between t)
    {name : String} {ty : FieldType}
    (hty : (t.declareAll other.adoptedColumns).typeOf name = some ty) :
    ty = ((b.getColumn name).map ColumnBuilder.kind).getD (other.plan.columnType name) := by
  rcases RowTable.mem_cols_declareAll (RowTable.typeOf_eq_some.mp hty) with hmem | ⟨hnot, hmem⟩
  · rw [hb.kind_getColumn hmem]
    rfl
  · have hlook := (hb.sound.holds.lookup_eq_none name).mpr hnot
    obtain ⟨n, -, hn⟩ := List.mem_map.mp hmem
    obtain ⟨rfl, rfl⟩ := Prod.mk.inj hn
    rw [getColumn, hlook]
    rfl

/-- A merge that succeeds and whose columns keep the values of both sides appends the rows. The
columns are compared one name at a time: a column of both builders has the type of the merge, and
keeps each side's cells as that type stores them; a column of one side is filled with missing cells
for the rows of the other. -/
theorem Between.extend_of_keptAs {b other : TableBuilder} {t s : Table} (hb : b.Between t)
    (ho : other.Between s) (hsafe : (Step.extend other s.rows).Safe b t.rows)
    (hres : (b.extend other).2 = .ok ()) :
    ∃ t', (b.extend other).1.Between t' ∧ t'.rows = t.rows ++ s.rows := by
  have hnorm := ho.normalize
  have hstart := hb.extendStart other
  have hfold : (extendColumns (b.extendStart other) other.normalize
      (b.extendStart other).columnOrder).2 = .ok () := by
    rw [extend_eq] at hres
    split at hres
    · next heq => rw [heq]
    · cases hres
  have hmerges := merges_of_extendColumns hstart.sound.slotted hnorm.sound.slotted
    (hstart.sound.order.nodup_iff.mpr (t.declareAll other.adoptedColumns).nodup) hfold
  have hmerge : ∀ name c d, (b.extendStart other).getColumn name = some c →
      other.normalize.getColumn name = some d → (mergeColumn name c d).2 = .ok () := by
    intro name c d hc hd
    have hmem := (hstart.settled.getColumn_isSome name).mp (Option.isSome_iff_exists.mpr ⟨c, hc⟩)
    exact hmerges name hmem c d hc hd
  -- the type that the merge leaves
  let types : String → FieldType → FieldType := fun name ty =>
    ((s.typeOf name).map (mergedType ty)).getD ty
  obtain ⟨-, hbetween⟩ := hb.extend ho types hmerge fun name ty c hmem hc hst => by
    have hty := hb.typeOf_adopted (RowTable.typeOf_eq_some.mpr hmem)
    cases hs : s.typeOf name with
    | none =>
        rw [show types name ty = ty by simp only [types, hs]; rfl]
        exact (stores_mergedColumn hnorm hst fun ty' hty' => by cases hs.symm.trans hty').1
    | some ty' =>
        have hmem' := RowTable.typeOf_eq_some.mp hs
        obtain ⟨i, hi⟩ := List.mem_iff_getElem?.mp hmem'
        obtain ⟨d, hd, hstd⟩ := hnorm.sound.holds.stored i _ hi
        rw [pending_noRow, List.append_nil] at hstd
        have hget : other.normalize.getColumn name = some d := by
          rw [getColumn, hnorm.sound.holds.lookup_of_cols hi]
          exact hd
        have hkept := hsafe name d ((ho.settled.getColumn_normalize name).symm.trans hget)
        rw [← hty, hstd.kind] at hkept
        have hpair : mergeColumn name c d = (mergedColumn other.normalize name c, .ok ()) := by
          rw [mergedColumn, hget]
          exact Prod.ext rfl (hmerge name c d hc hget)
        obtain ⟨hvalid, -, -, hcells⟩ := mergeColumn_sound hst.valid hstd.valid hpair
        have hkind := kind_mergeColumn hst.valid hstd.valid hpair
        rw [hst.kind, hstd.kind] at hkind
        have hown : KeptAs ty (mergedType ty ty') name (t.declareAll other.adoptedColumns).rows := by
          rw [RowTable.rows_declareAll]
          exact hkept.1
        rw [show types name ty = mergedType ty ty' by simp only [types, hs]; rfl]
        refine ⟨hvalid, hkind, ?_⟩
        rw [hcells, hkind, hst.cells, hstd.cells, hown.column, KeptAs.column hkept.2]
  refine ⟨_, hbetween, ?_⟩
  show (t.declareAll other.adoptedColumns).rows ++ s.rows = _
  rw [RowTable.rows_declareAll]

end TableBuilder

/-- In a run of safe steps every builder reached describes a table of the accepted rows. -/
theorem Reached.between {b : TableBuilder} {rows : List CurrentRow}
    (h : Reached (fun b rows step => step.Safe b rows) b rows) : ∃ t, b.Between t ∧ t.rows = rows := by
  induction h with
  | withPlan plan =>
      exact ⟨_, TableBuilder.between_withPlan plan, RowTable.rows_declareAll _ _⟩
  | row h puts hok ih =>
      obtain ⟨t, ht, rfl⟩ := ih
      obtain ⟨t', ht', -, -, hrows⟩ := ht.row hok
      exact ⟨t', ht', hrows⟩
  | ensureSchema h schema hok ih =>
      obtain ⟨t, ht, rfl⟩ := ih
      rcases hok with hzero | hmem
      · have hrows : t.rows = [] := List.length_eq_zero_iff.mp (ht.rowCount.symm.trans hzero)
        exact ⟨_, ht.ensureSchema hrows schema, RowTable.rows_declareAll _ _⟩
      · exact ⟨t, ht.ensureSchema_of_mem schema hmem, rfl⟩
  | splitHead h n hpos hn hok ih =>
      obtain ⟨t, ht, rfl⟩ := ih
      exact ⟨_, (ht.splitOff hn).1, rfl⟩
  | splitRest h n hpos hn hok ih =>
      obtain ⟨t, ht, rfl⟩ := ih
      exact ⟨_, (ht.splitOff hn).2, rfl⟩
  | extend h h' hok hres ih ih' =>
      obtain ⟨t, ht, rfl⟩ := ih
      obtain ⟨s, hs, rfl⟩ := ih'
      exact ht.extend_of_keptAs hs hok hres

/-- In a run of safe steps every builder reached has as many columns as names, one cell in each
column for each accepted row, the last value put for the column in that row, and no dirty bit. -/
theorem reached_aligned {b : TableBuilder} {rows : List CurrentRow}
    (h : Reached (fun b rows step => step.Safe b rows) b rows) : Aligned b rows := by
  obtain ⟨t, ht, rfl⟩ := h.between
  exact ht.aligned

end Runs

section Examples

attribute [local instance] integerPlatform

/-- `resolve_and_put` keeps its value where the column has none in the row. -/
theorem keeps_resolveAndPut {b : TableBuilder} {name : String} {value : Value}
    (hfree : (b.plan.resolveField name).all fun resolved =>
      (b.fieldIndex.lookup resolved).all fun slot => !b.rowDirty.test slot) :
    b.Keeps (.resolveAndPut name value) := by
  refine ⟨fun _ resolved hres _ => ⟨⟨name, value, rfl⟩, fun slot hslot => ?_⟩,
    fun _ _ _ n v resolved heq => by cases heq⟩
  have hres : b.plan.resolveField name = some resolved := hres
  rw [hres, Option.all_some, hslot, Option.all_some, Bool.not_eq_true'] at hfree
  exact hfree

/-- A filter on `k`, and a column `n` of numbers. -/
def numberPlan (ty : FieldType) : ExecutionPlan :=
  { filter := some (.equal "k" "1"), fieldTypes := (∅ : StrMap FieldType).insert "n" ty }

/-- A row with `k` and `n`; where `k` passes the filter, `n` is put after the drain. -/
def numberRow (k n : String) : List Put :=
  [.resolveAndPut "k" (.str k), .resolveAndPut "n" (.str n)]

/-- Two rows of integers of which the filter rejects one. -/
def integerRows : TableBuilder :=
  ((TableBuilder.withPlan (numberPlan .int64)).row (numberRow "1" "2")).row (numberRow "2" "9")

/-- One row with a float. -/
def floatRows : TableBuilder :=
  (TableBuilder.withPlan (numberPlan .float64)).row (numberRow "1" "3")

/-- The rows that pass are drained before they end, and the column of integers is promoted when the row
with a float is appended. -/
theorem aligned_promoted_rows :
    Aligned (integerRows.extend floatRows).1
      [rowOf [("k", .str "1"), ("n", .str "2")], rowOf [("k", .str "1"), ("n", .str "3")]] := by
  have hkeeps : ∀ {b : TableBuilder} {k n : String},
      (b.beginRow.plan.resolveField "k").all (fun resolved =>
        (b.beginRow.fieldIndex.lookup resolved).all fun slot => !b.beginRow.rowDirty.test slot) →
      ((b.beginRow.put (.resolveAndPut "k" (.str k))).plan.resolveField "n").all (fun resolved =>
        ((b.beginRow.put (.resolveAndPut "k" (.str k))).fieldIndex.lookup resolved).all fun slot =>
          !(b.beginRow.put (.resolveAndPut "k" (.str k))).rowDirty.test slot) →
      b.beginRow.KeepsAll (numberRow k n) := fun hk hn =>
    ⟨keeps_resolveAndPut hk, keeps_resolveAndPut hn, trivial⟩
  have hfirst : Reached (fun b rows step => step.Safe b rows) floatRows
      [rowOf [("k", .str "1"), ("n", .str "3")]] :=
    .row (.withPlan _) (numberRow "1" "3") (hkeeps (by decide) (by decide))
  have hrows : Reached (fun b rows step => step.Safe b rows) integerRows
      [rowOf [("k", .str "1"), ("n", .str "2")]] :=
    .row (.row (.withPlan _) (numberRow "1" "2") (hkeeps (by decide) (by decide)))
      (numberRow "2" "9") (hkeeps (by decide) (by decide))
  refine reached_aligned (.extend hrows hfirst (fun name d hd => ?_) rfl)
  have hmem : name ∈ ["k", "n"] := by
    obtain ⟨t, ht, -⟩ := hfirst.between
    exact (ht.settled.getColumn_isSome name).mp (Option.isSome_iff_exists.mpr ⟨d, hd⟩)
  rcases List.mem_cons.mp hmem with rfl | hmem
  · obtain rfl := Option.some.inj hd
    exact ⟨keptAs_self _ _ _, keptAs_self _ _ _⟩
  · obtain rfl := List.mem_singleton.mp hmem
    obtain rfl := Option.some.inj hd
    exact ⟨List.forall_mem_singleton.mpr rfl, keptAs_self _ _ _⟩

/-- A filter that passes on the first value of the row. -/
def passingPlan : ExecutionPlan := { filter := some (.equal "k" "1") }

/-- A repeated field after a mid-row drain. -/
theorem not_aligned_of_any_step :
    ¬ ∀ (b : TableBuilder) (rows : List CurrentRow), Reached (fun _ _ _ => True) b rows →
      Aligned b rows := by
  intro h
  have hrun := h _ _ (.row (.withPlan passingPlan)
    [.resolveAndPut "k" (.str "1"), .resolveAndPut "k" (.str "1")] trivial)
  have hlen := hrun.lengths
  revert hlen
  decide

end Examples

end Rypipe
