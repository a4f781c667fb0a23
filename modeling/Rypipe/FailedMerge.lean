import Rypipe.Engine.PromotedExport
import Rypipe.Extend

/-! # A merge that fails

`extend` adds the other builder's totals and columns before it meets the column that cannot be
merged, and stops there. The rows of the receiving builder are still exported, promoted where a
merge has promoted a column and beside null columns; but its totals have changed, unless the other
builder has counted no row. -/

namespace Rypipe

section FailedMerge

variable [Platform]

namespace TableBuilder

open ColumnBuilder

/-! ## The columns after the failure -/

section Columns

variable {n : Nat}

/-- What two steps retain of the columns, both retain. -/
theorem retains_trans {cs ds es : List ColumnBuilder} (h : List.Forall₂ (Retains n) cs ds)
    (h' : List.Forall₂ (Retains n) ds es) : List.Forall₂ (Retains n) cs es := by
  induction h generalizing es with
  | nil => exact h'
  | cons hc _ ih =>
      cases h' with
      | cons hd hrest => exact .cons (hc.trans hd) (ih hrest)

/-- One column is replaced by one that retains its cells, and the columns all retain theirs. -/
theorem retains_set {cs : List ColumnBuilder} (hcs : ∀ c ∈ cs, c.Valid ∧ n ≤ c.len) {i : Nat}
    {own c : ColumnBuilder} (hown : cs[i]? = some own) (hc : own.Retains n c) :
    List.Forall₂ (Retains n) cs (cs.set i c) := by
  induction cs generalizing i with
  | nil => cases hown
  | cons d cs ih =>
      obtain ⟨hd, hrest⟩ := List.forall_mem_cons.mp hcs
      have hsame : List.Forall₂ (Retains n) cs cs :=
        List.forall₂_same.mpr fun e he => .refl (hrest e he).1 (hrest e he).2
      cases i with
      | zero =>
          obtain rfl := Option.some.inj hown
          exact .cons hc hsame
      | succ i => exact .cons (.refl hd.1 hd.2) (ih hrest hown)

/-- The columns that retain the cells of others are valid, and as long. -/
theorem valid_of_retains {cs ds : List ColumnBuilder} (h : List.Forall₂ (Retains n) cs ds) :
    ∀ d ∈ ds, d.Valid ∧ n ≤ d.len := by
  induction h with
  | nil => exact nofun
  | cons hc _ ih => exact List.forall_mem_cons.mpr ⟨⟨hc.valid, hc.tall⟩, ih⟩

/-- Taking a column out of a builder leaves the others: what is taken was one of its columns, and
what is left are columns it had. -/
theorem mem_of_takeColumn {b b' : TableBuilder} {name : String} {c : ColumnBuilder}
    (h : b.takeColumn name = some (c, b')) : c ∈ b.columns ∧ ∀ d ∈ b'.columns, d ∈ b.columns := by
  obtain ⟨idx, -, h⟩ := Option.bind_eq_some_iff.mp h
  obtain ⟨c', hc', h⟩ := Option.bind_eq_some_iff.mp h
  obtain ⟨rfl, rfl⟩ := Prod.mk.inj (Option.some.inj h)
  refine ⟨List.mem_of_getElem? hc', fun d hd => ?_⟩
  have hd : d ∈ swapRemove b.columns idx := hd
  rw [swapRemove] at hd
  split at hd
  · next moved hmoved =>
    rcases List.mem_or_eq_of_mem_set (List.dropLast_subset _ hd) with hd | rfl
    · exact hd
    · exact List.mem_of_getLast? hmoved
  · cases hd

/-- **The columns retain their cells through the merges**, up to the failure. By induction on the
names: each merge appends to its column after promoting it, and the one that fails leaves its column
promoted at most. -/
theorem retains_extendColumns {b other : TableBuilder} (hb : ∀ c ∈ b.columns, c.Valid ∧ n ≤ c.len)
    (hother : ∀ c ∈ other.columns, c.Valid) (names : List String) :
    ∃ columns, (extendColumns b other names).1 = { b with columns := columns } ∧
      List.Forall₂ (Retains n) b.columns columns := by
  induction names generalizing b other with
  | nil => exact ⟨b.columns, rfl, List.forall₂_same.mpr fun c hc => .refl (hb c hc).1 (hb c hc).2⟩
  | cons name names ih =>
      -- one column is changed, and then others
      have hstep : ∀ {idx : Nat} {own c : ColumnBuilder} {other' : TableBuilder},
          b.columns[idx]? = some own → own.Retains n c → (∀ c ∈ other'.columns, c.Valid) →
          ∃ columns, (extendColumns { b with columns := b.columns.set idx c } other' names).1 =
              { b with columns := columns } ∧ List.Forall₂ (Retains n) b.columns columns := by
        intro idx own c other' hown hc hother'
        have hset := retains_set hb hown hc
        obtain ⟨columns, heq, hcolumns⟩ :=
          @ih { b with columns := b.columns.set idx c } other' (valid_of_retains hset) hother'
        exact ⟨columns, heq, retains_trans hset hcolumns⟩
      rw [extendColumns]
      cases hlook : b.fieldIndex.lookup name with
      | none => exact ih hb hother
      | some idx =>
          cases htake : other.takeColumn name with
          | none =>
              dsimp only
              cases hown : b.columns[idx]? with
              | none =>
                  rw [List.modify_eq_self (List.getElem?_eq_none_iff.mp hown)]
                  exact ih hb hother
              | some own =>
                  have hmem := hb own (List.mem_of_getElem? hown)
                  have hset : b.columns.modify idx (·.pushNulls other.rowCount) =
                      b.columns.set idx (own.pushNulls other.rowCount) := by
                    have : Inhabited ColumnBuilder := ⟨own⟩
                    rw [List.modify_eq_set, hown, Option.getD_some]
                  rw [hset]
                  exact hstep hown (retains_pushNulls hmem.1 hmem.2 _) hother
          | some taken =>
              obtain ⟨c, other'⟩ := taken
              obtain ⟨hc, hother'⟩ := mem_of_takeColumn htake
              dsimp only
              cases hown : b.columns[idx]? with
              | none => exact ih hb fun d hd => hother d (hother' d hd)
              | some own =>
                  have hmem := hb own (List.mem_of_getElem? hown)
                  have hmerged := retains_mergeColumn name hmem.1 (hother c hc) hmem.2
                  dsimp only
                  generalize mergeColumn name own c = merged at hmerged ⊢
                  obtain ⟨merged, result⟩ := merged
                  cases result with
                  | ok _ => exact hstep hown hmerged fun d hd => hother d (hother' d hd)
                  | error err => exact ⟨_, rfl, retains_set hb hown hmerged⟩

end Columns

/-! ## The columns before the merges -/

section Adopted

variable {b : TableBuilder} {t : Table}

/-- Adopting a column declares it with the type that the other plan has for its name, and a name
that has a column already is not declared again. -/
theorem declared_adoptColumn (h : b.Declared t) (plan : ExecutionPlan) (rows : Nat)
    (name : String) :
    (b.adoptColumn plan rows name).Declared (t.declare name (plan.columnType name)) := by
  rw [adoptColumn]
  by_cases hmem : name ∈ b.fieldIndex
  · rw [if_pos hmem, RowTable.declare_of_mem ((h.mem_index name).mp hmem)]
    exact h
  · rw [if_neg hmem]
    have happend := h.appendColumn (fun hn => hmem ((h.mem_index name).mpr hn))
      ((ColumnBuilder.ofType (plan.columnType name)).pushNulls rows)
      (b.schemaInsertIndex_le name) fun hs => schemaInsertIndex_of_notMem (hs ▸ List.not_mem_nil)
    rw [ColumnBuilder.kind_pushNulls, ColumnBuilder.kind_ofType] at happend
    exact happend.congr ⟨rfl, rfl, rfl, rfl, rfl⟩

/-- The first step of `extend` declares the columns of the other builder. -/
theorem declared_adoptColumns (h : b.Declared t) (plan : ExecutionPlan) (rows : Nat)
    (names : List String) :
    (names.foldl (fun b name => b.adoptColumn plan rows name) b).Declared
      (t.declareAll (names.map fun name => (name, plan.columnType name))) := by
  induction names generalizing b t with
  | nil => exact h
  | cons name names ih => exact ih (declared_adoptColumn h plan rows name)

/-- A column of nulls that a merge adopts under a new name. -/
def adopted (plan : ExecutionPlan) (rows : Nat) (name : String) : ColumnBuilder :=
  (ColumnBuilder.ofType (plan.columnType name)).pushNulls rows

/-- The columns that `extend` adopts follow those that are there. Their slots are the next ones in
order, and each is a column of missing cells for the rows of the first builder. -/
theorem adoptColumns_eq (b : TableBuilder) (plan : ExecutionPlan) (rows : Nat)
    (names : List String) :
    ∃ columns fieldIndex columnOrder rowDirty added,
      names.foldl (fun b name => b.adoptColumn plan rows name) b =
        { b with columns := columns, fieldIndex := fieldIndex, columnOrder := columnOrder,
                 rowDirty := rowDirty } ∧
      columns = b.columns ++ added ∧
      (∀ c ∈ added, ∃ name ∈ names, name ∉ b.fieldIndex ∧ c = adopted plan rows name) ∧
      ∀ name ∈ names, name ∉ b.fieldIndex → adopted plan rows name ∈ added := by
  induction names generalizing b with
  | nil => exact ⟨_, _, _, _, [], rfl, (List.append_nil _).symm, nofun, nofun⟩
  | cons name names ih =>
      rw [List.foldl_cons]
      -- a column that exists is not adopted again
      by_cases hmem : name ∈ b.fieldIndex
      · have hadopt : b.adoptColumn plan rows name = b := by rw [adoptColumn, if_pos hmem]
        obtain ⟨columns, index, order, dirty, added, heq, hcolumns, hadded, hall⟩ := ih b
        rw [hadopt]
        refine ⟨columns, index, order, dirty, added, heq, hcolumns, fun c hc => ?_,
          fun n hn hnew => ?_⟩
        · obtain ⟨n, hn, hnew, hc⟩ := hadded c hc
          exact ⟨n, List.mem_cons_of_mem _ hn, hnew, hc⟩
        · rcases List.mem_cons.mp hn with rfl | hn
          · exact absurd hmem hnew
          · exact hall n hn hnew
      · obtain ⟨columns, index, order, dirty, added, heq, hcolumns, hadded, hall⟩ :=
          ih (b.adoptColumn plan rows name)
        have hadopt : (b.adoptColumn plan rows name).columns =
            b.columns ++ [adopted plan rows name] := by
          rw [adoptColumn, if_neg hmem]
          rfl
        -- the names still to come are new under the grown index
        have hindex : ∀ n, n ∈ (b.adoptColumn plan rows name).fieldIndex ↔
            n = name ∨ n ∈ b.fieldIndex := by
          intro n
          rw [adoptColumn, if_neg hmem]
          exact AList.mem_insert _
        rw [heq, hcolumns, hadopt]
        refine ⟨_, index, order, dirty, adopted plan rows name :: added, ?_, rfl, fun c hc => ?_,
          fun n hn hnew => ?_⟩
        · rw [adoptColumn, if_neg hmem, List.append_assoc]
          rfl
        · rcases List.mem_cons.mp hc with rfl | hc
          · exact ⟨name, List.mem_cons_self, hmem, rfl⟩
          · obtain ⟨n, hn, hnew, hc⟩ := hadded c hc
            rw [hindex, not_or] at hnew
            exact ⟨n, List.mem_cons_of_mem _ hn, hnew.2, hc⟩
        · by_cases hname : n = name
          · exact hname ▸ List.mem_cons_self
          · refine List.mem_cons_of_mem _ (hall n ((List.mem_cons.mp hn).resolve_left hname) ?_)
            rw [hindex, not_or]
            exact ⟨hname, hnew⟩

end Adopted

/-! ## The builder after the failure -/

section Failed

variable {b other u : TableBuilder} {t t' : Table} {n : Nat} {added : List ColumnBuilder}

/-- The columns of a table under other types, without its rows. -/
def withTypes (t : Table) (types : List FieldType) (hlength : t.names.length = types.length) :
    Table where
  cols := t.names.zip types
  rows := []
  nodup := by
    rw [List.map_fst_zip hlength.le]
    exact t.nodup
  within := nofun

/-- Other types keep the names of the columns. -/
theorem names_withTypes {types : List FieldType} (hlength : t.names.length = types.length) :
    (withTypes t types hlength).names = t.names := List.map_fst_zip hlength.le

/-- Replacing the columns under the same names declares the table with the types of the new ones. -/
theorem Declared.retyped (h : b.Declared t) {columns : List ColumnBuilder}
    (hlength : t.names.length = (columns.map ColumnBuilder.kind).length) :
    ({ b with columns := columns } : TableBuilder).Declared
      (withTypes t (columns.map ColumnBuilder.kind) hlength) where
  kinds := (List.map_snd_zip hlength.ge).symm
  indexed := by
    rw [names_withTypes]
    exact h.indexed
  order := by
    rw [names_withTypes]
    exact h.order
  inOrder := by
    rw [names_withTypes]
    exact h.inOrder

/-- Truncating the columns of a builder keeps the cells of its rows. -/
theorem retains_normalize (hvalid : ∀ c ∈ b.columns, c.Valid) (hn : n ≤ b.rowCount)
    (hlen : ∀ c ∈ b.columns, n ≤ c.len) :
    List.Forall₂ (Retains n) b.columns b.normalize.columns := by
  refine List.forall₂_map_right_iff.mpr (List.forall₂_same.mpr fun c hc => ?_)
  have hst := stores_popTo (hvalid c hc) b.rowCount
  have hcells := length_cells c
  have hle := hlen c hc
  refine ⟨hst.valid, hst.kind ▸ .refl _, ?_, ?_⟩
  · rw [hst.len_eq, List.length_take]
    omega
  · rw [hst.cells, hst.kind, List.take_take, min_eq_left hn, widenAll, List.map_take, ← widenAll, widenAll_self]

/-- Normalizing truncates and fills columns and keeps which they are. -/
theorem sameColumns_normalize (b : TableBuilder) : b.SameColumns b.normalize := by
  refine ⟨?_, rfl, rfl, rfl, rfl⟩
  rw [TableBuilder.kinds, TableBuilder.kinds, normalize, List.map_map]
  exact List.map_congr_left fun c _ => kind_iterate_pop _ c

/-- What a failed merge of `other` into `b` leaves: the columns of `b` and the adopted ones, which
retain their first `n` cells, and the totals of both. -/
structure Failed (n : Nat) (b other u : TableBuilder) (t t' : Table)
    (added : List ColumnBuilder) : Prop where
  declared : u.Declared t'
  names : t.names <+: t'.names
  columns : List.Forall₂ (Retains n) (b.columns ++ added) u.columns
  adopted : ∀ c ∈ added, ∃ name ∈ other.columnOrder,
    name ∉ b.fieldIndex ∧ c = adopted other.plan b.rowCount name
  all : ∀ name ∈ other.columnOrder, name ∉ b.fieldIndex →
    TableBuilder.adopted other.plan b.rowCount name ∈ added
  order : u.columnOrder ≠ []
  rowCount : u.rowCount = b.rowCount
  plan : u.plan = b.plan
  accepted : u.rowsAccepted = b.rowsAccepted + other.rowsAccepted
  rejected : u.rowsRejected = b.rowsRejected + other.rowsRejected
  strict : u.strictError = b.strictError.or other.strictError
  unknown : u.unknownError = b.unknownError.or other.unknownError

/-- An adopted column stores a missing cell for every row. -/
theorem stores_adopted (plan : ExecutionPlan) (rows : Nat) (name : String) :
    (adopted plan rows name).Stores (plan.columnType name) (List.replicate rows none) := by
  have h := (ofType_stores (plan.columnType name)).pushNulls rows
  rwa [List.nil_append] at h

/-- **What a failed merge leaves.** The first builder keeps its rows, though columns may have been
promoted, adopted, or lengthened by rows of the second one; the counters of accepted and rejected
rows have been added already. -/
theorem failed_extend (ht : b.Declared t) (hvalid : ∀ c ∈ b.columns, c.Valid)
    (hother : ∀ c ∈ other.columns, c.Valid) {err : Error} (herr : (b.extend other).2 = .error err)
    (hn : n ≤ b.rowCount) (hlen : ∀ c ∈ b.columns, n ≤ c.len) :
    ∃ t' added, Failed n b other (b.extend other).1 t t' added := by
  have hnormal := retains_normalize hvalid hn hlen
  -- the columns and totals before the first merge
  have htotals : ({ b.normalize with
      strictError := b.strictError.or other.strictError
      unknownError := b.unknownError.or other.unknownError
      rowsAccepted := b.rowsAccepted + other.rowsAccepted
      rowsRejected := b.rowsRejected + other.rowsRejected } : TableBuilder).Declared t :=
    (ht.congr b.sameColumns_normalize).congr ⟨rfl, rfl, rfl, rfl, rfl⟩
  have hdeclared := declared_adoptColumns htotals other.plan b.rowCount other.columnOrder
  obtain ⟨columns, index, order, dirty, added, heq, hcolumns, hadded, hall⟩ :=
    adoptColumns_eq { b.normalize with
      strictError := b.strictError.or other.strictError
      unknownError := b.unknownError.or other.unknownError
      rowsAccepted := b.rowsAccepted + other.rowsAccepted
      rowsRejected := b.rowsRejected + other.rowsRejected } other.plan b.rowCount other.columnOrder
  have hstart : b.extendStart other = _ := heq
  rw [heq] at hdeclared
  have hboth : List.Forall₂ (Retains n) (b.columns ++ added) columns := by
    rw [hcolumns]
    refine List.rel_append hnormal (List.forall₂_same.mpr fun c hc => ?_)
    obtain ⟨name, -, -, rfl⟩ := hadded c hc
    have hst := stores_adopted other.plan b.rowCount name
    refine .refl hst.valid ?_
    rw [hst.len_eq, List.length_replicate]
    exact hn
  have hother' : ∀ c ∈ other.normalize.columns, c.Valid := by
    intro c hc
    obtain ⟨c₀, hc₀, rfl⟩ := List.mem_map.mp hc
    exact (stores_popTo (hother c₀ hc₀) other.rowCount).valid
  obtain ⟨merged, hmerge, hretains⟩ := retains_extendColumns (b := b.extendStart other)
    (by rw [hstart]; exact valid_of_retains hboth) hother' (b.extendStart other).columnOrder
  have hsize : (t.declareAll (other.columnOrder.map fun name =>
      (name, other.plan.columnType name))).names.length =
      (merged.map ColumnBuilder.kind).length := by
    have hcols := hdeclared.size
    have hmergedLength := hretains.length_eq
    rw [hstart] at hmergedLength
    rw [List.length_map, ← hmergedLength, RowTable.names, List.length_map]
    exact hcols.symm
  rw [extend_eq] at herr ⊢
  have horder : (b.extendStart other).columnOrder ≠ [] := by
    intro hnil
    rw [hnil, extendColumns] at herr
    cases herr
  generalize extendColumns (b.extendStart other) other.normalize
    (b.extendStart other).columnOrder = result at herr hmerge ⊢
  obtain ⟨u, outcome⟩ := result
  cases outcome with
  | ok _ => cases herr
  | error _ =>
      obtain rfl : u = _ := hmerge
      rw [hstart] at hretains horder ⊢
      refine ⟨_, added, hdeclared.retyped hsize, ?_, retains_trans hboth hretains, hadded, hall,
        horder, rfl, rfl, rfl, rfl, rfl, rfl⟩
      rw [names_withTypes]
      exact (RowTable.cols_prefix_declareAll t _).map Prod.fst

end Failed

end TableBuilder

end FailedMerge

end Rypipe
