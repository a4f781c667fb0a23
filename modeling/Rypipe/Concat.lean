import Rypipe.Columnar.Promotion
import Rypipe.Extend
import Rypipe.Engine.Reads

/-! # Merging builders is concatenation

`extend` on any two builders between rows whose columns are aligned, whatever their types: when it
succeeds, every column of the result holds the cells of the first builder and then those of the
second, converted where a column was promoted, with nulls for a side that lacks the column. Folding
`extend` over the builders of the parts of a list of rows gives the table of one builder. -/

namespace Rypipe

section Concat

variable [Platform]

/-! ## Merged columns -/

namespace ColumnBuilder

/-- What appending one column to another leaves, when it succeeds: a valid column of the first one's
type whose cells are those of both. A column of another variant is refused, so success also says
that the variants are the same. -/
theorem extendOwned_sound {c d e : ColumnBuilder} (hc : c.Valid) (hd : d.Valid)
    (h : c.extendOwned d = .ok e) :
    e.Valid ∧ e.kind = c.kind ∧ Promotes d.kind c.kind ∧ widen d.kind = widen c.kind ∧
      e.cells = c.cells ++ d.cells := by
  -- columns of one kind: the extension stores the cells of both
  have hsame : ∀ {d' : ColumnBuilder}, d'.Valid → d'.kind = c.kind → c.extendOwned d' = .ok e →
      e.Valid ∧ e.kind = c.kind ∧ e.cells = c.cells ++ d'.cells := by
    intro d' hd' hkind h'
    obtain ⟨e', he', hst⟩ := (stores_self hc).extendOwned (hkind ▸ stores_self hd')
    obtain rfl := Except.ok.inj (h'.symm.trans he')
    exact ⟨hst.valid, hst.kind, hst.cells⟩
  by_cases hkind : d.kind = c.kind
  · obtain ⟨hvalid, hekind, hcells⟩ := hsame hd hkind h
    rw [hkind]
    exact ⟨hvalid, hekind, .refl _, rfl, hcells⟩
  · -- only the formats of timestamps may differ
    cases c with
    | timestamp unit format v =>
        cases d with
        | timestamp unit' format' w =>
            by_cases hunit : unit = unit'
            · subst hunit
              obtain ⟨hvalid, hekind, hcells⟩ := @hsame (.timestamp unit format w) trivial rfl h
              refine ⟨hvalid, hekind, .format unit format' format, ?_, hcells⟩
              -- the format is no part of what a cell widens to
              funext v
              cases v <;> rfl
            · rw [extendOwned, if_neg hunit] at h
              cases h
        | _ => cases h
    | decimal128 scale v =>
        cases d with
        | decimal128 scale' w =>
            have hne : ¬ scale = scale' := fun heq => hkind (by rw [kind, kind, heq])
            rw [extendOwned, if_neg hne] at h
            cases h
        | _ => cases h
    | _ =>
        cases d with
        | string _ => first | exact absurd rfl hkind | cases h
        | int64 _ => first | exact absurd rfl hkind | cases h
        | float64 _ => first | exact absurd rfl hkind | cases h
        | boolean _ => first | exact absurd rfl hkind | cases h
        | date32 _ => first | exact absurd rfl hkind | cases h
        | timestamp _ _ _ => cases h
        | decimal128 _ _ => cases h
        | dictionary _ _ => first | exact absurd rfl hkind | cases h

end ColumnBuilder

namespace TableBuilder

/-- What merging two columns leaves, when it succeeds. Where the variants differ, one of the two
has been promoted to the variant of the other first, which rewrites its cells but keeps their
content. -/
theorem mergeColumn_sound {name : String} {c d e : ColumnBuilder} (hc : c.Valid) (hd : d.Valid)
    (h : mergeColumn name c d = (e, .ok ())) :
    e.Valid ∧ Promotes c.kind e.kind ∧ Promotes d.kind e.kind ∧
      e.cells = widenAll e.kind c.cells ++ widenAll e.kind d.cells := by
  have hextend : ∀ {c' d' : ColumnBuilder}, c'.Valid → d'.Valid → Promotes c.kind c'.kind →
      Promotes d.kind d'.kind → c'.cells = widenAll c'.kind c.cells →
      d'.cells = widenAll d'.kind d.cells → c'.extendOwned d' = .ok e →
      e.Valid ∧ Promotes c.kind e.kind ∧ Promotes d.kind e.kind ∧
        e.cells = widenAll e.kind c.cells ++ widenAll e.kind d.cells := by
    intro c' d' hc' hd' hpc hpd hcc hdc hok
    obtain ⟨hvalid, hkind, hpromotes, hwiden, hcells⟩ := c'.extendOwned_sound hc' hd' hok
    rw [hkind]
    refine ⟨hvalid, hpc, hpd.trans hpromotes, ?_⟩
    rw [hcells, hcc, hdc, widenAll, widenAll, widenAll, hwiden]
  simp only [mergeColumn] at h
  split at h
  · next heq =>
    -- the promotion of the first column failed, or there is none
    cases (Prod.mk.inj h).2
  · cases (Prod.mk.inj h).2
  · next c' d' heq =>
    have hok : c'.extendOwned d' = .ok e := by
      cases hext : c'.extendOwned d' with
      | error err =>
          rw [hext] at h
          cases (Prod.mk.inj h).2
      | ok e' =>
          rw [hext] at h
          rw [(Prod.mk.inj h).1]
    split at heq
    · obtain ⟨rfl, rfl⟩ := Prod.mk.inj (Except.ok.inj (Except.ok.inj heq))
      exact hextend hc hd (.refl _) (.refl _) c.widenAll_self.symm d.widenAll_self.symm hok
    · split at heq
      · cases heq
      · next target _ =>
        cases hpc : c.promoteToVariant target with
        | error err => simp [hpc, bind, Except.bind] at heq
        | ok c₁ =>
            cases hpd : d.promoteToVariant target with
            | error err => simp [hpc, hpd, bind, Except.bind] at heq
            | ok d₁ =>
                simp only [hpc, hpd, bind, Except.bind, Except.ok.injEq, Prod.mk.injEq] at heq
                obtain ⟨rfl, rfl⟩ := heq
                obtain ⟨hvc, hkc, hcc⟩ := ColumnBuilder.promoteToVariant_sound hc hpc
                obtain ⟨hvd, hkd, hdc⟩ := ColumnBuilder.promoteToVariant_sound hd hpd
                exact hextend hvc hvd hkc hkd hcc hdc hok

/-! ## Builders between rows -/

/-- No row is in progress, and every column has one cell for each row, whatever the types. -/
structure Settled (b : TableBuilder) : Prop where
  slotted : b.Slotted
  listed : ∀ name, name ∈ b.columnOrder ↔ name ∈ b.fieldIndex
  nodup : b.columnOrder.Nodup
  aligned : ∀ c ∈ b.columns, c.len = b.rowCount
  valid : ∀ c ∈ b.columns, c.Valid

/-- The cells of a name: those of its column, or nulls. -/
def content (b : TableBuilder) (name : String) : List (Option TypedValue) :=
  match b.getColumn name with
  | some c => c.cells
  | none => List.replicate b.rowCount none

/-- A builder that describes a table is settled: distinct slots, listed names, valid columns, and a
cell in each column for each row. -/
theorem Between.settled {b : TableBuilder} {t : Table} (h : b.Between t) : b.Settled where
  slotted := h.sound.slotted
  listed name := by rw [h.sound.holds.mem_index, h.sound.order.mem_iff]
  nodup := h.sound.order.nodup_iff.mpr t.nodup
  aligned c hc := by
    obtain ⟨i, hi⟩ := List.mem_iff_getElem?.mp hc
    have hlt : i < t.cols.length := by
      rw [← h.sound.holds.size]
      exact (List.getElem?_eq_some_iff.mp hi).1
    rw [h.sound.holds.len_column (List.getElem?_eq_getElem hlt) hi, h.rowCount]
    rfl
  valid c hc := by
    obtain ⟨i, hi⟩ := List.mem_iff_getElem?.mp hc
    have hlt : i < t.cols.length := by
      rw [← h.sound.holds.size]
      exact (List.getElem?_eq_some_iff.mp hi).1
    obtain ⟨c', hc', hst⟩ := h.sound.holds.stored i _ (List.getElem?_eq_getElem hlt)
    obtain rfl : c = c' := Option.some.inj (hi.symm.trans hc')
    exact hst.valid

section Settled

variable {b other : TableBuilder}

/-- A column of a settled builder is valid and has a cell for every row. -/
theorem Settled.mem_columns (h : b.Settled) {name : String} {c : ColumnBuilder}
    (hc : b.getColumn name = some c) : c.Valid ∧ c.len = b.rowCount := by
  obtain ⟨i, -, hi⟩ := Option.bind_eq_some_iff.mp hc
  exact ⟨h.valid c (List.mem_of_getElem? hi), h.aligned c (List.mem_of_getElem? hi)⟩

/-- A name has a column exactly if it is in the export order, so going through the order goes
through all columns. -/
theorem Settled.getColumn_isSome (h : b.Settled) (name : String) :
    (b.getColumn name).isSome = true ↔ name ∈ b.columnOrder := by
  rw [h.listed, ← AList.lookup_isSome]
  constructor
  · intro hsome
    obtain ⟨c, hc⟩ := Option.isSome_iff_exists.mp hsome
    obtain ⟨i, hi, -⟩ := Option.bind_eq_some_iff.mp hc
    rw [hi]
    rfl
  · intro hsome
    obtain ⟨i, hi⟩ := Option.isSome_iff_exists.mp hsome
    obtain ⟨c, hc⟩ := h.slotted.getColumn_isSome hi
    rw [hc]
    rfl

/-- `normalize` has nothing to pop. -/
theorem Settled.columns_normalize (h : b.Settled) : b.normalize.columns = b.columns := by
  have hid : b.columns.map (fun c => ColumnBuilder.pop^[c.len - b.rowCount] c) =
      b.columns.map id := by
    refine List.map_congr_left fun c hc => ?_
    rw [h.aligned c hc, Nat.sub_self]
    rfl
  rw [List.map_id] at hid
  exact hid

/-- Normalizing changes no column of a settled builder, since all have the row count for their
length. -/
theorem Settled.getColumn_normalize (h : b.Settled) (name : String) :
    b.normalize.getColumn name = b.getColumn name := by
  rw [getColumn, getColumn, h.columns_normalize]
  rfl

/-- The pieces of a builder that say whether it is settled are its columns, the index, the export
order and the row count. The row buffer and the counters are not among them. -/
theorem Settled.congr {b' : TableBuilder} (h : b.Settled) (hcolumns : b'.columns = b.columns)
    (hindex : b'.fieldIndex = b.fieldIndex) (horder : b'.columnOrder = b.columnOrder)
    (hrows : b'.rowCount = b.rowCount) : b'.Settled where
  slotted := by
    refine ⟨?_, ?_, ?_⟩
    · rw [hindex]
      exact h.slotted.distinct
    · rw [hindex, hcolumns]
      exact h.slotted.bound
    · rw [hindex, hcolumns]
      exact h.slotted.named
  listed := by
    rw [hindex, horder]
    exact h.listed
  nodup := horder ▸ h.nodup
  aligned := by
    rw [hcolumns, hrows]
    exact h.aligned
  valid := hcolumns ▸ h.valid

/-- A settled builder stays settled when it is normalized. -/
theorem Settled.normalize (h : b.Settled) : b.normalize.Settled :=
  h.congr h.columns_normalize rfl rfl rfl

/-! ## Adopting columns -/

/-- A column under a new name gets a slot of its own. The index is extended by the name, and every
other name keeps its slot, whether the new column comes last in the export order or is put in
between. -/
theorem Slotted.appendColumn (h : b.Slotted) {name : String}
    (hname : b.fieldIndex.lookup name = none) (c : ColumnBuilder) (orderIdx : Nat) :
    (b.appendColumn name c orderIdx).Slotted ∧
      ∀ n, (b.appendColumn name c orderIdx).getColumn n =
        if n = name then some c else b.getColumn n := by
  -- the new name gets the next slot, and every other one keeps its own
  have hindex : ∀ n, (b.appendColumn name c orderIdx).fieldIndex.lookup n =
      if n = name then some b.columns.length else b.fieldIndex.lookup n := by
    intro n
    show (b.fieldIndex.insert name b.columns.length).lookup n = _
    split
    · next heq => rw [heq, AList.lookup_insert]
    · next hne => rw [AList.lookup_insert_ne hne]
  have hlength : (b.appendColumn name c orderIdx).columns.length = b.columns.length + 1 := by
    show (b.columns ++ [c]).length = _
    rw [List.length_append, List.length_singleton]
  refine ⟨⟨?_, ?_, ?_⟩, ?_⟩
  · intro m n i hm hn
    rw [hindex] at hm hn
    split at hm
    · next hm' =>
      split at hn
      · next hn' => rw [hm', hn']
      · obtain rfl := Option.some.inj hm
        exact absurd (h.bound n _ hn) (lt_irrefl _)
    · split at hn
      · obtain rfl := Option.some.inj hn
        exact absurd (h.bound m _ hm) (lt_irrefl _)
      · exact h.distinct m n i hm hn
  · intro n i hi
    rw [hindex] at hi
    rw [hlength]
    split at hi
    · obtain rfl := Option.some.inj hi
      exact Nat.lt_succ_self _
    · exact (h.bound n i hi).trans (Nat.lt_succ_self _)
  · intro i hi
    rw [hlength] at hi
    by_cases hlast : i = b.columns.length
    · exact ⟨name, by rw [hindex, if_pos rfl, hlast]⟩
    · obtain ⟨n, hn⟩ := h.named i (by omega)
      refine ⟨n, ?_⟩
      rw [hindex, if_neg, hn]
      rintro rfl
      rw [hname] at hn
      cases hn
  · intro n
    rw [getColumn, hindex]
    have hcolumns : (b.appendColumn name c orderIdx).columns = b.columns ++ [c] := rfl
    rw [hcolumns]
    split
    · rw [Option.bind_some]
      exact List.getElem?_concat_length
    · rw [getColumn]
      cases hn : b.fieldIndex.lookup n with
      | none => rfl
      | some i => rw [Option.bind_some, Option.bind_some, List.getElem?_append_left (h.bound n i hn)]

/-- Adopting a column adds a column of nulls, unless there is one. It is as long as the row count,
so the builder stays settled, and every other column is left as it is. -/
theorem Settled.adoptColumn (h : b.Settled) (plan : ExecutionPlan) (name : String) :
    (b.adoptColumn plan b.rowCount name).Settled ∧
      (b.adoptColumn plan b.rowCount name).rowCount = b.rowCount ∧
      (b.adoptColumn plan b.rowCount name).plan = b.plan ∧
      (∀ n c, b.getColumn n = some c →
        (b.adoptColumn plan b.rowCount name).getColumn n = some c) ∧
      (∀ n, (b.adoptColumn plan b.rowCount name).content n = b.content n) ∧
      (b.adoptColumn plan b.rowCount name).columnOrder =
        if name ∈ b.columnOrder then b.columnOrder
        else b.columnOrder.insertIdx (b.schemaInsertIndex name) name := by
  rw [TableBuilder.adoptColumn]
  -- a column that is there already is left as it is
  by_cases hmem : name ∈ b.fieldIndex
  · rw [if_pos hmem, if_pos ((h.listed name).mpr hmem)]
    exact ⟨h, rfl, rfl, fun n c hc => hc, fun n => rfl, rfl⟩
  · have horder : name ∉ b.columnOrder := fun hn => hmem ((h.listed name).mp hn)
    have hlookup : b.fieldIndex.lookup name = none := AList.lookup_eq_none.mpr hmem
    rw [if_neg hmem, if_neg horder]
    -- the new column holds one null for every row so far
    have hstores := (ColumnBuilder.ofType_stores (plan.columnType name)).pushNulls b.rowCount
    rw [List.nil_append] at hstores
    generalize (ColumnBuilder.ofType (plan.columnType name)).pushNulls b.rowCount = c at hstores
    obtain ⟨hslotted, hget⟩ := h.slotted.appendColumn hlookup c (b.schemaInsertIndex name)
    have hnew : b.getColumn name = none := by rw [getColumn, hlookup]; rfl
    refine ⟨⟨⟨hslotted.distinct, hslotted.bound, hslotted.named⟩, ?_, ?_, ?_, ?_⟩, rfl, rfl, ?_, ?_,
      rfl⟩
    · intro n
      show n ∈ b.columnOrder.insertIdx (b.schemaInsertIndex name) name ↔
        n ∈ b.fieldIndex.insert name b.columns.length
      rw [List.mem_insertIdx (b.schemaInsertIndex_le name), AList.mem_insert, h.listed]
    · exact (List.perm_insertIdx name b.columnOrder (b.schemaInsertIndex_le name)).nodup_iff.mpr
        (List.nodup_cons.mpr ⟨horder, h.nodup⟩)
    · intro d hd
      rcases List.mem_append.mp hd with hd | hd
      · exact h.aligned d hd
      · rw [List.mem_singleton.mp hd, hstores.len_eq, List.length_replicate]
        rfl
    · intro d hd
      rcases List.mem_append.mp hd with hd | hd
      · exact h.valid d hd
      · rw [List.mem_singleton.mp hd]
        exact hstores.valid
    · intro n d hd
      refine (hget n).trans ?_
      rw [if_neg, hd]
      rintro rfl
      rw [hnew] at hd
      cases hd
    · intro n
      -- a column without cells and a column of nulls have the same content
      have hcolumn := hget n
      rw [content]
      split
      · next d hd =>
        have hd := hcolumn.symm.trans hd
        split at hd
        · next heq =>
          obtain rfl := Option.some.inj hd
          rw [hstores.cells, content, heq, hnew]
        · rw [content, hd]
      · next hd =>
        have hd := hcolumn.symm.trans hd
        split at hd
        · cases hd
        · rw [content, hd]
          rfl

/-- The projected names come in the order of the projection. -/
def Projected (b : TableBuilder) : Prop :=
  (b.columnOrder.filterMap fun n => b.plan.schemaOrder.findIdx? (· == n)).Pairwise (· < ·)

omit [Platform] in
/-- A position in the projection belongs to one name. -/
theorem findIdx?_inj {names : List String} {m n : String} {p : Nat}
    (hm : names.findIdx? (· == m) = some p) (hn : names.findIdx? (· == n) = some p) : m = n := by
  obtain ⟨h, hm, -⟩ := List.findIdx?_eq_some_iff_getElem.mp hm
  obtain ⟨h', hn, -⟩ := List.findIdx?_eq_some_iff_getElem.mp hn
  exact (beq_iff_eq.mp hm).symm.trans (beq_iff_eq.mp hn)

omit [Platform] in
/-- An element put before the first one of a larger position keeps the positions sorted. This is the
place that `schema_insert_index` gives a declared column among those that exist. -/
theorem sorted_insertIdx {α : Type} (position : α → Option Nat) {a : α} {p : Nat}
    (ha : position a = some p) {xs : List α} (hxs : (xs.filterMap position).Pairwise (· < ·))
    (hp : ∀ x ∈ xs, position x ≠ some p) :
    ((xs.insertIdx ((xs.findIdx? fun x => (position x).any (p < ·)).getD xs.length) a).filterMap
      position).Pairwise (· < ·) := by
  induction xs with
  | nil => simp [ha]
  | cons x xs ih =>
      have hp' : ∀ y ∈ xs, position y ≠ some p := fun y hy => hp y (List.mem_cons_of_mem _ hy)
      cases hx : position x with
      | none =>
          rw [List.filterMap_cons_none hx] at hxs
          have hrest := ih hxs hp'
          rw [List.findIdx?_cons, hx]
          cases hfind : xs.findIdx? fun x => (position x).any (p < ·) with
          | none => simpa [hfind, List.filterMap_cons_none hx] using hrest
          | some i => simpa [hfind, List.filterMap_cons_none hx] using hrest
      | some q =>
          rw [List.filterMap_cons_some hx, List.pairwise_cons] at hxs
          have hne : q ≠ p := fun heq => hp x List.mem_cons_self (heq ▸ hx)
          by_cases hlt : p < q
          · have hfirst : (x :: xs).findIdx? (fun x => (position x).any (p < ·)) = some 0 := by
              rw [List.findIdx?_cons, hx]
              simp [hlt]
            rw [hfirst, Option.getD_some, List.insertIdx_zero, List.filterMap_cons_some ha,
              List.filterMap_cons_some hx, List.pairwise_cons, List.pairwise_cons]
            refine ⟨fun r hr => ?_, hxs⟩
            rcases List.mem_cons.mp hr with rfl | hr
            · exact hlt
            · exact hlt.trans (hxs.1 r hr)
          · -- the new element comes after the first one
            have hnext : ((x :: xs).findIdx? fun x => (position x).any (p < ·)).getD
                (x :: xs).length =
                ((xs.findIdx? fun x => (position x).any (p < ·)).getD xs.length) + 1 := by
              rw [List.findIdx?_cons, hx]
              cases xs.findIdx? fun x => (position x).any (p < ·) <;> simp [hlt]
            have hle : ((xs.findIdx? fun x => (position x).any (p < ·)).getD xs.length) ≤
                xs.length := by
              cases hfind : xs.findIdx? fun x => (position x).any (p < ·) with
              | none => exact le_rfl
              | some i => exact (List.findIdx?_eq_some_iff_findIdx_eq.mp hfind).1.le
            rw [hnext, List.insertIdx_succ_cons, List.filterMap_cons_some hx, List.pairwise_cons]
            refine ⟨fun r hr => ?_, ih hxs.2 hp'⟩
            obtain ⟨y, hy, hposition⟩ := List.mem_filterMap.mp hr
            rcases (List.mem_insertIdx hle).mp hy with rfl | hy
            · obtain rfl : p = r := Option.some.inj (ha.symm.trans hposition)
              omega
            · exact hxs.1 r (List.mem_filterMap.mpr ⟨y, hy, hposition⟩)

/-- A new name goes to its place in the projection. The names after that place have a larger
position in the declared order, and those before it a smaller one or none. -/
theorem Projected.insert (h : b.Projected) {name : String} (hname : name ∉ b.columnOrder) :
    ((b.columnOrder.insertIdx (b.schemaInsertIndex name) name).filterMap fun n =>
      b.plan.schemaOrder.findIdx? (· == n)).Pairwise (· < ·) := by
  cases hposition : b.plan.schemaOrder.findIdx? (· == name) with
  | none =>
      have hlast : b.schemaInsertIndex name = b.columnOrder.length := by
        simp only [schemaInsertIndex, hposition, ite_self]
      rw [hlast, List.insertIdx_length_self, List.filterMap_append]
      rw [Projected] at h
      simpa [hposition] using h
  | some p =>
      have hsome : b.schemaInsertIndex name =
          (b.columnOrder.findIdx? fun n => (b.plan.schemaOrder.findIdx? (· == n)).any (p < ·)).getD
            b.columnOrder.length := by
        have hne : b.plan.schemaOrder.isEmpty = false := by
          cases hs : b.plan.schemaOrder with
          | nil => simp [hs] at hposition
          | cons _ _ => rfl
        simp [schemaInsertIndex, hne, hposition]
      rw [hsome]
      refine sorted_insertIdx (fun n => b.plan.schemaOrder.findIdx? (· == n)) hposition h
        fun n hn hp => hname ?_
      rwa [findIdx?_inj hposition hp]

/-- Adopting columns one after another. By induction on the names: each step adopts its column or
finds it, and the ones before it are not touched again. -/
theorem Settled.adoptColumns (h : b.Settled) (plan : ExecutionPlan) (names : List String) :
    let b' := names.foldl (fun b' name => b'.adoptColumn plan b.rowCount name) b
    b'.Settled ∧ b'.rowCount = b.rowCount ∧ b'.plan = b.plan ∧
      (∀ n c, b.getColumn n = some c → b'.getColumn n = some c) ∧
      (∀ n, b'.content n = b.content n) ∧
      (∀ n, n ∈ b'.columnOrder ↔ n ∈ b.columnOrder ∨ n ∈ names) ∧
      (b.Projected → b'.Projected) ∧
      (b.plan.schemaOrder = [] → names.Nodup →
        b'.columnOrder = b.columnOrder ++ names.filter fun n => !(n ∈ b.columnOrder : Bool)) := by
  generalize hrows : b.rowCount = rows
  induction names generalizing b with
  | nil => exact ⟨h, hrows, rfl, fun n c hc => hc, fun n => rfl, by simp, id, by simp⟩
  | cons name names ih =>
      obtain ⟨h₁, hrows₁, hplan₁, hget₁, hcontent₁, horder₁⟩ := h.adoptColumn plan name
      rw [hrows] at h₁ hrows₁ hplan₁ hget₁ hcontent₁ horder₁
      obtain ⟨h₂, hrows₂, hplan₂, hget₂, hcontent₂, hmem₂, hprojected₂, horder₂⟩ :=
        ih h₁ hrows₁
      -- one column more, then the names that are left
      refine ⟨h₂, hrows₂, hplan₂.trans hplan₁, fun n c hc => hget₂ n c (hget₁ n c hc),
        fun n => (hcontent₂ n).trans (hcontent₁ n), ?_, ?_, ?_⟩
      · intro n
        refine (hmem₂ n).trans ?_
        rw [horder₁, List.mem_cons]
        split
        · next hname =>
          constructor
          · exact fun hn => hn.imp_right Or.inr
          · rintro (hn | rfl | hn)
            exacts [Or.inl hn, Or.inl hname, Or.inr hn]
        · rw [List.mem_insertIdx (b.schemaInsertIndex_le name)]
          tauto
      · intro hb
        refine hprojected₂ ?_
        rw [Projected, horder₁, hplan₁]
        split
        · exact hb
        · next hname => exact hb.insert hname
      -- without a schema order every new column goes to the end
      · intro hschema hnodup
        obtain ⟨hnot, hnodup⟩ := List.nodup_cons.mp hnodup
        refine (horder₂ (hplan₁ ▸ hschema) hnodup).trans ?_
        rw [horder₁]
        split
        · next hname => rw [List.filter_cons_of_neg (by simpa using hname)]
        · next hname =>
          rw [schemaInsertIndex_of_notMem (hschema ▸ List.not_mem_nil), List.insertIdx_length_self,
            List.filter_cons_of_pos (by simpa using hname), List.append_assoc, List.singleton_append]
          congr 2
          refine List.filter_congr fun n hn => ?_
          have hne : n ≠ name := by
            rintro rfl
            exact hnot hn
          simp [hne]

/-! ## The merge of two builders -/

/-- The table of `r` is the table of `b` followed by the table of `other`. -/
structure Concatenates (b other r : TableBuilder) : Prop where
  settled : r.Settled
  plan : r.plan = b.plan
  rowCount : r.rowCount = b.rowCount + other.rowCount
  /-- The cells of the first builder and then those of the second, nulls for a side that lacks the
  column, in the type of the column. -/
  cells : ∀ n c, r.getColumn n = some c →
    c.cells = widenAll c.kind (b.content n) ++ widenAll c.kind (other.content n)
  own : ∀ n c e, b.getColumn n = some c → r.getColumn n = some e → Promotes c.kind e.kind
  adopted : ∀ n d e, other.getColumn n = some d → r.getColumn n = some e → Promotes d.kind e.kind
  names : ∀ n, n ∈ r.columnOrder ↔ n ∈ b.columnOrder ∨ n ∈ other.columnOrder
  firstAppearance : b.plan.schemaOrder = [] →
    r.columnOrder = b.columnOrder ++ other.columnOrder.filter fun n => !(n ∈ b.columnOrder : Bool)
  projected : b.Projected → r.Projected

/-- What a merge that succeeds leaves of the column of a name: a valid column of a type that both
promote to, with the cells of both. -/
theorem mergedColumn_sound (ho : other.Settled) {name : String} {c : ColumnBuilder} (hc : c.Valid)
    (hok : ∀ d, other.getColumn name = some d → (mergeColumn name c d).2 = .ok ()) :
    (mergedColumn other name c).Valid ∧ Promotes c.kind (mergedColumn other name c).kind ∧
      (∀ d, other.getColumn name = some d → Promotes d.kind (mergedColumn other name c).kind) ∧
      (mergedColumn other name c).cells =
        widenAll (mergedColumn other name c).kind c.cells ++
          widenAll (mergedColumn other name c).kind (other.content name) := by
  rw [mergedColumn, content]
  cases hd : other.getColumn name with
  | none =>
      have hst := (c.stores_self hc).pushNulls other.rowCount
      dsimp only
      rw [hst.kind, hst.cells, c.widenAll_self, widenAll_replicate]
      refine ⟨hst.valid, .refl _, fun d hd => ?_, rfl⟩
      cases hd
  | some d =>
      have hpair : mergeColumn name c d = ((mergeColumn name c d).1, .ok ()) :=
        Prod.ext rfl (hok d hd)
      obtain ⟨hvalid, hown, hadopted, hcells⟩ :=
        mergeColumn_sound hc (ho.mem_columns hd).1 hpair
      refine ⟨hvalid, hown, fun d' hd' => ?_, hcells⟩
      obtain rfl := Option.some.inj hd'
      exact hadopted

/-- The builder that `extend` merges into has the columns of both, with the content of the first. -/
theorem Settled.extendStart (hb : b.Settled) (other : TableBuilder) :
    (b.extendStart other).Settled ∧ (b.extendStart other).rowCount = b.rowCount ∧
      (b.extendStart other).plan = b.plan ∧
      (∀ n c, b.getColumn n = some c → (b.extendStart other).getColumn n = some c) ∧
      (∀ n, (b.extendStart other).content n = b.content n) ∧
      (∀ n, n ∈ (b.extendStart other).columnOrder ↔
        n ∈ b.columnOrder ∨ n ∈ other.columnOrder) ∧
      (b.Projected → (b.extendStart other).Projected) ∧
      (b.plan.schemaOrder = [] → other.columnOrder.Nodup →
        (b.extendStart other).columnOrder =
          b.columnOrder ++ other.columnOrder.filter fun n => !(n ∈ b.columnOrder : Bool)) := by
  rw [TableBuilder.extendStart]
  generalize hb₀ : ({ b.normalize with
    strictError := b.strictError.or other.strictError
    unknownError := b.unknownError.or other.unknownError
    rowsAccepted := b.rowsAccepted + other.rowsAccepted
    rowsRejected := b.rowsRejected + other.rowsRejected } : TableBuilder) = b₀
  have hcolumns : b₀.columns = b.columns := by rw [← hb₀]; exact hb.columns_normalize
  have hindex : b₀.fieldIndex = b.fieldIndex := by rw [← hb₀]; rfl
  have horder : b₀.columnOrder = b.columnOrder := by rw [← hb₀]; rfl
  have hrows : b₀.rowCount = b.rowCount := by rw [← hb₀]; rfl
  have hplan : b₀.plan = b.plan := by rw [← hb₀]; rfl
  have hget : ∀ n, b₀.getColumn n = b.getColumn n := fun n => by
    rw [getColumn, getColumn, hcolumns, hindex]
  have hcontent : ∀ n, b₀.content n = b.content n := fun n => by
    rw [content, content, hget, hrows]
  have hall := (hb.congr hcolumns hindex horder hrows).adoptColumns other.plan other.columnOrder
  simp only [hrows, hplan, horder, hget, hcontent, Projected] at hall ⊢
  exact hall

/-- `r` has the columns of the builder that the merge starts with, each merged with the column of its
name in `other`. -/
structure MergedFrom (b other r : TableBuilder) : Prop where
  slotted : r.Slotted
  index : r.fieldIndex = (b.extendStart other).fieldIndex
  order : r.columnOrder = (b.extendStart other).columnOrder
  plan : r.plan = (b.extendStart other).plan
  rowCount : r.rowCount = b.rowCount + other.rowCount
  column : ∀ n e, r.getColumn n = some e →
    ∃ c, (b.extendStart other).getColumn n = some c ∧ e = mergedColumn other.normalize n c
  merges : ∀ n ∈ (b.extendStart other).columnOrder, ∀ c d,
    (b.extendStart other).getColumn n = some c → other.normalize.getColumn n = some d →
      (mergeColumn n c d).2 = .ok ()

/-- A merge that succeeds has merged every column: the columns of the result are those of the start
of the merge, each merged with the other builder's column of the name. -/
theorem Settled.mergedFrom (hb : b.Settled) (ho : other.Settled) {r : TableBuilder}
    (hok : b.extend other = (r, .ok ())) : MergedFrom b other r := by
  have hstart := (hb.extendStart other).1
  have hnorm := ho.normalize
  have hfold : (extendColumns (b.extendStart other) other.normalize
      (b.extendStart other).columnOrder).2 = .ok () := by
    rw [extend_eq] at hok
    split at hok
    · next heq => rw [heq]
    · cases (Prod.mk.inj hok).2
  have hmerges := merges_of_extendColumns hstart.slotted hnorm.slotted hstart.nodup hfold
  obtain ⟨columns, heq, hlength, hcols⟩ :=
    extendColumns_ok hstart.slotted hnorm.slotted hstart.nodup hmerges
  rw [extend_eq, heq] at hok
  obtain rfl : ({ b.extendStart other with columns, rowCount := b.rowCount + other.rowCount } :
      TableBuilder) = r := (Prod.mk.inj hok).1
  refine ⟨⟨hstart.slotted.distinct, ?_, ?_⟩, rfl, rfl, rfl, rfl, fun n e he => ?_, hmerges⟩
  · exact fun n i hi => (hstart.slotted.bound n i hi).trans_eq hlength.symm
  · exact fun i hi => hstart.slotted.named i (hi.trans_eq hlength)
  · obtain ⟨i, hi, hie⟩ := Option.bind_eq_some_iff.mp he
    have hi : (b.extendStart other).fieldIndex.lookup n = some i := hi
    obtain ⟨c, hc⟩ := hstart.slotted.getColumn_isSome hi
    have hci : (b.extendStart other).columns[i]? = some c := by
      rw [getColumn, hi] at hc
      exact hc
    have hn : n ∈ (b.extendStart other).columnOrder :=
      (hstart.listed n).mpr (AList.lookup_isSome.mp (by rw [hi]; rfl))
    have hmerged := hcols n i c hi hci
    rw [if_pos hn] at hmerged
    exact ⟨c, hc, Option.some.inj (hie.symm.trans hmerged)⟩

/-- Every column of the result is the column of a name, so facts about merged columns are facts
about all columns. -/
theorem MergedFrom.mem_columns {r : TableBuilder} (h : MergedFrom b other r) {e : ColumnBuilder}
    (he : e ∈ r.columns) : ∃ n c, (b.extendStart other).getColumn n = some c ∧
      e = mergedColumn other.normalize n c := by
  obtain ⟨i, hi⟩ := List.mem_iff_getElem?.mp he
  obtain ⟨n, hn⟩ := h.slotted.named i (List.getElem?_eq_some_iff.mp hi).1
  have hget : r.getColumn n = some e := by
    rw [getColumn, hn]
    exact hi
  obtain ⟨c, hc, heq⟩ := h.column n e hget
  exact ⟨n, c, hc, heq⟩

/-- A merged column has the cells of both sides, in a type that both are promoted to. -/
theorem MergedFrom.sound {r : TableBuilder} (h : MergedFrom b other r) (hb : b.Settled)
    (ho : other.Settled) {n : String} {c : ColumnBuilder}
    (hc : (b.extendStart other).getColumn n = some c) :
    (mergedColumn other.normalize n c).Valid ∧
      Promotes c.kind (mergedColumn other.normalize n c).kind ∧
      (∀ d, other.getColumn n = some d →
        Promotes d.kind (mergedColumn other.normalize n c).kind) ∧
      (mergedColumn other.normalize n c).cells =
        widenAll (mergedColumn other.normalize n c).kind (b.content n) ++
          widenAll (mergedColumn other.normalize n c).kind (other.content n) := by
  obtain ⟨hstart, -, -, -, hcontent, -⟩ := hb.extendStart other
  have hn : n ∈ (b.extendStart other).columnOrder := by
    rw [← hstart.getColumn_isSome, hc]
    rfl
  obtain ⟨hvalid, hown, hadopted, hcells⟩ := mergedColumn_sound ho.normalize
    (hstart.mem_columns hc).1 fun d hd => h.merges n hn c d hc hd
  have hcell : c.cells = b.content n := by
    rw [← hcontent, content, hc]
  have hother : other.normalize.content n = other.content n := by
    rw [content, content, ho.getColumn_normalize]
    rfl
  rw [hcell, hother] at hcells
  refine ⟨hvalid, hown, fun d hd => hadopted d ?_, hcells⟩
  rw [ho.getColumn_normalize, hd]

/-- A name has as many cells as the builder has rows. -/
theorem Settled.length_content (h : b.Settled) (n : String) : (b.content n).length = b.rowCount := by
  rw [content]
  cases hc : b.getColumn n with
  | none => exact List.length_replicate
  | some c => exact c.length_cells.trans (h.mem_columns hc).2

/-- **A merge that succeeds is concatenation.** For every name the cells of the merged column are
those of the first builder's column followed by those of the second's, where a column that one of
them lacks counts as missing cells; and the order is that of adopting the second builder's names. -/
theorem Settled.extend (hb : b.Settled) (ho : other.Settled) {r : TableBuilder}
    (hok : b.extend other = (r, .ok ())) : Concatenates b other r := by
  obtain ⟨hstart, hrows, hplan, hget, hcontent, hnames, hprojected, horder⟩ :=
    hb.extendStart other
  -- what the columns of the result are is read off the merge, column by column
  have hmerged := hb.mergedFrom ho hok
  refine
    { settled := ⟨hmerged.slotted, ?_, hmerged.order ▸ hstart.nodup, ?_, ?_⟩
      plan := hmerged.plan.trans hplan
      rowCount := hmerged.rowCount
      cells := ?_
      own := ?_
      adopted := ?_
      names := by rw [hmerged.order]; exact hnames
      firstAppearance := fun hschema => hmerged.order.trans (horder hschema ho.nodup)
      projected := fun hp => ?_ }
  · rw [hmerged.order, hmerged.index]
    exact hstart.listed
  · intro e he
    obtain ⟨n, c, hc, rfl⟩ := hmerged.mem_columns he
    obtain ⟨-, -, -, hcells⟩ := hmerged.sound hb ho hc
    rw [← ColumnBuilder.length_cells, hcells, widenAll, widenAll, List.length_append,
      List.length_map, List.length_map, hb.length_content, ho.length_content, hmerged.rowCount]
  · intro e he
    obtain ⟨n, c, hc, rfl⟩ := hmerged.mem_columns he
    exact (hmerged.sound hb ho hc).1
  · intro n e he
    obtain ⟨c, hc, rfl⟩ := hmerged.column n e he
    exact (hmerged.sound hb ho hc).2.2.2
  · intro n c' e hc' he
    obtain ⟨c, hc, rfl⟩ := hmerged.column n e he
    obtain rfl := Option.some.inj ((hget n c' hc').symm.trans hc)
    exact (hmerged.sound hb ho hc).2.1
  · intro n d e hd he
    obtain ⟨c, hc, rfl⟩ := hmerged.column n e he
    exact (hmerged.sound hb ho hc).2.2.1 d hd
  · have hsorted := hprojected hp
    rw [Projected, hmerged.plan, hmerged.order]
    exact hsorted

end Settled

/-! ## Folding the merge over the builders of chunks -/

section Reads

variable {plan : ExecutionPlan} {rows rows' : List (List Put)} {b b' : TableBuilder}

/-- The columns of a builder that has read rows are the names its rows are put to. -/
theorem mem_columnOrder_of_types {s : Table} (hs : b.Between s)
    (htype : ∀ n ty, s.typeOf n = some ty ↔ n ∈ outputNames plan rows ∧ ty = plan.columnType n)
    (n : String) : n ∈ b.columnOrder ↔ n ∈ outputNames plan rows := by
  rw [hs.sound.order.mem_iff]
  constructor
  · intro hn
    obtain ⟨ty, hty⟩ := Option.ne_none_iff_exists'.mp
      (mt RowTable.typeOf_eq_none.mp (not_not.mpr hn))
    exact ((htype n ty).mp hty).1
  · intro hn
    have hty := (htype n _).mpr ⟨hn, rfl⟩
    by_contra hnot
    rw [RowTable.typeOf_eq_none.mpr hnot] at hty
    cases hty

/-- Two builders under one plan give a name the type of the plan, so the table that adopts the columns of
the second one has the names of both lists of rows. -/
theorem typeOf_adopted {t s : Table} (hs : b'.Between s) (hplan : b'.plan = plan)
    (htype : ∀ n ty, t.typeOf n = some ty ↔ n ∈ outputNames plan rows ∧ ty = plan.columnType n)
    (htype' : ∀ n ty, s.typeOf n = some ty ↔ n ∈ outputNames plan rows' ∧ ty = plan.columnType n)
    (n : String) (ty : FieldType) : (t.declareAll b'.adoptedColumns).typeOf n = some ty ↔
      n ∈ outputNames plan (rows ++ rows') ∧ ty = plan.columnType n := by
  have hmem := mem_columnOrder_of_types hs htype'
  have hforward : ∀ ty, (t.declareAll b'.adoptedColumns).typeOf n = some ty →
      n ∈ outputNames plan (rows ++ rows') ∧ ty = plan.columnType n := by
    intro ty hty
    rw [mem_outputNames_append]
    rcases RowTable.typeOf_declareAll hty with hold | ⟨-, hnew⟩
    · exact ((htype n ty).mp hold).imp_left Or.inl
    · obtain ⟨m, hm, heq⟩ := List.mem_map.mp hnew
      obtain ⟨rfl, rfl⟩ := Prod.mk.inj heq
      rw [hplan]
      exact ⟨Or.inr ((hmem m).mp hm), rfl⟩
  refine ⟨hforward ty, fun ⟨hn, hty⟩ => ?_⟩
  have hdeclared : n ∈ (t.declareAll b'.adoptedColumns).names := by
    rw [RowTable.mem_names_declareAll]
    rcases (mem_outputNames_append plan rows rows' n).mp hn with hn | hn
    · have hold := RowTable.typeOf_eq_some.mp ((htype n _).mpr ⟨hn, rfl⟩)
      exact Or.inl (List.mem_map_of_mem hold)
    · rw [adoptedColumns, List.map_map]
      exact Or.inr (List.mem_map.mpr ⟨n, (hmem n).mpr hn, rfl⟩)
  obtain ⟨ty', hty'⟩ := Option.ne_none_iff_exists'.mp
    (mt RowTable.typeOf_eq_none.mp (not_not.mpr hdeclared))
  rw [hty', (hforward ty' hty').2, hty]

/-- Merging two builders that have read rows gives one that has read both lists. The columns are the
output names of both lists in order, and under a projection the declared ones come in their declared
places. -/
theorem Reads.extend (h : Reads plan rows b) (h' : Reads plan rows' b') :
    (b.extend b').2 = .ok () ∧ Reads plan (rows ++ rows') (b.extend b').1 := by
  obtain ⟨t, ht, hrows, htype⟩ := h.table
  obtain ⟨s, hs, hrows', htype'⟩ := h'.table
  have hadopted := typeOf_adopted hs h'.samePlan htype htype'
  -- both builders type a name by the plan, so the merge promotes no column
  have hsame : ∀ n ty, (t.declareAll b'.adoptedColumns).typeOf n = some ty →
      ∀ ty', s.typeOf n = some ty' → ty' = ty := fun n ty hty ty' hty' =>
    ((htype' n ty').mp hty').2.trans ((hadopted n ty).mp hty).2.symm
  obtain ⟨hok, hbetween⟩ := ht.extend hs (fun _ ty => ty)
    (fun n c d hc hd => by
      obtain ⟨i, hi, hci⟩ := Option.bind_eq_some_iff.mp hc
      have hstart := ht.extendStart b'
      obtain ⟨ty, hty⟩ := hstart.sound.holds.cols_of_lookup hi
      obtain ⟨c', hc', hst, -⟩ := ht.getColumn_extendStart hty
      obtain rfl := Option.some.inj (hci.symm.trans hc')
      exact (stores_mergedColumn hs.normalize hst
        (hsame n ty (RowTable.typeOf_eq_some.mpr (List.mem_of_getElem? hty)))).2 d hd)
    fun n ty c hmem _ hst =>
      (stores_mergedColumn hs.normalize hst (hsame n ty (RowTable.typeOf_eq_some.mpr hmem))).1
  -- so the result is the concatenation, with the rows of both
  have hconcat := ht.settled.extend hs.settled (Prod.ext rfl hok)
  refine ⟨hok, hconcat.plan.trans h.samePlan, ⟨_, hbetween, ?_, ?_⟩, ?_⟩
  · show (t.declareAll b'.adoptedColumns).rows ++ s.rows = _
    rw [RowTable.rows_declareAll, hrows, hrows', List.map_append]
  · intro n ty
    have hretyped : (extendTable t s b'.adoptedColumns (fun _ ty => ty) (hs.names_adopted t)).typeOf n =
        (t.declareAll b'.adoptedColumns).typeOf n := by
      show ((t.declareAll b'.adoptedColumns).retype fun _ ty => ty).typeOf n = _
      rw [RowTable.typeOf_retype]
      exact Option.map_id'
    rw [hretyped]
    exact hadopted n ty
  · intro hschema
    have hempty : predeclared plan = [] := by
      rw [predeclared, hschema]
      rfl
    rw [hconcat.firstAppearance (h.samePlan ▸ hschema), h.order hschema, h'.order hschema]
    simp only [outputNames, hempty, List.map_nil, List.nil_append, List.flatMap_append]
    simp only [eraseDups_append_eq, List.mem_eraseDups]

/-- Two builders with the same table: as many rows, the same columns of the same types and with the
same cells, exported in the same order. -/
structure SameTable (b b' : TableBuilder) : Prop where
  rowCount : b.rowCount = b'.rowCount
  types : ∀ n, (b.getColumn n).map ColumnBuilder.kind = (b'.getColumn n).map ColumnBuilder.kind
  cells : ∀ n, b.content n = b'.content n
  exported : b.exportNames = b'.exportNames

/-- What a builder that has read rows contains: under each name the cells of the rows, as the plan's
type for the name stores them, and nothing under a name that no row has had. -/
theorem Reads.content (h : Reads plan rows b) (n : String) :
    b.rowCount = rows.length ∧
      (b.getColumn n).map ColumnBuilder.kind =
        (if n ∈ outputNames plan rows then some (plan.columnType n) else none) ∧
      b.content n = rows.map fun puts => cell store (plan.columnType n) n (planRow plan puts) := by
  obtain ⟨t, ht, hrows, htype⟩ := h.table
  have hcolumn : t.column store n (plan.columnType n) =
      rows.map fun puts => cell store (plan.columnType n) n (planRow plan puts) := by
    rw [RowTable.column, hrows, List.map_map]
    rfl
  have hcount : b.rowCount = rows.length := by rw [ht.rowCount, hrows, List.length_map]
  rw [← hcolumn, TableBuilder.content]
  -- a name that no row puts has no column, and its content is all null
  by_cases hn : n ∈ outputNames plan rows
  · have hmem := RowTable.typeOf_eq_some.mp ((htype n _).mpr ⟨hn, rfl⟩)
    obtain ⟨i, hi⟩ := List.mem_iff_getElem?.mp hmem
    obtain ⟨c, hc, hst⟩ := ht.sound.holds.stored i _ hi
    rw [pending_noRow, List.append_nil] at hst
    have hget : b.getColumn n = some c := by
      rw [getColumn, ht.sound.holds.lookup_of_cols hi]
      exact hc
    rw [hget, if_pos hn, Option.map_some, hst.kind]
    exact ⟨hcount, rfl, hst.cells⟩
  · have hname : n ∉ t.names := by
      intro hmem
      obtain ⟨ty, hty⟩ := Option.ne_none_iff_exists'.mp
        (mt RowTable.typeOf_eq_none.mp (not_not.mpr hmem))
      exact hn ((htype n ty).mp hty).1
    have hget : b.getColumn n = none := by
      rw [getColumn, (ht.sound.holds.lookup_eq_none n).mpr hname]
      rfl
    rw [hget, if_neg hn, RowTable.column_of_notMem store hname, ht.rowCount]
    exact ⟨hrows ▸ List.length_map _, rfl, rfl⟩

/-- Builders that have read the same rows have the same table. -/
theorem Reads.sameTable (h : Reads plan rows b) (h' : Reads plan rows b') : b.SameTable b' where
  rowCount := (h.content "").1.trans (h'.content "").1.symm
  types n := (h.content n).2.1.trans (h'.content n).2.1.symm
  cells n := (h.content n).2.2.trans (h'.content n).2.2.symm
  exported := by
    rw [exportNames, exportNames, h.samePlan, h'.samePlan]
    by_cases hschema : plan.schemaOrder = []
    · rw [h.order hschema, h'.order hschema]
    · rw [if_neg (by simpa using hschema), if_neg (by simpa using hschema)]

end Reads

/-- Fold `extend` over the builders of further chunks. -/
def extendAll (b : TableBuilder) (engines : List TableBuilder) : Except Error TableBuilder :=
  engines.foldlM (fun merged e =>
    match merged.extend e with
    | (b, .ok ()) => .ok b
    | (_, .error err) => .error err) b

/-- Folding the merge over builders that have read chunks gives one that has read their rows. -/
theorem Reads.extendAll {plan : ExecutionPlan} (hfilter : plan.filter = none)
    {rows : List (List Put)} {b : TableBuilder} (h : Reads plan rows b)
    (chunks : List (List (List Put))) :
    ∃ r, b.extendAll (chunks.map (withPlan plan).feed) = .ok r ∧
      Reads plan (rows ++ chunks.flatten) r := by
  induction chunks generalizing b rows with
  | nil => exact ⟨b, rfl, by rwa [List.flatten_nil, List.append_nil]⟩
  | cons chunk chunks ih =>
      obtain ⟨hok, hreads⟩ := h.extend (reads_feed hfilter chunk)
      obtain ⟨r, hr, hall⟩ := ih hreads
      refine ⟨r, ?_, ?_⟩
      · rw [TableBuilder.extendAll, List.map_cons, List.foldlM_cons]
        have hpair : b.extend ((withPlan plan).feed chunk) =
            ((b.extend ((withPlan plan).feed chunk)).1, .ok ()) := Prod.ext rfl hok
        rw [hpair]
        exact hr
      · rwa [List.flatten_cons, ← List.append_assoc]

/-- **Merging builders is concatenation.** Where `extend` succeeds on two builders between rows, the
table is that of the first followed by that of the second; and under a plan without a row filter,
folding it over the builders of the chunks of a list of rows succeeds, with the table of one builder
that has read the whole list. -/
theorem extend_is_concatenation :
    (∀ b other r : TableBuilder, b.Settled → other.Settled → b.extend other = (r, .ok ()) →
      Concatenates b other r) ∧
    ∀ (plan : ExecutionPlan) (chunk : List (List Put)) (chunks : List (List (List Put))),
      plan.filter = none →
        ((withPlan plan).feed chunk).Settled ∧
        ∃ r, ((withPlan plan).feed chunk).extendAll (chunks.map (withPlan plan).feed) = .ok r ∧
          r.SameTable ((withPlan plan).feed (chunk ++ chunks.flatten)) := by
  refine ⟨fun b other r hb ho hok => hb.extend ho hok, fun plan chunk chunks hfilter => ?_⟩
  have hreads := reads_feed hfilter chunk
  obtain ⟨t, ht, -⟩ := hreads.table
  obtain ⟨r, hr, hall⟩ := hreads.extendAll hfilter chunks
  exact ⟨ht.settled, r, hr, hall.sameTable (reads_feed hfilter _)⟩

end TableBuilder

end Concat

section Examples

attribute [local instance] integerPlatform

namespace TableBuilder

/-- A row with one field. -/
def fieldRow (name value : String) : List Put := [.field name (.str value)]

/-- A builder of one row takes one of two rows, with a column that it lacks; and three builders, two
of them of one row, make one table. -/
theorem concatenation_of_rows :
    (let b := (withPlan {}).feed [fieldRow "a" "1"]
     let other := (withPlan {}).feed [fieldRow "b" "2", fieldRow "a" "3"]
     Concatenates b other (b.extend other).1) ∧
    ∃ r, ((withPlan {}).feed [fieldRow "a" "1"]).extendAll
        ([[fieldRow "b" "2"], [fieldRow "a" "3"]].map (withPlan {}).feed) = .ok r ∧
      r.SameTable ((withPlan {}).feed [fieldRow "a" "1", fieldRow "b" "2", fieldRow "a" "3"]) :=
  ⟨extend_is_concatenation.1 _ _ _ (extend_is_concatenation.2 {} _ [] rfl).1
      (extend_is_concatenation.2 {} _ [] rfl).1 (Prod.ext rfl rfl),
    (extend_is_concatenation.2 {} _ [[fieldRow "b" "2"], [fieldRow "a" "3"]] rfl).2⟩

end TableBuilder

end Examples

end Rypipe
