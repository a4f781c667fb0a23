import Rypipe.FailedMerge

/-! # The batch after a failed merge

Whether a builder is intact after a merge that failed: its totals are those it had, and `finish`
exports its rows, promoted where the merge has promoted a column and beside null columns. -/

namespace Rypipe

section FailedExport

variable [Platform]

/-- The scale of a decimal type is a byte. -/
def FieldType.ScaleFits (ty : FieldType) : Prop := ∀ scale, ty = .decimal128 scale → scale < 256

omit [Platform] in
/-- A promotion does not change whether Arrow has empty columns of the type. -/
theorem Promotes.hasEmpty {ty ty' : FieldType} (h : Promotes ty ty') :
    ty'.HasEmpty ↔ ty.HasEmpty := by
  cases h with
  | refl => exact Iff.rfl
  | _ => exact ⟨fun _ => trivial, fun _ => trivial⟩

omit [Platform] in
/-- A promoted type has the scale it had, or is no decimal. -/
theorem Promotes.scaleFits {ty ty' : FieldType} (h : Promotes ty ty') (hty : ty.ScaleFits) :
    ty'.ScaleFits := by
  cases h with
  | refl => exact hty
  | _ => exact nofun

omit [Platform] in
/-- Pairing longer lists gives a longer list of pairs. -/
theorem zip_prefix_zip {α β : Type} {xs xs' : List α} {ys ys' : List β} (hxs : xs <+: xs')
    (hys : ys <+: ys') (hlength : xs.length = ys.length) : xs.zip ys <+: xs'.zip ys' := by
  obtain ⟨xs', rfl⟩ := hxs
  obtain ⟨ys', rfl⟩ := hys
  rw [List.zip_append hlength]
  exact List.prefix_append _ _

namespace ColumnBuilder

/-- An empty column whose array has its type is of a type that Arrow has empty columns of. -/
theorem hasEmpty_of_toArrowArray {c left : ColumnBuilder} {a : ArrayRef} (hcells : c.cells = [])
    (hscale : c.kind.ScaleFits) (hok : c.toArrowArray = .ok (a, left))
    (htype : c.arrowDatatype = a.datatype) : c.kind.HasEmpty := by
  cases c with
  | decimal128 scale v =>
      obtain rfl : v = [] := List.map_eq_nil_iff.mp hcells
      have hfits : scale < 256 := hscale scale rfl
      simp only [toArrowArray] at hok
      split at hok
      · cases hok
      next hle =>
      obtain ⟨rfl, -⟩ := Prod.mk.inj (Except.ok.inj hok)
      simp only [arrowDatatype, DataType.decimal128.injEq, true_and] at htype
      simp only [asI8] at hle htype
      show scale ≤ 38
      split at htype <;> omega
  | _ => trivial

/-- The automatic upgrade is a safe promotion, of an empty column to an empty one. -/
theorem promotes_tryUpgradeToDict (c : ColumnBuilder) (minRows : Nat) (maxRatio : F64)
    (maxSize : Nat) : Promotes c.kind (c.tryUpgradeToDict minRows maxRatio maxSize).kind ∧
      (c.cells = [] → (c.tryUpgradeToDict minRows maxRatio maxSize).cells = []) := by
  cases c with
  | string v =>
      simp only [tryUpgradeToDict]
      split
      · exact ⟨.refl _, id⟩
      split
      · exact ⟨.refl _, id⟩
      · refine ⟨.encode, fun hnil => ?_⟩
        obtain rfl : v = [] := List.map_eq_nil_iff.mp hnil
        rfl
  | _ => exact ⟨.refl _, id⟩

end ColumnBuilder

namespace TableBuilder

open ColumnBuilder

/-- What the export of empty columns under their own types says about the types: each of them has an
empty array. A decimal column whose scale does not fit its precision has none, and the export is
refused. -/
theorem hasEmpty_of_exportSlots {columns : List ColumnBuilder} {slots : List (String × Nat)}
    (hnodup : (slots.map Prod.snd).Nodup)
    (h : ∀ s ∈ slots, ∀ c, columns[s.2]? = some c → c.cells = [] ∧ c.kind.ScaleFits)
    {fields : Schema} {arrays : List ArrayRef}
    (hok : exportSlots columns slots = .ok (fields, arrays))
    (htypes : fields.map Prod.snd = arrays.map ArrayRef.datatype) :
    ∀ s ∈ slots, ∀ c, columns[s.2]? = some c → c.kind.HasEmpty := by
  induction slots generalizing columns fields arrays with
  | nil => exact nofun
  | cons slot slots ih =>
      obtain ⟨hslot, hnodup⟩ := List.nodup_cons.mp hnodup
      have hrest : ∀ s ∈ slots, ∀ c, columns[s.2]? = some c → c.cells = [] ∧ c.kind.ScaleFits :=
        fun s hs => h s (List.mem_cons_of_mem _ hs)
      rw [exportSlots] at hok
      cases hc : columns[slot.2]? with
      | none =>
          rw [hc] at hok
          refine List.forall_mem_cons.mpr ⟨fun c hsome => ?_, ih hnodup hrest hok htypes⟩
          rw [hc] at hsome
          cases hsome
      | some c =>
          rw [hc] at hok
          simp only [bind, Except.bind] at hok
          cases harray : c.toArrowArray with
          | error err => simp [harray] at hok
          | ok out =>
              obtain ⟨a, left⟩ := out
              simp only [harray] at hok
              cases hexport : exportSlots (columns.set slot.2 left) slots with
              | error err => simp [hexport] at hok
              | ok rest =>
                  simp only [hexport, Except.ok.injEq, Prod.mk.injEq] at hok
                  obtain ⟨rfl, rfl⟩ := hok
                  rw [List.map_cons, List.map_cons, List.cons.injEq] at htypes
                  -- the other slots are left as they were
                  have hkept : ∀ s ∈ slots, (columns.set slot.2 left)[s.2]? = columns[s.2]? :=
                    fun s hs => List.getElem?_set_ne fun heq => hslot (by
                      rw [heq]
                      exact List.mem_map_of_mem hs)
                  obtain ⟨hcells, hscale⟩ := h slot List.mem_cons_self c hc
                  have hothers := ih hnodup (fun s hs c' hc' => hrest s hs c' (by
                    rw [← hkept s hs]
                    exact hc')) hexport htypes.2
                  refine List.forall_mem_cons.mpr ⟨fun c' hc' => ?_, fun s hs c' hc' => ?_⟩
                  · obtain rfl := Option.some.inj (hc.symm.trans hc')
                    exact hasEmpty_of_toArrowArray hcells hscale harray htypes.1
                  · refine hothers s hs c' ?_
                    rw [hkept s hs]
                    exact hc'

section Unprojected

variable {b : TableBuilder} {t : Table}

/-- Without a projection the exported names are the columns in order. -/
theorem Declared.exportNames_eq (h : b.Declared t) (hschema : b.plan.schemaOrder = []) :
    b.exportNames = t.names := by
  rw [exportNames, if_pos (List.isEmpty_iff.mpr hschema), h.inOrder hschema]

/-- A builder without names has no columns. -/
theorem Declared.columns_eq_nil (h : b.Declared t) (horder : b.columnOrder = []) :
    b.columns = [] := by
  have hlength := h.order.length_eq
  rw [horder, RowTable.names, List.length_map, ← h.size] at hlength
  exact List.length_eq_zero_iff.mp hlength.symm

/-- The columns that an export reads are those of the builder, cut to its rows and promoted. -/
theorem promotes_upgraded (hvalid : ∀ c ∈ b.columns, c.Valid) :
    List.Forall₂ (fun c c' => Promotes c.kind c'.kind ∧ (b.rowCount = 0 → c'.cells = []))
      b.columns b.normalize.autoDictUpgrade.columns := by
  have hcut : ∀ c ∈ b.columns, b.rowCount = 0 → (pop^[c.len - b.rowCount] c).cells = [] := by
    intro c hc hzero
    rw [(stores_popTo (hvalid c hc) b.rowCount).cells, hzero, List.take_zero]
  rw [autoDictUpgrade]
  split
  · refine List.forall₂_map_right_iff.mpr (List.forall₂_map_right_iff.mpr ?_)
    refine List.forall₂_same.mpr fun c hc => ?_
    obtain ⟨hkind, hcells⟩ := promotes_tryUpgradeToDict (pop^[c.len - b.rowCount] c) 512
      (b.plan.dictThreshold.getD (Platform.scientific 5 2)) (b.plan.dictMaxSize.getD 256)
    rw [kind_iterate_pop] at hkind
    exact ⟨hkind, fun hzero => hcells (hcut c hc hzero)⟩
  · refine List.forall₂_map_right_iff.mpr (List.forall₂_same.mpr fun c hc => ⟨?_, hcut c hc⟩)
    rw [kind_iterate_pop]
    exact .refl _

/-- A batch of no rows that shows every column has no column of a type without empty columns. So
where `finish` succeeds before the merge, the types that the merge leaves can be exported without
rows as well. -/
theorem hasEmpty_of_finish (h : b.Declared t) (hschema : b.plan.schemaOrder = [])
    (hzero : b.rowCount = 0) (hvalid : ∀ c ∈ b.columns, c.Valid)
    (hscales : ∀ c ∈ b.columns, c.kind.ScaleFits) {batch : RecordBatch}
    (hok : b.finish = .ok batch) : ∀ c ∈ b.columns, c.kind.HasEmpty := by
  obtain ⟨hunknown, hstrict⟩ := errors_of_finish hok
  by_cases horder : b.columnOrder = []
  · rw [h.columns_eq_nil horder]
    exact nofun
  · have hnames := h.exportNames_eq hschema
    rw [finish_eq hunknown hstrict horder fun n hn => (h.mem_index n).mpr (hnames ▸ hn), hnames,
      h.slotsOf_names] at hok
    cases hex : exportSlots b.normalize.autoDictUpgrade.columns t.names.zipIdx with
    | error err =>
        rw [hex] at hok
        cases hok
    | ok out =>
        rw [hex] at hok
        have htypes := (RecordBatch.madeOf_of_tryNew hok).types
        -- the export may have promoted a column, which keeps whether it can be empty
        have hpromotes := promotes_upgraded hvalid
        have hempty := hasEmpty_of_exportSlots (by
          rw [List.zipIdx_map_snd]
          exact List.nodup_range') (fun s _ c hc => ?_) hex htypes
        · intro c hc
          obtain ⟨i, hi⟩ := List.mem_iff_getElem?.mp hc
          have hlt : i < t.names.length := by
            rw [RowTable.names, List.length_map, ← h.size]
            exact (List.getElem?_eq_some_iff.mp hi).1
          have hrel := rel_getElem? hpromotes i
          rw [hi] at hrel
          generalize hupgraded : b.normalize.autoDictUpgrade.columns[i]? = found at hrel
          obtain ⟨hkind, -⟩ := hrel
          exact hkind.hasEmpty.mp (hempty (t.names[i], i)
            (List.mem_zipIdx_iff_getElem?.mpr (List.getElem?_eq_getElem hlt)) _ hupgraded)
        · have hrel := rel_getElem? hpromotes s.2
          rw [hc] at hrel
          generalize hown : b.columns[s.2]? = found at hrel
          obtain ⟨hkind, hcells⟩ := hrel
          exact ⟨hcells hzero, hkind.scaleFits (hscales _ (List.mem_of_getElem? hown))⟩

/-- A batch that shows every column has the rows of the builder. -/
theorem rowCount_of_finish (h : b.Declared t) (hschema : b.plan.schemaOrder = [])
    (horder : b.columnOrder ≠ []) (htall : ∀ c ∈ b.columns, c.Valid ∧ b.rowCount ≤ c.len)
    {batch : RecordBatch} (hok : b.finish = .ok batch) : batch.rowCount = b.rowCount := by
  obtain ⟨hunknown, hstrict⟩ := errors_of_finish hok
  have hnames := h.exportNames_eq hschema
  have hresumes : b.Resumes b t t :=
    ⟨h, h, List.prefix_refl _, .refl b, rfl, htall, fun c hc => (htall c hc).1⟩
  rw [finish_eq hunknown hstrict horder fun n hn => (h.mem_index n).mpr (hnames ▸ hn), hnames,
    h.slotsOf_names] at hok
  cases hex : exportSlots b.normalize.autoDictUpgrade.columns t.names.zipIdx with
  | error err =>
      rw [hex] at hok
      cases hok
  | ok out =>
      rw [hex] at hok
      have hlengths := length_of_exportSlots (by
        rw [List.zipIdx_map_snd]
        exact List.nodup_range') (fun s _ c hc =>
          hresumes.length_cells c (List.mem_of_getElem? hc)) hex
      have hrows := (RecordBatch.madeOf_of_tryNew hok).rows
      obtain ⟨fields, arrays⟩ := out
      cases arrays with
      | nil => cases hok
      | cons a rest => exact (hrows a List.mem_cons_self).symm.trans (hlengths a List.mem_cons_self)

/-- A builder of no rows exports the empty batch, if Arrow has an empty column for each of its
types. -/
theorem finish_of_no_rows (h : b.Declared t) (hunknown : b.unknownError = none)
    (hstrict : b.strictError = none) (hschema : b.plan.schemaOrder = []) (hzero : b.rowCount = 0)
    (hvalid : ∀ c ∈ b.columns, c.Valid) (hempty : ∀ c ∈ b.columns, c.kind.HasEmpty) :
    ∃ batch, b.finish = .ok batch := by
  -- the builder without its columns, of which the columns are null columns
  generalize hbare : ({ b with columns := [], fieldIndex := ∅, columnOrder := [] } :
    TableBuilder) = bare
  have hdeclared : bare.Declared RowTable.empty := by
    subst hbare
    refine ⟨rfl, fun name i => ⟨fun hlook => ?_, nofun⟩, .refl _, fun _ => rfl⟩
    rw [AList.lookup_empty] at hlook
    cases hlook
  have hresumes : bare.Resumes b RowTable.empty t := by
    subst hbare
    refine ⟨hdeclared, h, List.nil_prefix, ⟨rfl, fun i => ?_⟩, rfl, nofun, hvalid⟩
    simp only [counted, hzero, List.take_zero, List.getElem?_nil, Option.map_none,
      Option.getD_none, List.replicate_zero]
    cases b.columns[i]? <;> rfl
  obtain ⟨extra, -, hfinish⟩ := hresumes.finish_plain (by subst hbare; exact hunknown) hunknown
    (by subst hbare; exact hstrict) hstrict (by subst hbare; exact hschema)
    (fun _ _ => by subst hbare; exact hzero) (fun _ c hc => hempty c (List.mem_of_mem_drop hc))
  rw [hfinish, finish_of_no_column (by subst hbare; exact hunknown) (by subst hbare; exact hstrict)
    (by subst hbare; rfl)]
  exact ⟨_, rfl⟩

end Unprojected

/-! ## Intact builders -/

/-- A builder with its layout in order: the projected columns are declared, the columns are valid,
and have a cell for every row that is exported. -/
structure Standing (b : TableBuilder) : Prop where
  declared : ∃ t, b.Declared t
  exported : ∀ n ∈ b.exportNames, n ∈ b.fieldIndex
  valid : ∀ c ∈ b.columns, c.Valid
  scales : ∀ c ∈ b.columns, c.kind.ScaleFits
  tall : ∀ batch, b.finish = .ok batch → ∀ c ∈ b.columns, b.rowCount ≤ c.len

/-- `u` has the totals of `b` and exports its rows, up to promotions and null columns. -/
structure Intact (b u : TableBuilder) : Prop where
  rowCount : u.rowCount = b.rowCount
  accepted : u.rowsAccepted = b.rowsAccepted
  rejected : u.rowsRejected = b.rowsRejected
  finish : ∀ batch, b.finish = .ok batch → ∃ (promoted : RecordBatch) (extra : Schema),
    batch.Promotes promoted ∧ (∀ p ∈ extra, p.1 ∉ b.columnOrder) ∧
      u.finish = .ok (promoted.withNulls extra)

/-- What keeps a builder intact when the merge of `other` into it fails: `other` has counted no
row; a builder without columns has no row to lose; and where a batch of no rows shows the columns
that the merge adopts, Arrow has empty columns of their types. -/
structure Harmless (b other : TableBuilder) : Prop where
  accepted : other.rowsAccepted = 0
  rejected : other.rowsRejected = 0
  columns : b.columnOrder = [] → b.rowCount = 0 ∧ b.plan.schemaOrder = []
  hasEmpty : b.plan.schemaOrder = [] → b.rowCount = 0 → (∀ c ∈ b.columns, c.kind.HasEmpty) →
    ∀ name ∈ other.columnOrder, name ∉ b.fieldIndex → (other.plan.columnType name).HasEmpty

section Failed

variable {b other u : TableBuilder} {t t' : Table} {added : List ColumnBuilder}

/-- The columns that the builder had, and those that it has adopted. -/
theorem Failed.split {n : Nat} (h : Failed n b other u t t' added) :
    List.Forall₂ (Retains n) b.columns (u.columns.take b.columns.length) ∧
      List.Forall₂ (Retains n) added (u.columns.drop b.columns.length) := by
  constructor
  · have htake := List.forall₂_take b.columns.length h.columns
    rwa [List.take_left] at htake
  · have hdrop := List.forall₂_drop b.columns.length h.columns
    rwa [List.drop_left] at hdrop

/-- An adopted column is a null column of the other builder's type, promoted. -/
theorem Failed.of_mem_drop {n : Nat} (h : Failed n b other u t t' added) {c : ColumnBuilder}
    (hc : c ∈ u.columns.drop b.columns.length) : ∃ name ∈ other.columnOrder,
      name ∉ b.fieldIndex ∧ (TableBuilder.adopted other.plan b.rowCount name).Retains n c := by
  obtain ⟨i, hi⟩ := List.mem_iff_getElem?.mp hc
  have hrel := rel_getElem? h.split.2 i
  rw [hi] at hrel
  generalize hadded : added[i]? = found at hrel
  obtain ⟨hretains⟩ := hrel
  obtain ⟨name, hname, hnew, rfl⟩ := h.adopted _ (List.mem_of_getElem? hadded)
  exact ⟨name, hname, hnew, hretains⟩

/-- **The builder after the failure** is the promoted builder with further null columns. -/
theorem Failed.resumes (h : Failed b.rowCount b other u t t' added) (ht : b.Declared t) :
    ∃ t₀, ({ b with columns := u.columns.take b.columns.length } : TableBuilder).Resumes u
      t₀ t' := by
  obtain ⟨hown, -⟩ := h.split
  have hsize : t.names.length =
      ((u.columns.take b.columns.length).map ColumnBuilder.kind).length := by
    rw [List.length_map, ← hown.length_eq, ht.size, RowTable.names, List.length_map]
  refine ⟨_, ht.retyped hsize, h.declared, ?_, ⟨h.rowCount, fun i => ?_⟩, h.plan,
    valid_of_retains hown, fun c hc => (valid_of_retains h.columns c hc).1⟩
  · have hcols : t'.cols = t'.names.zip u.kinds := by
      rw [h.declared.kinds]
      exact (List.zip_unzip t'.cols).symm.trans (by rw [List.unzip_eq_map]; rfl)
    rw [hcols]
    exact zip_prefix_zip h.names ((List.take_prefix _ _).map _) hsize
  · rw [counted, counted, h.rowCount]
    dsimp only
    by_cases hi : i < b.columns.length
    · rw [List.getElem?_take_of_lt hi]
    · rw [List.getElem?_take_eq_none (Nat.le_of_not_lt hi)]
      -- an adopted column has a null for every row
      cases hc : u.columns[i]? with
      | none => rfl
      | some c =>
          have hdrop : c ∈ u.columns.drop b.columns.length := by
            refine List.mem_of_getElem? (i := i - b.columns.length) ?_
            rw [List.getElem?_drop, Nat.add_sub_cancel' (Nat.le_of_not_lt hi)]
            exact hc
          obtain ⟨name, -, -, hretains⟩ := h.of_mem_drop hdrop
          have hst := stores_adopted other.plan b.rowCount name
          rw [Option.map_some, Option.getD_some, hretains.cells, hst.cells, List.take_replicate,
            min_self, widenAll_replicate]
          rfl

/-- **The rows are still exported** after a harmless failure. The columns of the builder retain the
cells of the counted rows, up to promotions, and the columns that the merge has adopted are null in
all of them. -/
theorem Failed.finish (h : Failed b.rowCount b other u t t' added) (hb : b.Standing)
    (ht : b.Declared t) (hunknown : u.unknownError = none) (hstrict : u.strictError = none)
    (hharmless : b.Harmless other) {batch : RecordBatch} (hok : b.finish = .ok batch) :
    ∃ (promoted : RecordBatch) (extra : Schema), batch.Promotes promoted ∧
      (∀ p ∈ extra, p.1 ∉ b.columnOrder) ∧ u.finish = .ok (promoted.withNulls extra) := by
  obtain ⟨hunknown', hstrict'⟩ := errors_of_finish hok
  obtain ⟨promoted, hpromoted, hpromotes⟩ :=
    finish_promotes hb.exported hb.valid h.split.1 hok
  obtain ⟨t₀, hresumes⟩ := h.resumes ht
  by_cases hschema : b.plan.schemaOrder = []
  · have hempty : b.rowCount = 0 → ∀ c ∈ u.columns.drop (u.columns.take b.columns.length).length,
        c.kind.HasEmpty := by
      intro hzero c hc
      rw [← h.split.1.length_eq] at hc
      obtain ⟨name, hname, hnew, hretains⟩ := h.of_mem_drop hc
      have htype := hharmless.hasEmpty hschema hzero
        (hasEmpty_of_finish ht hschema hzero hb.valid hb.scales hok) name hname hnew
      have hst := stores_adopted other.plan b.rowCount name
      rw [← hst.kind] at htype
      exact hretains.kind.hasEmpty.mpr htype
    obtain ⟨extra, hnew, hfinish⟩ := hresumes.finish_plain hunknown' hunknown hstrict' hstrict
      hschema (fun hnil _ => (hharmless.columns hnil).1) hempty
    rw [hpromoted] at hfinish
    exact ⟨promoted, extra, hpromotes, hnew, hfinish⟩
  · have hfinish := hresumes.finish_projected hunknown' hunknown hstrict' hstrict hschema
      (fun n hn => (hresumes.declared.mem_index n).mp (hb.exported n hn))
      fun hnil => absurd (hharmless.columns hnil).2 hschema
    rw [hpromoted] at hfinish
    refine ⟨promoted, [], hpromotes, nofun, ?_⟩
    rw [hfinish, RecordBatch.withNulls_nil]

/-- A builder whose rows are still exported has columns, or had no row. -/
theorem Failed.columns_of_intact (h : Failed b.rowCount b other u t t' added) (hb : b.Standing)
    (ht : b.Declared t) (hunknown : b.unknownError = none) (hstrict : b.strictError = none)
    (hintact : b.Intact u) (hnil : b.columnOrder = []) :
    b.rowCount = 0 ∧ b.plan.schemaOrder = [] := by
  obtain ⟨promoted, extra, hpromotes, -, hfinish⟩ :=
    hintact.finish _ (finish_of_no_column hunknown hstrict hnil)
  have hcolumns := ht.columns_eq_nil hnil
  by_cases hschema : b.plan.schemaOrder = []
  · refine ⟨?_, hschema⟩
    have htall : ∀ c ∈ u.columns, c.Valid ∧ u.rowCount ≤ c.len := by
      rw [h.rowCount]
      exact valid_of_retains h.columns
    have hrows := rowCount_of_finish h.declared (h.plan ▸ hschema) h.order htall hfinish
    rw [← h.rowCount, ← hrows]
    exact hpromotes.rowCount
  · -- no column is exported, but there is one
    exfalso
    obtain ⟨hunknown', hstrict'⟩ := errors_of_finish hfinish
    have hnone : b.exportNames = [] := by
      refine List.eq_nil_iff_forall_not_mem.mpr fun n hn => ?_
      have hmem := (ht.mem_index n).mp (hb.exported n hn)
      have hsize := ht.size
      rw [hcolumns, List.length_nil, eq_comm, List.length_eq_zero_iff] at hsize
      rw [RowTable.names, hsize] at hmem
      cases hmem
    have hsame : u.exportNames = [] := by
      rw [← hnone, exportNames, exportNames, h.plan, if_neg (by simpa using hschema),
        if_neg (by simpa using hschema)]
    rw [finish_eq hunknown' hstrict' h.order (by simp [hsame]), hsame] at hfinish
    cases hfinish

/-- A builder that is still exported with no row has adopted columns that Arrow has empty. -/
theorem Failed.hasEmpty_of_intact (h : Failed 0 b other u t t' added) (hb : b.Standing)
    (ht : b.Declared t) (hunknown : b.unknownError = none) (hstrict : b.strictError = none)
    (hscales : ∀ name, (other.plan.columnType name).ScaleFits) (hintact : b.Intact u)
    (hschema : b.plan.schemaOrder = []) (hzero : b.rowCount = 0)
    (hempty : ∀ c ∈ b.columns, c.kind.HasEmpty) :
    ∀ name ∈ other.columnOrder, name ∉ b.fieldIndex →
      (other.plan.columnType name).HasEmpty := by
  intro name hname hnew
  obtain ⟨batch, hok⟩ := finish_of_no_rows ht hunknown hstrict hschema hzero hb.valid hempty
  obtain ⟨promoted, extra, -, -, hfinish⟩ := hintact.finish batch hok
  have hkind : ∀ name, (TableBuilder.adopted other.plan b.rowCount name).kind =
      other.plan.columnType name := fun name => (stores_adopted other.plan b.rowCount name).kind
  -- every column of `u` is promoted from one of `b` or from one that the merge has adopted
  have hscales' : ∀ c ∈ u.columns, c.kind.ScaleFits := by
    intro c hc
    obtain ⟨i, hi⟩ := List.mem_iff_getElem?.mp hc
    have hrel := rel_getElem? h.columns i
    rw [hi] at hrel
    generalize hfrom : (b.columns ++ added)[i]? = found at hrel
    obtain ⟨hretains⟩ := hrel
    refine hretains.kind.scaleFits ?_
    rcases List.mem_append.mp (List.mem_of_getElem? hfrom) with hown | hadded
    · exact hb.scales _ hown
    · obtain ⟨n, -, -, rfl⟩ := h.adopted _ hadded
      rw [hkind]
      exact hscales n
  obtain ⟨i, hi⟩ := List.mem_iff_getElem?.mp (List.mem_append_right b.columns (h.all name hname hnew))
  have hrel := rel_getElem? h.columns i
  rw [hi] at hrel
  generalize hlater : u.columns[i]? = found at hrel
  obtain ⟨hretains⟩ := hrel
  -- `u` exports without rows, so each of its columns can be empty
  have hlast := hasEmpty_of_finish h.declared (h.plan ▸ hschema) (h.rowCount.trans hzero)
    (fun c hc => (valid_of_retains h.columns c hc).1) hscales' hfinish _ (List.mem_of_getElem? hlater)
  have hfirst := hretains.kind.hasEmpty.mp hlast
  rwa [hkind] at hfirst

end Failed

/-- **A failed merge leaves the builder intact** exactly when it is harmless. -/
theorem intact_extend_iff (b other : TableBuilder) (hb : b.Standing)
    (hother : ∀ c ∈ other.columns, c.Valid)
    (hscales : ∀ name, (other.plan.columnType name).ScaleFits)
    (hunknown : b.unknownError = none) (hstrict : b.strictError = none)
    (hunknown' : other.unknownError = none) (hstrict' : other.strictError = none) (err : Error)
    (herr : (b.extend other).2 = .error err) :
    b.Intact (b.extend other).1 ↔ b.Harmless other := by
  obtain ⟨t, ht⟩ := hb.declared
  obtain ⟨t₁, added₁, hfailed⟩ := failed_extend ht hb.valid hother herr (Nat.zero_le b.rowCount)
    fun c _ => Nat.zero_le _
  -- where the columns have all their rows, so they have after the failed merge
  have hfull : (∀ c ∈ b.columns, b.rowCount ≤ c.len) → ∃ t' added,
      Failed b.rowCount b other (b.extend other).1 t t' added :=
    fun htall => failed_extend ht hb.valid hother herr le_rfl htall
  generalize (b.extend other).1 = u at hfailed hfull ⊢
  have hunknownu : u.unknownError = none := by
    rw [hfailed.unknown, hunknown, hunknown']
    rfl
  have hstrictu : u.strictError = none := by
    rw [hfailed.strict, hstrict, hstrict']
    rfl
  constructor
  · intro hintact
    refine ⟨?_, ?_, fun hnil => ?_, fun hschema hzero hempty =>
      hfailed.hasEmpty_of_intact hb ht hunknown hstrict hscales hintact hschema hzero hempty⟩
    · have haccepted := hfailed.accepted.symm.trans hintact.accepted
      omega
    · have hrejected := hfailed.rejected.symm.trans hintact.rejected
      omega
    · obtain ⟨t', added, hfailed'⟩ := hfull (by rw [ht.columns_eq_nil hnil]; exact nofun)
      exact hfailed'.columns_of_intact hb ht hunknown hstrict hintact hnil
  · intro hharmless
    refine ⟨hfailed.rowCount, ?_, ?_, fun batch hok => ?_⟩
    · rw [hfailed.accepted, hharmless.accepted, Nat.add_zero]
    · rw [hfailed.rejected, hharmless.rejected, Nat.add_zero]
    · obtain ⟨t', added, hfailed'⟩ := hfull (hb.tall batch hok)
      exact hfailed'.finish hb ht hunknownu hstrictu hharmless hok

/-! ## Builders of rows -/

section Rows

variable {plan : ExecutionPlan}

/-- A new builder stands after any calls that leave its columns valid and tall. -/
theorem standing_callAll (hscales : ∀ name, (plan.columnType name).ScaleFits) (calls : List Call)
    (hvalid : ∀ c ∈ ((withPlan plan).callAll calls).columns, c.Valid)
    (htall : ∀ c ∈ ((withPlan plan).callAll calls).columns,
      ((withPlan plan).callAll calls).rowCount ≤ c.len) :
    ((withPlan plan).callAll calls).Standing := by
  obtain ⟨hdeclared, hplan, -, -⟩ := declared_callAll_withPlan plan calls
  refine ⟨⟨_, hdeclared⟩, fun n hn => (hdeclared.mem_index n).mpr ?_, hvalid, fun c hc => ?_,
    fun _ _ => htall⟩
  · by_cases hschema : plan.schemaOrder = []
    · rwa [hdeclared.exportNames_eq (by rwa [hplan])] at hn
    · rw [exportNames, hplan, if_neg (by simpa using hschema), List.mem_filter] at hn
      rw [RowTable.mem_names_declareAll]
      exact .inl (mem_names_predeclared hn.1 (by simpa using hn.2))
  · -- every type is one that the plan gives
    have hkind := List.mem_map_of_mem (f := ColumnBuilder.kind) hc
    rw [← TableBuilder.kinds, hdeclared.kinds] at hkind
    obtain ⟨p, hp, hty⟩ := List.mem_map.mp hkind
    have hfits : ∀ names : List String, p ∈ names.map (fun name => (name, plan.columnType name)) →
        c.kind.ScaleFits := by
      intro names hmem
      obtain ⟨name, -, rfl⟩ := List.mem_map.mp hmem
      rw [← hty]
      exact hscales name
    rcases RowTable.mem_cols_declareAll hp with hp | ⟨-, hp⟩
    · rcases RowTable.mem_cols_declareAll hp with hp | ⟨-, hp⟩
      · cases hp
      · rw [predeclared] at hp
        split at hp
        · cases hp
        · exact hfits _ hp
    · exact hfits _ hp

/-- **Complete rows** leave a builder that stands. -/
theorem standing_feed (hscales : ∀ name, (plan.columnType name).ScaleFits)
    (rows : List (List Put)) : ((withPlan plan).feed rows).Standing := by
  have htall := (tall_withPlan plan).feed rows
  rw [feed_eq_callAll] at htall ⊢
  exact standing_callAll hscales _ htall.valid htall.tall

/-- So does a row in progress that has not been drained: it has only written behind the counted
rows, and every column still has a cell for each of these. -/
theorem standing_inRow (hscales : ∀ name, (plan.columnType name).ScaleFits)
    (rows : List (List Put)) (puts : List Put)
    (hdirect : ¬ (((withPlan plan).feed rows).beginRow.putAll puts).IsDirect) :
    (((withPlan plan).feed rows).beginRow.putAll puts).Standing := by
  have hstacked := (((tall_withPlan plan).feed rows).beginRow.putAll puts).1
  have htall : ∀ c ∈ (((withPlan plan).feed rows).beginRow.putAll puts).columns,
      (((withPlan plan).feed rows).beginRow.putAll puts).rowCount ≤ c.len := by
    intro c hc
    obtain ⟨i, hi⟩ := List.mem_iff_getElem?.mp hc
    have hle := hstacked.tall i c hi
    rw [backfill_of_not_direct hdirect] at hle
    omega
  have hvalid := hstacked.valid
  rw [inRow_eq_callAll] at hvalid htall ⊢
  exact standing_callAll hscales _ hvalid htall

end Rows

end TableBuilder

end FailedExport

section Examples

attribute [local instance] integerPlatform

namespace TableBuilder

/-- A plan that stores the field `a` as integers. -/
def integerPlan : ExecutionPlan := { fieldTypes := (∅ : StrMap FieldType).insert "a" .int64 }

/-- The plan has no decimal types, so that no scale can be out of range. -/
theorem scaleFits_integerPlan (name : String) : (integerPlan.columnType name).ScaleFits := by
  rw [ExecutionPlan.columnType, integerPlan]
  by_cases hname : name = "a"
  · subst hname
    rw [AList.lookup_insert]
    intro scale hscale
    cases hscale
  · rw [AList.lookup_insert_ne hname, AList.lookup_empty]
    intro scale hscale
    cases hscale

/-- One row of integers. -/
def integerRow : TableBuilder := (withPlan integerPlan).feed [[.field "a" (.str "1")]]

/-- One row of texts. -/
def textRow : TableBuilder := (withPlan {}).feed [[.field "a" (.str "x")]]

/-- The builder of the row is one that whole rows have made. -/
theorem integerRow_standing : integerRow.Standing := standing_feed scaleFits_integerPlan _

/-- Its columns are valid. -/
theorem textRow_valid : ∀ c ∈ textRow.columns, c.Valid := ((tall_withPlan {}).feed _).valid

/-- The columns disagree. -/
theorem extend_integerRow : (integerRow.extend textRow).2 =
    .error (conflictingTypes "a" "int64" "string") := rfl

/-- The row of texts is counted, though it has not been merged: the counters are added before the
first column is extended, and the failure does not take them back. -/
theorem accepted_extend_integerRow : ¬ ∀ (b other : TableBuilder) (err : Error), b.Standing →
    (∀ c ∈ other.columns, c.Valid) → b.unknownError = none → b.strictError = none →
    other.unknownError = none → other.strictError = none → (b.extend other).2 = .error err →
    b.Intact (b.extend other).1 := by
  intro hintact
  have haccepted := (hintact integerRow textRow _ integerRow_standing textRow_valid rfl rfl rfl rfl
    extend_integerRow).accepted
  have hcount : integerRow.rowsAccepted = 1 ∧ (integerRow.extend textRow).1.rowsAccepted = 2 :=
    ⟨rfl, rfl⟩
  omega

/-- A builder with a column of texts and no row. -/
def textColumn : TableBuilder := withPlan { schemaOrder := ["a"] }

/-- The plan has no decimal types. -/
theorem scaleFits_textColumn (name : String) : (textColumn.plan.columnType name).ScaleFits := by
  rw [ExecutionPlan.columnType, (rfl : textColumn.plan.fieldTypes.lookup name = none)]
  intro scale hscale
  cases hscale

/-- A builder without rows is merged in vain, and harmlessly. -/
theorem intact_extend_textColumn : integerRow.Intact (integerRow.extend textColumn).1 :=
  (intact_extend_iff integerRow textColumn integerRow_standing (tall_withPlan _).valid
    scaleFits_textColumn rfl rfl rfl rfl _ rfl).mpr
      ⟨rfl, rfl, fun hnil => absurd hnil (by decide), fun _ hzero => absurd hzero (by decide)⟩

end TableBuilder

end Examples

end Rypipe
