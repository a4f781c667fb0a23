import Rypipe.Concat
import Rypipe.Foundation.Chains

/-! # Exporting the chunks separately

`engines_to_record_batches` on the builders of the chunks of a list of rows, under a plan without a
projection, a row filter and `auto_dict`: it exports the table that one builder would, except that it
refuses a `decimal128` column which two chunks have, since the keys of the decimal types are not in
`VARIANT_KEYS`. -/

namespace Rypipe

section ParallelExport

variable [Platform]

/-! ## Reconciling the variants -/

/-- The key of the columns of a type. -/
def FieldType.variantKey (ty : FieldType) : String := (ColumnBuilder.ofType ty).variantKey

/-- The type is a decimal type. -/
def FieldType.isDecimal : FieldType → Bool
  | .decimal128 _ => true
  | _ => false

/-- The variant key of a column is that of its type. -/
theorem ColumnBuilder.variantKey_eq (c : ColumnBuilder) : c.variantKey = c.kind.variantKey :=
  TableBuilder.variantKey_eq_of_kind (ColumnBuilder.kind_ofType c.kind).symm

/-- A key is reconciled with itself unless it is that of a decimal type. -/
theorem unifyVariants_self (ty : FieldType) :
    unifyVariants ty.variantKey ty.variantKey =
      if ty.isDecimal then none else some ty.variantKey := by
  rw [unifyVariants, if_pos rfl]
  cases ty with
  | timestamp unit format => cases unit <;> rfl
  | decimal128 scale =>
      simp only [FieldType.variantKey, ColumnBuilder.ofType, ColumnBuilder.variantKey]
      split <;> rfl
  | _ => rfl

/-- The names with the keys of their types. -/
def keyed (types : String → FieldType) (names : List String) : Targets :=
  names.map fun n => (n, (types n).variantKey)

/-- The keys by name are those of the types of the names that are there. -/
theorem lookup_keyed (types : String → FieldType) (names : List String) (n : String) :
    (keyed types names).lookup n = if n ∈ names then some (types n).variantKey else none := by
  induction names with
  | nil => rfl
  | cons m names ih =>
      rw [keyed, List.map_cons, List.lookup_cons, ← keyed]
      by_cases h : n = m
      · simp [h]
      · have hne : (n == m) = false := beq_eq_false_iff_ne.mpr h
        simp [hne, ih, h]

omit [Platform] in
/-- One more name, which is of no decimal column or new, is no second sighting of a decimal column. -/
theorem nodup_decimals_concat {types : String → FieldType} {seen : List String} {n : String}
    (hseen : (seen.filter fun n => (types n).isDecimal).Nodup)
    (hn : (types n).isDecimal = false ∨ n ∉ seen) :
    ((seen ++ [n]).filter fun n => (types n).isDecimal).Nodup := by
  rw [List.filter_append, List.filter_singleton]
  cases hdecimal : (types n).isDecimal with
  | false => simpa using hseen
  | true =>
      have hnew : n ∉ seen := hn.resolve_left (by rw [hdecimal]; exact Bool.noConfusion)
      refine List.nodup_append.mpr ⟨hseen, List.nodup_singleton n, ?_⟩
      rintro m hm m' hm' rfl
      exact hnew (List.mem_singleton.mp hm' ▸ (List.mem_filter.mp hm).1)

/-- Noting the variant of a name again changes nothing. -/
theorem keyed_update (types : String → FieldType) (names : List String) (n : String) :
    (keyed types names).map (fun p => if p.1 = n then (n, (types n).variantKey) else p) =
      keyed types names := by
  rw [keyed, List.map_map]
  refine List.map_congr_left fun m _ => ?_
  by_cases hm : m = n
  · simp [hm]
  · simp [hm]

/-- Sightings of columns whose types go by their names are reconciled exactly when no decimal column
is seen twice. All other variants are met with the same key again; a decimal key is none of the keys
that unify, so a second sighting is a conflict. -/
theorem foldlM_noteVariant (types : String → FieldType) (seen names : List String)
    (hseen : (seen.filter fun n => (types n).isDecimal).Nodup) :
    if ((seen ++ names).filter fun n => (types n).isDecimal).Nodup then
      (keyed types names).foldlM (fun targets p => noteVariant targets p.1 p.2)
        (keyed types seen.eraseDups) = .ok (keyed types (seen ++ names).eraseDups)
    else ∃ err, (keyed types names).foldlM (fun targets p => noteVariant targets p.1 p.2)
      (keyed types seen.eraseDups) = .error err := by
  induction names generalizing seen with
  | nil =>
      rw [List.append_nil, if_pos hseen]
      rfl
  | cons n names ih =>
      have hcons : (keyed types (n :: names)).foldlM (fun targets p => noteVariant targets p.1 p.2)
          (keyed types seen.eraseDups) =
            noteVariant (keyed types seen.eraseDups) n (types n).variantKey >>= fun targets =>
              (keyed types names).foldlM (fun targets p => noteVariant targets p.1 p.2) targets :=
        rfl
      rw [hcons, noteVariant, lookup_keyed]
      have happend : seen ++ n :: names = (seen ++ [n]) ++ names := by simp
      by_cases hmem : n ∈ seen
      · rw [if_pos (List.mem_eraseDups.mpr hmem)]
        dsimp only
        rw [unifyVariants_self]
        cases hdecimal : (types n).isDecimal with
        | true =>
            -- the second sighting of a decimal column
            rw [if_neg]
            · exact ⟨_, rfl⟩
            · intro hnodup
              rw [List.filter_append, List.nodup_append] at hnodup
              exact hnodup.2.2 n (List.mem_filter.mpr ⟨hmem, hdecimal⟩) n
                (List.mem_filter.mpr ⟨List.mem_cons_self, hdecimal⟩) rfl
        | false =>
            have hrest := ih (seen ++ [n]) (nodup_decimals_concat hseen (.inl hdecimal))
            rw [eraseDups_concat, if_pos hmem, ← happend] at hrest
            rw [if_neg Bool.false_ne_true]
            dsimp only
            rw [keyed_update]
            exact hrest
      · rw [if_neg fun h => hmem (List.mem_eraseDups.mp h)]
        have hnew : keyed types seen.eraseDups ++ [(n, (types n).variantKey)] =
            keyed types (seen ++ [n]).eraseDups := by
          rw [eraseDups_concat, if_neg hmem, keyed, keyed, List.map_append]
          rfl
        have hrest := ih (seen ++ [n]) (nodup_decimals_concat hseen (.inr hmem))
        rw [← hnew, ← happend] at hrest
        exact hrest

/-! ## The chunks -/

namespace TableBuilder

section Chunk

variable {plan : ExecutionPlan} {rows : List (List Put)} {b : TableBuilder}

omit [Platform] in
/-- Steps that leave a value as it is. -/
theorem foldlM_eq_self {α β ε : Type} {f : β → α → Except ε β} {b : β}
    (h : ∀ a, f b a = .ok b) (xs : List α) : xs.foldlM f b = .ok b := by
  induction xs with
  | nil => rfl
  | cons a xs ih =>
      rw [List.foldlM_cons, h a]
      exact ih

/-- The columns of the batches: the output names with the types of the plan. -/
def planTypedNames (plan : ExecutionPlan) (rows : List (List Put)) : List (String × FieldType) :=
  planTyped plan (outputNames plan rows).eraseDups

/-- The batch of some columns of a list of rows. -/
def rowsBatch (plan : ExecutionPlan) (cols : List (String × FieldType)) (rows : List (List Put)) :
    RecordBatch :=
  ⟨schemaOf cols, cols.map fun p =>
    ⟨p.2.arrowType, rows.map fun puts => cell store p.2 p.1 (planRow plan puts)⟩, rows.length⟩

/-- A table with the rows of a plan has their batches. -/
theorem batchOf_eq_rowsBatch {t : Table} (hrows : t.rows = rows.map (planRow plan))
    (cols : List (String × FieldType)) : batchOf t cols = rowsBatch plan cols rows := by
  rw [batchOf, rowsBatch, hrows, List.length_map]
  congr 1
  refine List.map_congr_left fun p _ => ?_
  rw [arrayOf, RowTable.column, hrows, List.map_map]
  rfl

/-- `prepare_finish` on a builder that has read rows without an error. -/
theorem Reads.prepareFinish (h : Reads plan rows b) (hunknown : b.unknownError = none)
    (hstrict : b.strictError = none) : ∃ b', b.prepareFinish = .ok b' ∧ Reads plan rows b' := by
  obtain ⟨t, ht, hrows, htype⟩ := h.table
  obtain ⟨b', hb', hbetween, horder, hplan⟩ := ht.prepareFinish hunknown hstrict
  refine ⟨b', hb', hplan.trans h.samePlan, ⟨t, hbetween, hrows, htype⟩, fun hschema => ?_⟩
  rw [horder, h.order hschema]

/-- The column of a name, if one of the rows puts it, stores the cells of all rows under the type of
the plan, and a name that no row puts has no column. -/
theorem Reads.getColumn (h : Reads plan rows b) (n : String) :
    (n ∈ outputNames plan rows → ∃ c, b.getColumn n = some c ∧ c.Stores (plan.columnType n)
      (rows.map fun puts => cell store (plan.columnType n) n (planRow plan puts))) ∧
    (n ∉ outputNames plan rows → b.getColumn n = none) := by
  obtain ⟨-, hkind, hcells⟩ := h.content n
  obtain ⟨t, ht, -⟩ := h.table
  constructor
  · intro hn
    rw [if_pos hn] at hkind
    obtain ⟨c, hc, hck⟩ := Option.map_eq_some_iff.mp hkind
    rw [TableBuilder.content, hc] at hcells
    exact ⟨c, hc, (ht.settled.mem_columns hc).1, hck, hcells⟩
  · intro hn
    rw [if_neg hn] at hkind
    exact Option.map_eq_none_iff.mp hkind

/-- The sightings of a builder are its columns with the keys of their types. -/
theorem Reads.sightings (h : Reads plan rows b) (hschema : plan.schemaOrder = []) :
    sightings b = keyed plan.columnType (outputNames plan rows).eraseDups := by
  rw [Rypipe.sightings, h.order hschema, keyed, ← List.filterMap_eq_map]
  refine List.filterMap_congr fun n hn => ?_
  obtain ⟨c, hc, hst⟩ := (h.getColumn n).1 (List.mem_eraseDups.mp hn)
  rw [hc, Option.map_some, ColumnBuilder.variantKey_eq, hst.kind]
  rfl

/-- Columns that have the common variants already are not promoted. -/
theorem Reads.promoteColumns (h : Reads plan rows b) {names : List String} :
    promoteColumns (keyed plan.columnType names) b = .ok b := by
  refine foldlM_eq_self (fun name => ?_) b.columnOrder
  rw [lookup_keyed]
  by_cases hname : name ∈ names
  · rw [if_pos hname]
    cases hc : b.getColumn name with
    | none => rfl
    | some c =>
        have hn : name ∈ outputNames plan rows := by
          by_contra hn
          rw [(h.getColumn name).2 hn] at hc
          cases hc
        obtain ⟨c', hc', hst⟩ := (h.getColumn name).1 hn
        obtain rfl := Option.some.inj (hc.symm.trans hc')
        have hkey : c.variantKey = (plan.columnType name).variantKey := by
          rw [ColumnBuilder.variantKey_eq, hst.kind]
        have hset : b.setColumn name c = b := by
          obtain ⟨i, hi, hci⟩ := Option.bind_eq_some_iff.mp hc
          rw [setColumn, hi]
          dsimp only
          obtain ⟨hlt, hget⟩ := List.getElem?_eq_some_iff.mp hci
          rw [← hget, List.set_getElem_self]
        simp [ColumnBuilder.promoteToVariant, hkey, hset, bind, Except.bind, pure, Except.pure]
  · rw [if_neg hname]

/-- Replacing a column keeps the slots, and the columns of the other names. -/
theorem Slotted.setColumn (h : b.Slotted) (name : String) (c : ColumnBuilder) :
    (b.setColumn name c).Slotted ∧ (b.setColumn name c).rowCount = b.rowCount ∧
      ∀ n, n ≠ name → (b.setColumn name c).getColumn n = b.getColumn n := by
  rw [TableBuilder.setColumn]
  cases hi : b.fieldIndex.lookup name with
  | none => exact ⟨h, rfl, fun n _ => rfl⟩
  | some i =>
      have hlength : (b.columns.set i c).length = b.columns.length := List.length_set
      refine ⟨⟨h.distinct, fun n j hj => (h.bound n j hj).trans_eq hlength.symm,
        fun j hj => h.named j (hj.trans_eq hlength)⟩, rfl, fun n hn => ?_⟩
      show (b.fieldIndex.lookup n).bind (fun j => (b.columns.set i c)[j]?) = b.getColumn n
      rw [TableBuilder.getColumn]
      cases hj : b.fieldIndex.lookup n with
      | none => rfl
      | some j =>
          have hne : i ≠ j := by
            rintro rfl
            exact hn (h.distinct n name _ hj hi)
          rw [Option.bind_some, Option.bind_some, List.getElem?_set_ne hne]

/-- Exporting columns that exist, or are null, gives their arrays. -/
theorem Slotted.exportEngine (h : b.Slotted) {cols : List (String × FieldType)}
    (hnodup : (cols.map Prod.fst).Nodup) (values : String × FieldType → List (Option TypedValue))
    (hcols : ∀ p ∈ cols,
      (∃ c, b.getColumn p.1 = some c ∧ c.Stores p.2 (values p) ∧ values p ≠ []) ∨
        b.getColumn p.1 = none ∧ values p = List.replicate b.rowCount none) :
    Rypipe.exportEngine b (schemaOf cols) =
      .ok (cols.map fun p => ⟨p.2.arrowType, values p⟩) := by
  induction cols generalizing b with
  | nil => rfl
  | cons p cols ih =>
      obtain ⟨hp, hnodup'⟩ := List.nodup_cons.mp hnodup
      rw [schemaOf, List.map_cons, ← schemaOf, Rypipe.exportEngine]
      rcases hcols p List.mem_cons_self with ⟨c, hc, hst, hne⟩ | ⟨hc, hnull⟩
      · have harray := ColumnBuilder.toArrowArray_of_valid hst.valid
          (Or.inl (hst.cells ▸ hne))
        obtain ⟨hslotted, hrows, hget⟩ := h.setColumn p.1 c.emptied
        have hrest := ih hslotted hnodup' fun q hq => by
          have hqp : q.1 ≠ p.1 := fun heq => hp (heq ▸ List.mem_map_of_mem hq)
          rw [hget q.1 hqp, hrows]
          exact hcols q (List.mem_cons_of_mem _ hq)
        simp only [hc, harray, hrest, bind, Except.bind, pure, Except.pure, List.map_cons]
        rw [c.arrowDatatype_eq, hst.kind, hst.cells]
      · have hrest := ih h hnodup' fun q hq => hcols q (List.mem_cons_of_mem _ hq)
        simp only [hc, hrest, bind, Except.bind, pure, Except.pure, List.map_cons, nullArray,
          hnull]

/-- The batch of a chunk over the columns of all chunks. A column that the chunk lacks is null in
all of its rows, and one that it has is exported under the type of the plan. -/
theorem Reads.exportEngine (h : Reads plan rows b) (hne : rows ≠ []) {names : List String}
    (hnodup : names.Nodup) (hnames : names ≠ []) :
    (Rypipe.exportEngine b (schemaOf (planTyped plan names)) >>=
      RecordBatch.tryNew (schemaOf (planTyped plan names))) =
        .ok (rowsBatch plan (planTyped plan names) rows) := by
  obtain ⟨t, ht, hrows, htype⟩ := h.table
  have hfst : (planTyped plan names).map Prod.fst = names := by
    rw [planTyped, List.map_map, List.map_id'']
    exact fun n => rfl
  have harrays := ht.sound.slotted.exportEngine (hfst.symm ▸ hnodup)
    (fun p => rows.map fun puts => cell store p.2 p.1 (planRow plan puts)) fun p hp => by
      obtain ⟨n, -, rfl⟩ := List.mem_map.mp hp
      by_cases hn : n ∈ outputNames plan rows
      · obtain ⟨c, hc, hst⟩ := (h.getColumn n).1 hn
        exact Or.inl ⟨c, hc, hst, by simpa using hne⟩
      · refine Or.inr ⟨(h.getColumn n).2 hn, ?_⟩
        obtain ⟨hcount, -, hcells⟩ := h.content n
        rw [← hcells, TableBuilder.content, (h.getColumn n).2 hn]
  have hcols : planTyped plan names ≠ [] := by simpa [planTyped] using hnames
  have hnew := tryNew_arrayOf t hcols
  rw [harrays]
  have hbatch := batchOf_eq_rowsBatch hrows (planTyped plan names)
  rw [hbatch] at hnew
  have hcolumns : (planTyped plan names).map (arrayOf t) = (planTyped plan names).map fun p =>
      ⟨p.2.arrowType, rows.map fun puts => cell store p.2 p.1 (planRow plan puts)⟩ := by
    have := congrArg RecordBatch.columns hbatch
    exact this
  rw [hcolumns] at hnew
  exact hnew

/-- The batch of one builder that has read rows: its columns are the output names of the rows, with
the types of the plan, and its rows are what these types store. -/
theorem Reads.finish (h : Reads plan rows b) (hauto : plan.autoDict = false)
    (hschema : plan.schemaOrder = []) {batch : RecordBatch} (hok : b.finish = .ok batch)
    (hrows : 0 < batch.rowCount) :
    batch = rowsBatch plan (planTypedNames plan rows) rows := by
  obtain ⟨hunknown, hstrict⟩ := errors_of_finish hok
  obtain ⟨b₁, hb₁, h₁⟩ := h.prepareFinish hunknown hstrict
  obtain ⟨t, ht, htrows, htype⟩ := h₁.table
  have hplan := h₁.samePlan
  rw [TableBuilder.finish, hb₁] at hok
  simp only [bind, Except.bind] at hok
  split at hok
  · cases hok
    cases hrows
  · next hempty =>
    -- the plan asks for no dictionaries and for no order of its own
    have hupgrade : b₁.autoDictUpgrade = b₁ := by
      rw [TableBuilder.autoDictUpgrade, hplan, hauto]
      rfl
    have hsort : b₁.sortColumns = b₁ := by
      rw [sortColumns, hplan, hschema]
      rfl
    have horder := h₁.order hschema
    have hnames : ∀ n ∈ b₁.columnOrder, n ∈ t.names := fun n hn => ht.sound.order.mem_iff.mp hn
    -- a batch with rows has some, since a table without rows has no columns
    have hrowsne : t.rows ≠ [] := by
      rw [htrows]
      rintro hnil
      rw [List.map_eq_nil_iff] at hnil
      rw [hnil] at horder
      rw [horder] at hempty
      simp [outputNames, predeclared, hschema] at hempty
    have htyped : typed t b₁.columnOrder = planTypedNames plan rows := by
      rw [typed, planTypedNames, planTyped, horder]
      refine List.map_congr_left fun n hn => ?_
      rw [(htype n _).mpr ⟨List.mem_eraseDups.mp hn, rfl⟩, Option.getD_some]
    have hslots := exportSlots_slotsOf ht.sound.holds hnames ht.settled.nodup (Or.inl hrowsne)
    rw [slotsOf] at hslots
    have hnonempty : planTypedNames plan rows ≠ [] := by
      rw [← htyped]
      simpa [typed, List.isEmpty_iff] using hempty
    rw [hupgrade, hplan, hschema] at hok
    simp only [List.isEmpty_nil, Bool.not_true, Bool.false_eq_true, ↓reduceIte, hsort, hslots,
      htyped, tryNew_arrayOf t hnonempty] at hok
    rw [← Except.ok.inj hok, batchOf_eq_rowsBatch htrows]

end Chunk

end TableBuilder

/-! ## The chunks together -/

/-- The rows of a batch, each as its cells in column order. -/
def RecordBatch.rows (batch : RecordBatch) : List (List (Option TypedValue)) :=
  (List.range batch.rowCount).map fun k => batch.columns.map fun a => at? a.values k

namespace TableBuilder

/-- The batch of some rows reads back as their cells. -/
theorem rows_rowsBatch (plan : ExecutionPlan) (cols : List (String × FieldType))
    (rows : List (List Put)) : (rowsBatch plan cols rows).rows =
      rows.map fun puts => cols.map fun p => cell store p.2 p.1 (planRow plan puts) := by
  refine List.ext_getElem (by simp [RecordBatch.rows, rowsBatch]) fun k hk hk' => ?_
  rw [List.length_map] at hk'
  simp [RecordBatch.rows, rowsBatch, at?, hk']

section Chunks

variable {plan : ExecutionPlan} {chunks : List (List (List Put))} {engines : List TableBuilder}

/-- Builders without rows are left out, and the chunks they were built from have no rows either. -/
theorem reads_filter (h : List.Forall₂ (Reads plan) chunks engines) :
    List.Forall₂ (Reads plan) (chunks.filter fun rows => !rows.isEmpty)
      (engines.filter fun e => decide (0 < e.rowCount)) := by
  induction h with
  | nil => exact .nil
  | @cons rows e chunks engines he _ ih =>
      have hcount := (he.content "").1
      cases rows with
      | nil =>
          rw [List.filter_cons_of_neg (by simp), List.filter_cons_of_neg (by simp [hcount])]
          exact ih
      | cons puts rows =>
          rw [List.filter_cons_of_pos (by simp), List.filter_cons_of_pos (by simp [hcount])]
          exact .cons he ih

/-- The names the chunks have, chunk by chunk. -/
def chunkNames (plan : ExecutionPlan) (chunks : List (List (List Put))) : List String :=
  chunks.flatMap fun rows => (outputNames plan rows).eraseDups

/-- What the chunks show of their columns are the types of the plan, under the names that any chunk
has had. -/
theorem sightings_chunks (h : List.Forall₂ (Reads plan) chunks engines)
    (hschema : plan.schemaOrder = []) :
    engines.flatMap sightings = keyed plan.columnType (chunkNames plan chunks) := by
  induction h with
  | nil => rfl
  | cons he _ ih =>
      rw [List.flatMap_cons, ih, he.sightings hschema]
      exact List.map_append.symm

/-- The Arrow type of a name that some chunk has is that of its type in the plan, whichever chunk is
the first to have it. -/
theorem firstDatatype_chunks (h : List.Forall₂ (Reads plan) chunks engines)
    (hschema : plan.schemaOrder = []) {n : String} (hn : n ∈ chunkNames plan chunks) :
    firstDatatype engines n = some (plan.columnType n).arrowType := by
  induction h with
  | nil => cases hn
  | @cons rows e chunks engines he _ ih =>
      rw [firstDatatype, List.findSome?_cons, he.order hschema]
      by_cases hmem : n ∈ outputNames plan rows
      · obtain ⟨c, hc, hst⟩ := (he.getColumn n).1 hmem
        rw [if_pos (List.mem_eraseDups.mpr hmem), hc, Option.map_some, c.arrowDatatype_eq, hst.kind]
      · rw [if_neg fun hm => hmem (List.mem_eraseDups.mp hm)]
        refine ih ?_
        rw [chunkNames, List.flatMap_cons, List.mem_append] at hn
        exact hn.resolve_left fun hm => hmem (List.mem_eraseDups.mp hm)

/-- Without a projection no name is predeclared. -/
theorem outputNames_of_no_projection (hschema : plan.schemaOrder = []) (rows : List (List Put)) :
    outputNames plan rows = rows.flatMap fun puts => puts.filterMap fun p => p.target plan := by
  rw [outputNames, predeclared, hschema]
  rfl

/-- A chunk without rows has no names, so leaving such chunks out changes no name and no order of
names. -/
theorem chunkNames_filter (hschema : plan.schemaOrder = []) :
    chunkNames plan (chunks.filter fun rows => !rows.isEmpty) = chunkNames plan chunks := by
  induction chunks with
  | nil => rfl
  | cons rows chunks ih =>
      cases rows with
      | nil =>
          rw [List.filter_cons_of_neg (by simp), ih, chunkNames, chunkNames, List.flatMap_cons,
            outputNames_of_no_projection hschema]
          rfl
      | cons puts rows =>
          rw [List.filter_cons_of_pos (by simp), chunkNames, List.flatMap_cons, ← chunkNames, ih]
          rfl

/-- The names of the chunks, in order of first appearance, are those of all the rows. -/
theorem eraseDups_chunkNames (hschema : plan.schemaOrder = []) :
    (chunkNames plan chunks).eraseDups = (outputNames plan chunks.flatten).eraseDups := by
  induction chunks with
  | nil => rw [List.flatten_nil, outputNames_of_no_projection hschema]; rfl
  | cons rows chunks ih =>
      rw [chunkNames, List.flatMap_cons, ← chunkNames, List.flatten_cons,
        outputNames_of_no_projection hschema (rows ++ _), List.flatMap_append,
        ← outputNames_of_no_projection hschema, ← outputNames_of_no_projection hschema,
        eraseDups_append_eq, eraseDups_append_eq, ih, eraseDups_eraseDups]
      simp only [List.mem_eraseDups]

/-- No decimal column is seen twice exactly when no two chunks have one. -/
theorem nodup_chunkNames :
    ((chunkNames plan chunks).filter fun n => (plan.columnType n).isDecimal).Nodup ↔
      chunks.Pairwise fun rows rows' => ∀ n ∈ outputNames plan rows, n ∈ outputNames plan rows' →
        (plan.columnType n).isDecimal = false := by
  rw [chunkNames, List.filter_flatMap, List.nodup_flatMap]
  constructor
  · rintro ⟨-, hdisjoint⟩
    refine hdisjoint.imp fun {rows rows'} hdis n hn hn' => ?_
    by_contra hdecimal
    rw [Bool.not_eq_false] at hdecimal
    exact hdis (List.mem_filter.mpr ⟨List.mem_eraseDups.mpr hn, hdecimal⟩)
      (List.mem_filter.mpr ⟨List.mem_eraseDups.mpr hn', hdecimal⟩)
  · intro hapart
    refine ⟨fun rows _ => (nodup_eraseDups _).filter _, hapart.imp fun {rows rows'} h => ?_⟩
    intro n hn hn'
    obtain ⟨hmem, hdecimal⟩ := List.mem_filter.mp hn
    obtain ⟨hmem', -⟩ := List.mem_filter.mp hn'
    rw [h n (List.mem_eraseDups.mp hmem) (List.mem_eraseDups.mp hmem')] at hdecimal
    cases hdecimal

/-- The variants of the columns of the chunks are reconciled exactly when no decimal column is seen
twice. -/
theorem unifyTargets_chunks (h : List.Forall₂ (Reads plan) chunks engines)
    (hschema : plan.schemaOrder = []) :
    if ((chunkNames plan chunks).filter fun n => (plan.columnType n).isDecimal).Nodup then
      unifyTargets engines = .ok (keyed plan.columnType (chunkNames plan chunks).eraseDups)
    else ∃ err, unifyTargets engines = .error err := by
  have hunify := foldlM_noteVariant plan.columnType [] (chunkNames plan chunks) List.nodup_nil
  rwa [List.nil_append, ← sightings_chunks h hschema, List.eraseDups_nil] at hunify

/-- `engines_to_record_batches` from the builders with rows on, without a row filter. -/
def exportLive (live : List TableBuilder) : Except Error (List RecordBatch) :=
  unifyTargets live >>= fun targets =>
    if targets.isEmpty then .ok []
    else live.mapM (promoteColumns targets) >>= fun engines =>
      engines.mapM fun e =>
        Rypipe.exportEngine e (targets.filterMap fun p =>
          (firstDatatype engines p.1).map fun datatype => (p.1, datatype)) >>=
        RecordBatch.tryNew (targets.filterMap fun p =>
          (firstDatatype engines p.1).map fun datatype => (p.1, datatype))

/-- Builders without an error are exported, those without rows left out. -/
theorem enginesToRecordBatches_prepared (hfilter : plan.filter = none) {builders : List TableBuilder}
    (h : builders.mapM prepareFinish = .ok engines) :
    enginesToRecordBatches builders plan =
      exportLive (engines.filter fun e => decide (0 < e.rowCount)) := by
  rw [enginesToRecordBatches, h, hfilter]
  refine congrArg (unifyTargets (engines.filter fun e => decide (0 < e.rowCount)) >>= ·)
    (funext fun targets => ?_)
  split
  · rfl
  · exact congrArg _ (funext fun engines => bind_pure _)

/-- Once the variants are reconciled, every chunk is exported with the columns of all. -/
theorem exportLive_chunks (h : List.Forall₂ (Reads plan) chunks engines)
    (hschema : plan.schemaOrder = []) (hne : ∀ rows ∈ chunks, rows ≠ []) {names : List String}
    (hnames : (chunkNames plan chunks).eraseDups = names) (hnonempty : names ≠ [])
    (hunify : unifyTargets engines = .ok (keyed plan.columnType names)) :
    exportLive engines = .ok (chunks.map (rowsBatch plan (planTyped plan names))) := by
  have htargets : (keyed plan.columnType names).isEmpty = false := by
    rw [List.isEmpty_eq_false_iff]
    exact fun hnil => hnonempty (List.map_eq_nil_iff.mp hnil)
  have hpromoted : engines.mapM (promoteColumns (keyed plan.columnType names)) = .ok engines :=
    mapM_eq_self h fun rows e he => he.promoteColumns
  have hcolumns : (keyed plan.columnType names).filterMap (fun p =>
      (firstDatatype engines p.1).map fun datatype => (p.1, datatype)) =
        schemaOf (planTyped plan names) := by
    rw [keyed, List.filterMap_map, schemaOf, planTyped, List.map_map, ← List.filterMap_eq_map]
    refine List.filterMap_congr fun n hn => ?_
    have hmem : n ∈ chunkNames plan chunks := by
      rw [← List.mem_eraseDups, hnames]
      exact hn
    simp only [Function.comp_apply, firstDatatype_chunks h hschema hmem, Option.map_some]
  have hexported := mapM_eq_map h fun rows hmem e he =>
    he.exportEngine (hne rows hmem) (hnames ▸ nodup_eraseDups _) hnonempty
  rw [exportLive, hunify]
  simp only [bind, Except.bind] at hexported ⊢
  rw [htargets, if_neg Bool.false_ne_true, hpromoted]
  simp only [hcolumns]
  exact hexported

end Chunks

/-- The batches of the chunks have the columns and the rows of the batch of the whole. -/
def SplitOf (batches : List RecordBatch) (batch : RecordBatch) : Prop :=
  (∀ part ∈ batches, part.schema = batch.schema) ∧
    batches.flatMap RecordBatch.rows = batch.rows

/-- The batches of chunks over the same columns split the batch of all their rows. -/
theorem splitOf_rowsBatch (plan : ExecutionPlan) (cols : List (String × FieldType))
    (chunks : List (List (List Put))) :
    SplitOf (chunks.map (rowsBatch plan cols)) (rowsBatch plan cols chunks.flatten) := by
  constructor
  · intro part hpart
    obtain ⟨rows, -, rfl⟩ := List.mem_map.mp hpart
    rfl
  · rw [rows_rowsBatch, List.flatMap_map, List.map_flatten]
    simp only [rows_rowsBatch]
    rfl

/-- **The parallel export preserves the table exactly when no two chunks have a common decimal
column.** For a plan without `auto_dict`, projection and row filter, whenever one builder that reads
all the rows exports a table with a row and a column. -/
theorem parallel_export_iff {plan : ExecutionPlan} (hauto : plan.autoDict = false)
    (hschema : plan.schemaOrder = []) (hfilter : plan.filter = none)
    {chunks : List (List (List Put))} {batch : RecordBatch}
    (hok : ((withPlan plan).feed chunks.flatten).finish = .ok batch) (hrows : 0 < batch.rowCount)
    (hcols : batch.schema ≠ []) :
    (∃ batches, enginesToRecordBatches (chunks.map (withPlan plan).feed) plan = .ok batches ∧
      SplitOf batches batch) ↔
    chunks.Pairwise fun rows rows' => ∀ n ∈ outputNames plan rows, n ∈ outputNames plan rows' →
      (plan.columnType n).isDecimal = false := by
  have hbatch := (reads_feed hfilter chunks.flatten).finish hauto hschema hok hrows
  have hnames : (outputNames plan chunks.flatten).eraseDups ≠ [] := by
    rintro hnil
    rw [hbatch] at hcols
    exact hcols (by rw [rowsBatch, planTypedNames, hnil]; rfl)
  -- no chunk has recorded an error
  have hclean : ∀ rows ∈ chunks, ∃ e, ((withPlan plan).feed rows).prepareFinish = .ok e ∧
      Reads plan rows e := by
    intro rows hmem
    obtain ⟨hunknown, hstrict⟩ := errors_feed hschema rows
    refine (reads_feed hfilter rows).prepareFinish hunknown (hstrict.mpr fun puts hputs => ?_)
    have hall := (errors_feed hschema chunks.flatten).2.mp (errors_of_finish hok).2
    exact hall puts (List.mem_flatten_of_mem hmem hputs)
  obtain ⟨engines, hengines, hreads⟩ := mapM_forall₂ hclean
  rw [enginesToRecordBatches_prepared hfilter (List.mapM_map.trans hengines)]
  have hkept := reads_filter hreads
  have hunify := unifyTargets_chunks hkept hschema
  rw [chunkNames_filter hschema] at hunify
  rw [← nodup_chunkNames]
  split at hunify
  · next hnodup =>
    refine iff_of_true ?_ hnodup
    have hparts : ∀ rows ∈ chunks.filter (fun rows => !rows.isEmpty), rows ≠ [] := by
      rintro rows hmem rfl
      exact absurd (List.mem_filter.mp hmem).2 (by simp)
    have hall : (chunkNames plan (chunks.filter fun rows => !rows.isEmpty)).eraseDups =
        (outputNames plan chunks.flatten).eraseDups := by
      rw [chunkNames_filter hschema, eraseDups_chunkNames hschema]
    rw [eraseDups_chunkNames hschema] at hunify
    refine ⟨_, exportLive_chunks hkept hschema hparts hall hnames hunify, ?_⟩
    have hsplit := splitOf_rowsBatch plan (planTypedNames plan chunks.flatten)
      (chunks.filter fun rows => !rows.isEmpty)
    rwa [List.flatten_filter_not_isEmpty, ← hbatch] at hsplit
  · next hnodup =>
    refine iff_of_false ?_ hnodup
    rintro ⟨batches, hbatches, -⟩
    obtain ⟨err, herr⟩ := hunify
    rw [exportLive, herr] at hbatches
    cases hbatches

end TableBuilder

end ParallelExport

section Examples

attribute [local instance] integerPlatform

namespace TableBuilder

/-- Two chunks with a text column each: the export splits the table of both rows, where each row is
null in the column of the other. -/
theorem parallel_export_of_texts :
    ∃ batches, enginesToRecordBatches
        ([[fieldRow "a" "1"], [fieldRow "b" "2"]].map (withPlan {}).feed) {} = .ok batches ∧
      SplitOf batches ⟨[("a", .utf8), ("b", .utf8)],
        [⟨.utf8, [some (.str "1"), none]⟩, ⟨.utf8, [none, some (.str "2")]⟩], 2⟩ := by
  have hok : ((withPlan {}).feed [[fieldRow "a" "1"], [fieldRow "b" "2"]].flatten).finish =
      .ok ⟨[("a", .utf8), ("b", .utf8)],
        [⟨.utf8, [some (.str "1"), none]⟩, ⟨.utf8, [none, some (.str "2")]⟩], 2⟩ := rfl
  refine (parallel_export_iff rfl rfl rfl hok (by decide) (by decide)).mpr ?_
  simp [FieldType.isDecimal, ExecutionPlan.columnType]

/-- A plan that declares `n` as a decimal column. -/
def decimalPlan : ExecutionPlan :=
  { fieldTypes := (∅ : StrMap FieldType).insert "n" (.decimal128 2) }

/-- Two chunks with the decimal column are refused, where one builder exports it. -/
theorem parallel_export_falls :
    ¬ ∀ (plan : ExecutionPlan) (chunks : List (List (List Put))) (batch : RecordBatch),
      plan.autoDict = false → plan.schemaOrder = [] → plan.filter = none →
      ((withPlan plan).feed chunks.flatten).finish = .ok batch → 0 < batch.rowCount →
      batch.schema ≠ [] →
      ∃ batches, enginesToRecordBatches (chunks.map (withPlan plan).feed) plan = .ok batches ∧
        SplitOf batches batch := by
  intro h
  have hok : ((withPlan decimalPlan).feed
      [[fieldRow "n" "1.25"], [fieldRow "n" "2.50"]].flatten).finish = .ok ⟨[("n", .decimal128 38 2)],
        [⟨.decimal128 38 2, [some (.decimal128 125 2), some (.decimal128 250 2)]⟩], 2⟩ := rfl
  obtain ⟨batches, hbatches, -⟩ := h decimalPlan [[fieldRow "n" "1.25"], [fieldRow "n" "2.50"]] _
    rfl rfl rfl hok (by decide) (by decide)
  have herror : enginesToRecordBatches
      ([[fieldRow "n" "1.25"], [fieldRow "n" "2.50"]].map (withPlan decimalPlan).feed)
      decimalPlan = .error (conflictingTypes "n" "decimal128(2)" "decimal128(2)") := rfl
  rw [herror] at hbatches
  cases hbatches

end TableBuilder

end Examples

end Rypipe
