import Rypipe.ArrowExport
import Rypipe.Predicate

/-! # The recheck of an accepted batch

`apply_compare_filter` runs again over an assembled batch what `FilterPredicate::check` has decided row
by row, for trees of `Compare` and `And`. It reads the columns under the names the filter writes, and
compares doubles or texts where the check compares the stored values. When the check has accepted all
rows, it leaves the batch as it is unless one of these differences shows. -/

namespace Rypipe

section Recheck

variable [Platform]

/-! ## Comparisons after a cast -/

/-- The comparison of two values after the cast: as doubles when both are numeric, as texts
otherwise. -/
def castCompare (op : CompareOp) (x y : TypedValue) : Bool :=
  match castFloat64 x, castFloat64 y with
  | some f, some g => applyOp op (some (Platform.totalCmp f g))
  | _, _ => applyOp op (some (compare (castUtf8 x) (castUtf8 y)))

/-- A comparison of two stored values that holds is one after the cast. -/
def SurvivesCast (op : CompareOp) : TypedValue → TypedValue → Prop
  | .str _, .str _ | .bool _, .bool _ => True
  | .int64 x, .int64 y =>
      -- two integers may have the same nearest double
      applyOp op (some .eq) = true ∨ Platform.totalCmp (intAsF64 x) (intAsF64 y) ≠ .eq
  -- two zeros are equal, and the total order tells them apart
  | .float64 f, .float64 g =>
      applyOp op (some .eq) = false ∨ applyOp op (some (Platform.totalCmp f g)) = true
  | .int64 x, .float64 g =>
      applyOp op (some .eq) = false ∨ applyOp op (some (Platform.totalCmp (intAsF64 x) g)) = true
  | .float64 f, .int64 y =>
      applyOp op (some .eq) = false ∨ applyOp op (some (Platform.totalCmp f (intAsF64 y))) = true
  -- decimals, dates and timestamps are compared as texts
  | x, y => applyOp op (some (compare (castUtf8 x) (castUtf8 y))) = true

/-- What IEEE 754 says of the orders of the doubles, and of the conversion of integers. -/
structure DoubleOrders : Prop where
  /-- The nearest doubles of two integers are in their order, or the same. -/
  mono : ∀ x y : Int, Platform.totalCmp (intAsF64 x) (intAsF64 y) = .eq ∨
    Platform.totalCmp (intAsF64 x) (intAsF64 y) = compare x y
  /-- The integers up to `2^53` are doubles. -/
  exact : ∀ x y : Int, x.natAbs ≤ 2 ^ 53 → y.natAbs ≤ 2 ^ 53 →
    Platform.totalCmp (intAsF64 x) (intAsF64 y) = compare x y
  /-- The total order refines the order of the numbers. -/
  total : ∀ (f g : F64) (o : Ordering), Platform.partialCmp f g = some o →
    o = .eq ∨ Platform.totalCmp f g = o

/-- A comparison of doubles under the total order. What holds under the partial order still holds
under the total one, except where that tells apart what the partial one calls equal. -/
theorem DoubleOrders.survives (h : DoubleOrders) {op : CompareOp} {f g : F64}
    (hholds : applyOp op (Platform.partialCmp f g) = true) :
    applyOp op (some (Platform.totalCmp f g)) = true ↔
      applyOp op (some .eq) = false ∨ applyOp op (some (Platform.totalCmp f g)) = true := by
  refine ⟨.inr, fun hor => hor.elim (fun hstrict => ?_) id⟩
  obtain ⟨o, ho⟩ : ∃ o, Platform.partialCmp f g = some o := by
    rw [← Option.ne_none_iff_exists']
    intro hnone
    rw [hnone] at hholds
    exact Bool.noConfusion hholds
  rw [ho] at hholds
  rcases h.total f g o ho with rfl | heq
  · exact absurd (hholds.symm.trans hstrict) (by decide)
  · rwa [heq]

/-- **What the cast changes**: a comparison of stored values that holds still holds after the cast
exactly when it survives. -/
theorem castCompare_iff (hdoubles : DoubleOrders) {op : CompareOp} {x y : TypedValue}
    (h : compareTyped x op y = true) : castCompare op x y = true ↔ SurvivesCast op x y := by
  unfold compareTyped at h
  split at h
  · next x y =>
    show applyOp op (some (Platform.totalCmp (intAsF64 x) (intAsF64 y))) = true ↔
      applyOp op (some .eq) = true ∨ Platform.totalCmp (intAsF64 x) (intAsF64 y) ≠ .eq
    by_cases hsame : Platform.totalCmp (intAsF64 x) (intAsF64 y) = .eq
    · simp [hsame]
    · refine iff_of_true ?_ (.inr hsame)
      rw [(hdoubles.mono x y).resolve_left hsame]
      exact h
  · exact hdoubles.survives h
  · exact hdoubles.survives h
  · exact hdoubles.survives h
  · exact Iff.rfl
  · exact iff_of_true h trivial
  · next x y =>
    refine iff_of_true ?_ trivial
    show applyOp op (some (Platform.totalCmp (intAsF64 (if x then 1 else 0))
      (intAsF64 (if y then 1 else 0)))) = true
    have hcompare : compare (if x then 1 else 0 : Int) (if y then 1 else 0) = compare x y := by
      cases x <;> cases y <;> rfl
    rw [hdoubles.exact _ _ (by split <;> decide) (by split <;> decide), hcompare]
    exact h
  · exact Iff.rfl
  · exact Iff.rfl
  · exact Bool.noConfusion h

/-! ## The mask -/

/-- The comparisons of a tree of `Compare` and `And`: the two fields as the filter writes them, and the
operator. -/
def comparisons : FilterPredicate → List (String × CompareOp × String)
  | .compare a op b => [(a, op, b)]
  | .and a b => comparisons a ++ comparisons b
  | _ => []

/-- A value of an Arrow type. -/
def TypedValue.HasType : TypedValue → DataType → Prop
  | .str _, .utf8 | .str _, .dictionary | .int64 _, .int64 | .float64 _, .float64
  | .bool _, .boolean | .date32 _, .date32 | .decimal128 _ _, .decimal128 _ _ => True
  | .timestamp _ unit, .timestamp unit' => unit = unit'
  | _, _ => False

/-- Exactly the values of numeric columns are cast to doubles. -/
theorem TypedValue.HasType.isSome_castFloat64 {x : TypedValue} {datatype : DataType}
    (h : x.HasType datatype) : (castFloat64 x).isSome = datatype.isNumeric := by
  unfold HasType at h
  split at h
  all_goals first | rfl | exact h.elim

namespace RecordBatch

/-- The cell of a batch under a name, on a row. -/
def cell (batch : RecordBatch) (n : String) (i : Nat) : Option TypedValue :=
  (batch.columnByName n).bind fun a => at? a.values i

/-- A batch as Arrow makes it: every column has a value of its type, or null, for every row. -/
structure Typed (batch : RecordBatch) : Prop where
  length : ∀ a ∈ batch.columns, a.values.length = batch.rowCount
  values : ∀ a ∈ batch.columns, ∀ x, some x ∈ a.values → x.HasType a.datatype

variable {batch : RecordBatch}

theorem mem_of_columnByName {n : String} {a : ArrayRef} (h : batch.columnByName n = some a) :
    a ∈ batch.columns := by
  obtain ⟨i, -, hi⟩ := Option.bind_eq_some_iff.mp h
  exact List.mem_of_getElem? hi

/-- A row of a column. There is one for each row of the batch, and its value has the type of the
column, so the cast to a double succeeds as the type says. -/
theorem Typed.getElem? (h : batch.Typed) {a : ArrayRef} (ha : a ∈ batch.columns) {i : Nat}
    (hi : i < batch.rowCount) :
    a.values[i]? = some (at? a.values i) ∧
      ∀ x, at? a.values i = some x → (castFloat64 x).isSome = a.datatype.isNumeric := by
  have hlt : i < a.values.length := by rwa [h.length a ha]
  have hget : a.values[i]? = some (at? a.values i) := by
    rw [at?, List.getElem?_eq_getElem hlt]
    rfl
  refine ⟨hget, fun x hx => ?_⟩
  rw [hx] at hget
  exact (h.values a ha x (List.mem_of_getElem? hget)).isSome_castFloat64

/-- The kernels compare two columns row by row. Where one of the types is numeric both are cast to
doubles, and otherwise to texts; a row with a null on either side is null in the mask. -/
theorem Typed.compareColumns (h : batch.Typed) {a b : ArrayRef} (ha : a ∈ batch.columns)
    (hb : b ∈ batch.columns) (op : CompareOp) :
    (compareColumns a b op).length = batch.rowCount ∧ ∀ i < batch.rowCount,
      (compareColumns a b op)[i]? = some ((at? a.values i).bind fun x =>
        (at? b.values i).map fun y => castCompare op x y) := by
  constructor
  · unfold Rypipe.compareColumns
    split <;> rw [List.length_zipWith, h.length a ha, h.length b hb, Nat.min_self]
  intro i hi
  obtain ⟨hget, htype⟩ := h.getElem? ha hi
  obtain ⟨hget', htype'⟩ := h.getElem? hb hi
  generalize at? a.values i = u at hget htype ⊢
  generalize at? b.values i = v at hget' htype' ⊢
  unfold Rypipe.compareColumns
  split
  · next hnumeric =>
    obtain ⟨hnum, hnum'⟩ := Bool.and_eq_true_iff.mp hnumeric
    simp only [List.getElem?_zipWith, hget, hget']
    apply congrArg some
    rcases u with _ | x
    · rfl
    rcases v with _ | y
    · show compareFloats op (castFloat64 x) none = none
      rcases castFloat64 x with _ | f
      · rfl
      · rfl
    -- both are cast to doubles
    obtain ⟨f, hf⟩ := Option.isSome_iff_exists.mp ((htype x rfl).trans hnum)
    obtain ⟨g, hg⟩ := Option.isSome_iff_exists.mp ((htype' y rfl).trans hnum')
    simp only [Option.bind_some, Option.map_some, hf, hg, compareFloats, castCompare]
  · next hnumeric =>
    simp only [List.getElem?_zipWith, hget, hget']
    apply congrArg some
    rcases u with _ | x
    · rfl
    rcases v with _ | y
    · rfl
    -- one of them is not a number
    simp only [Option.bind_some, Option.map_some, compareTexts, castCompare]
    split
    · next f g hf hg =>
      refine absurd ?_ hnumeric
      rw [← htype x rfl, ← htype' y rfl, hf, hg]
      rfl
    · rfl

/-- The comparison of two columns, on a row. -/
def rowCompare (batch : RecordBatch) (i : Nat) (c : String × CompareOp × String) : Option Bool :=
  (batch.cell c.1 i).bind fun x => (batch.cell c.2.2 i).map fun y => castCompare c.2.1 x y

/-- The fields of a comparison are columns of the batch, as the filter writes them. -/
def HasFields (batch : RecordBatch) (c : String × CompareOp × String) : Prop :=
  (batch.columnByName c.1).isSome ∧ (batch.columnByName c.2.2).isSome

/-- The mask that is made when all fields are columns, and how it decides a row. By induction on the
tree of comparisons: a conjunction of masks is true where both are, and null or false elsewhere. -/
theorem Typed.compareMask (h : batch.Typed) {p : FilterPredicate} (hpure : isPureCompareTree p = true)
    (hfields : ∀ c ∈ comparisons p, batch.HasFields c) :
    ∃ mask, compareMask batch p = .ok (some mask) ∧ mask.length = batch.rowCount ∧
      ∀ i < batch.rowCount, mask[i]? = some (some true) ↔
        ∀ c ∈ comparisons p, batch.rowCompare i c = some true := by
  induction p with
  | compare a op b =>
      obtain ⟨hfield, hfield'⟩ := hfields _ List.mem_cons_self
      obtain ⟨u, hu⟩ := Option.isSome_iff_exists.mp hfield
      obtain ⟨v, hv⟩ := Option.isSome_iff_exists.mp hfield'
      obtain ⟨hlength, hrow⟩ := h.compareColumns (mem_of_columnByName hu) (mem_of_columnByName hv) op
      refine ⟨_, ?_, hlength, fun i hi => ?_⟩
      · unfold Rypipe.compareMask
        simp only [hu, hv]
      · rw [hrow i hi, comparisons, List.forall_mem_singleton, rowCompare, cell, cell, hu, hv]
        exact Option.some_inj
  | and p q ihp ihq =>
      unfold isPureCompareTree at hpure
      obtain ⟨hp, hq⟩ := Bool.and_eq_true_iff.mp hpure
      obtain ⟨mask, hmask, hlength, hrow⟩ := ihp hp fun c hc =>
        hfields c (List.mem_append_left _ hc)
      obtain ⟨mask', hmask', hlength', hrow'⟩ := ihq hq fun c hc =>
        hfields c (List.mem_append_right _ hc)
      refine ⟨andKernel mask mask', ?_, ?_, fun i hi => ?_⟩
      · unfold Rypipe.compareMask
        simp only [hmask, hmask']
        rfl
      · rw [andKernel, List.length_zipWith, hlength, hlength', Nat.min_self]
      · rw [comparisons, List.forall_mem_append, ← hrow i hi, ← hrow' i hi, andKernel,
          List.getElem?_zipWith]
        have hlt : i < mask.length := by rwa [hlength]
        have hlt' : i < mask'.length := by rwa [hlength']
        rw [List.getElem?_eq_getElem hlt, List.getElem?_eq_getElem hlt']
        -- null and false are not true
        rcases mask[i] with _ | _ | _
        · simp
        · rcases mask'[i] with _ | _ | _ <;> simp
        · rcases mask'[i] with _ | _ | _ <;> simp
  | _ => exact absurd hpure Bool.false_ne_true

/-- No mask is made without the columns. The mask of a comparison of an unknown column is an error,
and an error anywhere in the tree is that of the tree. -/
theorem hasFields_of_compareMask {p : FilterPredicate} (hpure : isPureCompareTree p = true)
    {mask : Option (List (Option Bool))} (hok : Rypipe.compareMask batch p = .ok mask) :
    ∀ c ∈ comparisons p, batch.HasFields c := by
  induction p generalizing mask with
  | compare a op b =>
      unfold Rypipe.compareMask at hok
      intro c hc
      obtain rfl := List.mem_singleton.mp hc
      rcases hu : batch.columnByName a with _ | u
      · simp [hu] at hok
      rcases hv : batch.columnByName b with _ | v
      · simp [hu, hv] at hok
      · exact ⟨by rw [hu]; rfl, by rw [hv]; rfl⟩
  | and p q ihp ihq =>
      unfold isPureCompareTree at hpure
      obtain ⟨hp, hq⟩ := Bool.and_eq_true_iff.mp hpure
      unfold Rypipe.compareMask at hok
      rcases hmask : Rypipe.compareMask batch p with err | mask
      · simp [hmask, bind, Except.bind] at hok
      rcases hmask' : Rypipe.compareMask batch q with err | mask'
      · simp [hmask, hmask', bind, Except.bind] at hok
      exact List.forall_mem_append.mpr ⟨ihp hp hmask, ihq hq hmask'⟩
  | _ => exact absurd hpure Bool.false_ne_true

omit [Platform] in
/-- A mask that is true everywhere keeps the rows of a list. -/
theorem filterRows_of_true {α : Type} {mask : List (Option Bool)} {rows : List α}
    (hlength : rows.length = mask.length) (htrue : ∀ v ∈ mask, v = some true) :
    filterRows mask rows = rows := by
  rw [filterRows, List.filter_eq_self.mpr, List.map_fst_zip (Nat.le_of_eq hlength)]
  intro p hp
  rw [htrue p.2 (List.of_mem_zip hp).2]
  rfl

/-- A batch is left as it is by the masks that are true everywhere. -/
theorem Typed.filterRecordBatch_eq (h : batch.Typed) {mask : List (Option Bool)}
    (hlength : mask.length = batch.rowCount) :
    filterRecordBatch batch mask = batch ↔ ∀ v ∈ mask, v = some true := by
  constructor
  · intro hsame v hv
    have hcount : (mask.filter (· == some true)).length = mask.length :=
      (congrArg RecordBatch.rowCount hsame).trans hlength.symm
    exact eq_of_beq (List.length_filter_eq_length_iff.mp hcount v hv)
  · intro htrue
    have hcolumns : (batch.columns.map fun a => { a with values := filterRows mask a.values }) =
        batch.columns := by
      refine (List.map_congr_left fun a ha => ?_).trans (List.map_id _)
      rw [filterRows_of_true ((h.length a ha).trans hlength.symm) htrue]
      rfl
    have hcount : (mask.filter (· == some true)).length = batch.rowCount := by
      rw [List.filter_eq_self.mpr fun v hv => by rw [htrue v hv]; rfl, hlength]
    rw [filterRecordBatch, hcolumns, hcount]

/-- **The recheck keeps a batch** exactly when the fields of the filter are columns of it, and every
comparison holds on every row after the cast. -/
theorem Typed.applyCompareFilter_eq (h : batch.Typed) {p : FilterPredicate}
    (hpure : isPureCompareTree p = true) :
    applyCompareFilter batch p = .ok batch ↔
      ∀ c ∈ comparisons p, batch.HasFields c ∧
        ∀ i < batch.rowCount, batch.rowCompare i c = some true := by
  rw [applyCompareFilter, hpure]
  constructor
  · intro hok
    rcases hmask : Rypipe.compareMask batch p with err | mask
    · simp [hmask, bind, Except.bind] at hok
    have hfields := hasFields_of_compareMask hpure hmask
    obtain ⟨mask', hmask', hlength, hrow⟩ := h.compareMask hpure hfields
    obtain rfl := Except.ok.inj (hmask.symm.trans hmask')
    simp only [hmask, bind, Except.bind] at hok
    have htrue := (h.filterRecordBatch_eq hlength).mp (Except.ok.inj hok)
    refine fun c hc => ⟨hfields c hc, fun i hi => ?_⟩
    have hlt : i < mask'.length := by rwa [hlength]
    refine (hrow i hi).mp ?_ c hc
    rw [List.getElem?_eq_getElem hlt, htrue _ (List.getElem_mem hlt)]
  · intro hall
    obtain ⟨mask, hmask, hlength, hrow⟩ := h.compareMask hpure fun c hc => (hall c hc).1
    have htrue : ∀ v ∈ mask, v = some true := by
      intro v hv
      obtain ⟨i, hi, rfl⟩ := List.mem_iff_getElem.mp hv
      have hrow' := (hrow i (hlength ▸ hi)).mpr fun c hc => (hall c hc).2 i (hlength ▸ hi)
      rw [List.getElem?_eq_getElem hi] at hrow'
      exact Option.some.inj hrow'
    simp only [hmask, bind, Except.bind]
    exact congrArg Except.ok ((h.filterRecordBatch_eq hlength).mpr htrue)

end RecordBatch

/-! ## Accepted rows -/

/-- A tree of `Compare` and `And` passes exactly when its comparisons do, on the columns the plan gives
the fields. -/
theorem FilterPredicate.check_iff {columns : List ColumnBuilder} {fieldIndex : StrMap Nat} {row : Nat}
    {plan : ExecutionPlan} {p : FilterPredicate} (hpure : isPureCompareTree p = true) :
    p.check columns fieldIndex row plan = true ↔ ∀ c ∈ comparisons p, ∃ x y,
      getTyped columns fieldIndex row plan c.1 = some x ∧
        getTyped columns fieldIndex row plan c.2.2 = some y ∧ compareTyped x c.2.1 y = true := by
  induction p with
  | compare a op b =>
      rw [check, comparisons, List.forall_mem_singleton]
      generalize getTyped columns fieldIndex row plan a = u
      generalize getTyped columns fieldIndex row plan b = v
      rcases u with _ | x
      · simp
      rcases v with _ | y
      · simp
      · simp
  | and p q ihp ihq =>
      unfold isPureCompareTree at hpure
      obtain ⟨hp, hq⟩ := Bool.and_eq_true_iff.mp hpure
      rw [check_and, Bool.and_eq_true, ihp hp, ihq hq, comparisons, List.forall_mem_append]
  | _ => exact absurd hpure Bool.false_ne_true

/-- A row of the batch was accepted: `check` passes on a row of some columns, and the batch has its
cells from there. -/
def AcceptedRow (plan : ExecutionPlan) (p : FilterPredicate) (batch : RecordBatch) (i : Nat) : Prop :=
  ∃ (columns : List ColumnBuilder) (fieldIndex : StrMap Nat) (row : Nat),
    p.check columns fieldIndex row plan = true ∧ ∀ n, (batch.columnByName n).isSome →
      batch.cell n i =
        (FilterPredicate.getColumn columns fieldIndex n).bind (·.getTypedValue row)

/-- A batch as Arrow makes it, all of whose rows were accepted. -/
structure RecordBatch.Accepted (plan : ExecutionPlan) (p : FilterPredicate) (batch : RecordBatch) :
    Prop where
  typed : batch.Typed
  rows : ∀ i < batch.rowCount, AcceptedRow plan p batch i

/-- The recheck of a comparison keeps a row whose check it has passed. -/
def KeepsRow (plan : ExecutionPlan) (batch : RecordBatch) (i : Nat)
    (c : String × CompareOp × String) : Prop :=
  if plan.rename c.1 = c.1 ∧ plan.rename c.2.2 = c.2.2 then
    -- the recheck reads the values of the check
    ∀ x y, batch.cell c.1 i = some x → batch.cell c.2.2 i = some y → SurvivesCast c.2.1 x y
  else
    -- other columns have the names that the filter writes
    ∃ x y, batch.cell c.1 i = some x ∧ batch.cell c.2.2 i = some y ∧ castCompare c.2.1 x y = true

/-- A comparison of an accepted row after the cast. The builder compared the stored values and the
mask compares the cast ones, so the two differ only where the cast does. -/
theorem AcceptedRow.rowCompare_iff (hdoubles : DoubleOrders) {plan : ExecutionPlan}
    {p : FilterPredicate} (hpure : isPureCompareTree p = true) {batch : RecordBatch} {i : Nat}
    (h : AcceptedRow plan p batch i) {c : String × CompareOp × String} (hc : c ∈ comparisons p)
    (hfields : batch.HasFields c) :
    batch.rowCompare i c = some true ↔ KeepsRow plan batch i c := by
  have hvalues : batch.rowCompare i c = some true ↔
      ∃ x y, batch.cell c.1 i = some x ∧ batch.cell c.2.2 i = some y ∧
        castCompare c.2.1 x y = true := by
    simp [RecordBatch.rowCompare, Option.bind_eq_some_iff, Option.map_eq_some_iff]
  unfold KeepsRow
  split
  · next hplain =>
    obtain ⟨columns, fieldIndex, row, hcheck, hcells⟩ := h
    obtain ⟨x, y, hx, hy, hxy⟩ := (FilterPredicate.check_iff hpure).mp hcheck c hc
    rw [FilterPredicate.getTyped, hplain.1, ← hcells c.1 hfields.1] at hx
    rw [FilterPredicate.getTyped, hplain.2, ← hcells c.2.2 hfields.2] at hy
    have hcast := castCompare_iff hdoubles hxy
    rw [hvalues, hx, hy]
    simp only [Option.some.injEq]
    constructor
    · rintro ⟨_, _, rfl, rfl, htrue⟩ _ _ rfl rfl
      exact hcast.mp htrue
    · intro hsurvives
      exact ⟨x, y, rfl, rfl, hcast.mpr (hsurvives x y rfl rfl)⟩
  · exact hvalues

/-- **The recheck of an accepted batch.** The vectorised filter returns a batch whose rows the check has
accepted exactly when the fields of the filter are columns of the batch as they are written, and on
every row every comparison survives the cast. -/
theorem recheck_iff (hdoubles : DoubleOrders) {plan : ExecutionPlan} {p : FilterPredicate}
    (hpure : isPureCompareTree p = true) {batch : RecordBatch} (h : batch.Accepted plan p) :
    applyCompareFilter batch p = .ok batch ↔
      ∀ c ∈ comparisons p, batch.HasFields c ∧ ∀ i < batch.rowCount, KeepsRow plan batch i c := by
  rw [h.typed.applyCompareFilter_eq hpure]
  refine forall₂_congr fun c hc => and_congr_right fun hfields => forall₂_congr fun i hi => ?_
  exact (h.rows i hi).rowCompare_iff hdoubles hpure hc hfields

end Recheck

section Examples

attribute [local instance] integerPlatform

/-- Two columns with one row. -/
def pairBatch (a b : String) (datatype : DataType) (x y : TypedValue) : RecordBatch :=
  ⟨[(a, datatype), (b, datatype)], [⟨datatype, [some x]⟩, ⟨datatype, [some y]⟩], 1⟩

/-- The cells of the two columns are those of two builders. If the check passes on these, the batch
of the two cells is one whose rows were all accepted. -/
theorem accepted_pairBatch {plan : ExecutionPlan} {p : FilterPredicate} {a b : String}
    {datatype : DataType} {x y : TypedValue} (hx : x.HasType datatype) (hy : y.HasType datatype)
    {c d : ColumnBuilder} (hc : c.getTypedValue 0 = some x) (hd : d.getTypedValue 0 = some y)
    (hne : a ≠ b)
    (hcheck : p.check [c, d] (((∅ : StrMap Nat).insert a 0).insert b 1) 0 plan = true) :
    (pairBatch a b datatype x y).Accepted plan p := by
  refine ⟨⟨fun v hv => ?_, fun v hv z hz => ?_⟩, fun i hi => ?_⟩
  · simp only [pairBatch, List.mem_cons, List.not_mem_nil, or_false] at hv
    rcases hv with rfl | rfl
    · rfl
    · rfl
  · simp only [pairBatch, List.mem_cons, List.not_mem_nil, or_false] at hv
    rcases hv with rfl | rfl
    · obtain rfl := Option.some.inj (List.mem_singleton.mp hz)
      exact hx
    · obtain rfl := Option.some.inj (List.mem_singleton.mp hz)
      exact hy
  · obtain rfl : i = 0 := Nat.lt_one_iff.mp hi
    refine ⟨_, _, 0, hcheck, fun n hn => ?_⟩
    -- the batch has the two columns, and each lookup finds its own
    by_cases ha : n = a
    · subst ha
      have hcell : (pairBatch n b datatype x y).cell n 0 = some x := by
        simp [pairBatch, RecordBatch.cell, RecordBatch.columnByName, at?, List.findIdx?_cons]
      rw [hcell, FilterPredicate.getColumn, AList.lookup_insert_ne hne, AList.lookup_insert]
      exact hc.symm
    by_cases hb : n = b
    · subst hb
      have hcell : (pairBatch a n datatype x y).cell n 0 = some y := by
        simp [pairBatch, RecordBatch.cell, RecordBatch.columnByName, at?, hne, List.findIdx?_cons]
      rw [hcell, FilterPredicate.getColumn, AList.lookup_insert]
      exact hd.symm
    · simp [pairBatch, RecordBatch.columnByName, Ne.symm ha, Ne.symm hb, List.findIdx?_cons] at hn

theorem doubleOrders_integer : DoubleOrders where
  mono _ _ := .inr rfl
  exact _ _ _ _ := rfl
  total _ _ _ h := .inr (Option.some.inj h)

/-- Two integers in order stay so. Both are exact as doubles, so that the recheck keeps the row. -/
theorem recheck_of_integers :
    applyCompareFilter (pairBatch "a" "b" .int64 (.int64 2) (.int64 1)) (.compare "a" .gt "b") =
      .ok (pairBatch "a" "b" .int64 (.int64 2) (.int64 1)) := by
  have haccepted : (pairBatch "a" "b" .int64 (.int64 2) (.int64 1)).Accepted {}
      (.compare "a" .gt "b") :=
    @accepted_pairBatch {} (.compare "a" .gt "b") "a" "b" .int64 (.int64 2) (.int64 1) trivial trivial
      (.int64 [some 2]) (.int64 [some 1]) rfl rfl (by decide) rfl
  refine (recheck_iff doubleOrders_integer rfl haccepted).mpr fun c hc => ?_
  obtain rfl := List.mem_singleton.mp hc
  refine ⟨⟨rfl, rfl⟩, fun i hi => ?_⟩
  obtain rfl : i = 0 := Nat.lt_one_iff.mp hi
  rw [KeepsRow, if_pos ⟨rfl, rfl⟩]
  intro x y hx hy
  obtain rfl := Option.some.inj hx
  obtain rfl := Option.some.inj hy
  exact .inr (by decide)

/-- A plan that renames a field of the filter. -/
def renamingPlan : ExecutionPlan := { fieldMap := (∅ : StrMap String).insert "a" "x" }

/-- The recheck does not find a field that the plan has renamed. -/
theorem recheck_falls :
    ¬ ∀ (plan : ExecutionPlan) (p : FilterPredicate) (batch : RecordBatch),
      isPureCompareTree p = true → batch.Accepted plan p → applyCompareFilter batch p = .ok batch := by
  intro h
  have hkept := h renamingPlan (.compare "a" .eq "b")
    (pairBatch "x" "b" .utf8 (.str "1") (.str "1")) rfl
    (@accepted_pairBatch renamingPlan (.compare "a" .eq "b") "x" "b" .utf8 (.str "1") (.str "1")
      trivial trivial (.string [some "1"]) (.string [some "1"]) rfl rfl (by decide) rfl)
  cases hkept

end Examples

end Rypipe
