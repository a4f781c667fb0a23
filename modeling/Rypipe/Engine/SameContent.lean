import Rypipe.Engine.Export

/-! # What an export reads of the columns

Two columns are alike when they read the same: the same column, or dictionaries with the same cells
under other codes. Filters and exports do not tell alike columns apart. -/

namespace Rypipe

variable [Platform]

namespace ColumnBuilder

/-- The columns read the same. -/
inductive Alike : ColumnBuilder → ColumnBuilder → Prop
  | refl (c : ColumnBuilder) : Alike c c
  | dictionary {codes codes' : List (Option Nat)} {dict dict' : Interner String}
      (hcells : dict.decodeAll codes = dict'.decodeAll codes') (hcovers : dict.Covers codes)
      (hcovers' : dict'.Covers codes') :
      Alike (.dictionary codes dict) (.dictionary codes' dict')

/-- Columns of one type with the same cells are alike. Two columns of one type are of one variant,
and only for dictionaries do the cells leave something open. -/
theorem Stores.alike {c c' : ColumnBuilder} {ty : FieldType} {cells : List (Option TypedValue)}
    (h : c.Stores ty cells) (h' : c'.Stores ty cells) : c.Alike c' := by
  obtain ⟨hvalid, hkind, hcells⟩ := h
  obtain ⟨hvalid', hkind', hcells'⟩ := h'
  replace hkind := hkind.trans hkind'.symm
  replace hcells := hcells.trans hcells'.symm
  have hinj : ∀ {α : Type} {f : α → TypedValue} {v v' : List (Option α)}, Function.Injective f →
      v.map (·.map f) = v'.map (·.map f) → v = v' := fun hf heq =>
    (List.map_injective_iff.mpr (Option.map_injective hf)) heq
  -- two columns of one type are of the same variant
  cases c <;> cases c' <;> cases hkind
  · rw [hinj (fun _ _ h => TypedValue.str.inj h) hcells]
    exact .refl _
  · rw [hinj (fun _ _ h => TypedValue.int64.inj h) hcells]
    exact .refl _
  · rw [hinj (fun _ _ h => TypedValue.float64.inj h) hcells]
    exact .refl _
  · rw [hinj (fun _ _ h => TypedValue.bool.inj h) hcells]
    exact .refl _
  · rw [hinj (fun _ _ h => TypedValue.date32.inj h) hcells]
    exact .refl _
  · rw [hinj (fun _ _ h => (TypedValue.timestamp.inj h).1) hcells]
    exact .refl _
  · rw [hinj (fun _ _ h => (TypedValue.decimal128.inj h).1) hcells]
    exact .refl _
  · exact .dictionary (hinj (fun _ _ h => TypedValue.str.inj h) hcells) hvalid.2 hvalid'.2

section Alike

variable {c c' : ColumnBuilder}

/-- Alike columns have one type. -/
theorem Alike.kind (h : c.Alike c') : c'.kind = c.kind := by
  cases h <;> rfl

/-- Alike columns have the same cells, though their dictionaries may differ. -/
theorem Alike.cells (h : c.Alike c') : c'.cells = c.cells := by
  cases h with
  | refl => rfl
  | dictionary hcells => exact congrArg (List.map _) hcells.symm

omit [Platform] in
/-- A code in range is present exactly when its cell is, so a test for a value may read the
codes. -/
theorem isSome_at?_decodeAll {codes : List (Option Nat)} {dict : Interner String}
    (h : dict.Covers codes) (i : Nat) : (at? codes i).isSome = (at? (dict.decodeAll codes) i).isSome := by
  rw [at?, at?, Interner.decodeAll, List.getElem?_map]
  cases hcode : codes[i]? with
  | none => rfl
  | some code =>
      cases code with
      | none => rfl
      | some k =>
          have hk := h k (List.mem_of_getElem? hcode)
          simp [hk]

/-- The type test of a dictionary column reads whether there is a cell. -/
theorem isTypeAt_dictionary {codes codes' : List (Option Nat)} {dict dict' : Interner String}
    (h : dict.Covers codes) (h' : dict'.Covers codes') {i j : Nat}
    (hcell : at? (dict'.decodeAll codes') j = at? (dict.decodeAll codes) i) (ft : FieldType) :
    (dictionary codes' dict').isTypeAt j ft = (dictionary codes dict).isTypeAt i ft := by
  have hsame : (at? codes' j).isSome = (at? codes i).isSome := by
    rw [isSome_at?_decodeAll h, isSome_at?_decodeAll h', hcell]
  have hany : ∀ (o o' : Option Nat) (b : Bool), o'.isSome = o.isSome →
      (o'.any fun _ => b) = o.any fun _ => b := by
    rintro (_ | _) (_ | _) b h
    · rfl
    · cases h
    · cases h
    · rfl
  exact hany _ _ _ hsame

/-- The type test reads the cells. -/
theorem Alike.isTypeAt (h : c.Alike c') (i : Nat) (ft : FieldType) :
    c'.isTypeAt i ft = c.isTypeAt i ft := by
  cases h with
  | refl => rfl
  | dictionary hcells hcovers hcovers' =>
      exact isTypeAt_dictionary hcovers hcovers' (congrArg (at? · i) hcells.symm) ft

/-- The upgrade of alike columns. -/
theorem Alike.tryUpgradeToDict (h : c.Alike c') (minRows : Nat) (maxRatio : F64) (maxSize : Nat) :
    (c.tryUpgradeToDict minRows maxRatio maxSize).Alike
      (c'.tryUpgradeToDict minRows maxRatio maxSize) := by
  cases h with
  | refl => exact .refl _
  | dictionary hcells hcovers hcovers' => exact .dictionary hcells hcovers hcovers'

/-- Alike columns export the same array, and what is left of them is alike. -/
theorem Alike.toArrowArray (h : c.Alike c') :
    (∃ err, c.toArrowArray = .error err ∧ c'.toArrowArray = .error err) ∨
      ∃ array left left', c.toArrowArray = .ok (array, left) ∧
        c'.toArrowArray = .ok (array, left') ∧ left.Alike left' := by
  cases h with
  | refl =>
      cases hc : c.toArrowArray with
      | error err => exact Or.inl ⟨err, rfl, rfl⟩
      | ok out => exact Or.inr ⟨out.1, out.2, out.2, rfl, rfl, .refl _⟩
  | @dictionary codes codes' dict dict' hcells hcovers hcovers' =>
      have hempty : ∀ dict : Interner String, dict.Covers [] := fun dict k hk => by cases hk
      have hcells' := (Alike.dictionary hcells hcovers hcovers').cells
      refine Or.inr ⟨_, _, .dictionary [] ⟨[], dict'.index⟩, toArrowArray_dictionary hcovers, ?_,
        .dictionary rfl (hempty _) (hempty _)⟩
      rw [toArrowArray_dictionary hcovers', hcells']
      rfl

end Alike

end ColumnBuilder

/-- The columns read the same, one by one. -/
abbrev AlikeColumns : List ColumnBuilder → List ColumnBuilder → Prop :=
  List.Forall₂ ColumnBuilder.Alike

section Columns

variable {columns columns' : List ColumnBuilder}

/-- Every column is alike to itself. -/
theorem alikeColumns_refl (columns : List ColumnBuilder) : AlikeColumns columns columns :=
  List.forall₂_same.mpr fun c _ => .refl c

/-- The columns of one slot. -/
theorem AlikeColumns.getElem? (h : AlikeColumns columns columns') (i : Nat) :
    (columns[i]? = none ∧ columns'[i]? = none) ∨
      ∃ c c', columns[i]? = some c ∧ columns'[i]? = some c' ∧ c.Alike c' := by
  induction h generalizing i with
  | nil => exact Or.inl ⟨rfl, rfl⟩
  | cons hc _ ih =>
      cases i with
      | zero => exact Or.inr ⟨_, _, rfl, rfl, hc⟩
      | succ i => exact ih i

/-- An operation that keeps columns alike does so for a list of them. -/
theorem AlikeColumns.map (h : AlikeColumns columns columns') {f : ColumnBuilder → ColumnBuilder}
    (hf : ∀ c c', c.Alike c' → (f c).Alike (f c')) :
    AlikeColumns (columns.map f) (columns'.map f) := by
  refine List.forall₂_map_left_iff.mpr (List.forall₂_map_right_iff.mpr ?_)
  exact h.imp hf

/-- The columns store the table, one by one. -/
def StoreTable (columns : List ColumnBuilder) (t : Table) : Prop :=
  columns.length = t.cols.length ∧ ∀ (i : Nat) (p : String × FieldType), t.cols[i]? = some p →
    ∃ c, columns[i]? = some c ∧ ColumnBuilder.Stores c p.2 (t.column store p.1 p.2)

/-- Between rows the columns store the table. -/
theorem Layout.storeTable {index : StrMap Nat} {dirty : WordSet 64} {t : Table}
    (h : Layout columns index dirty t noRow) : StoreTable columns t := by
  refine ⟨h.size, fun i p hp => ?_⟩
  obtain ⟨c, hc, hst⟩ := h.stored i p hp
  rw [pending_noRow, List.append_nil] at hst
  exact ⟨c, hc, hst⟩

/-- Columns that store the same table are alike, one by one: each pair has one type and the same
cells, whatever the two dictionaries look like. -/
theorem StoreTable.alike {t : Table} (h : StoreTable columns t) (h' : StoreTable columns' t) :
    AlikeColumns columns columns' := by
  obtain ⟨hsize, hstored⟩ := h
  obtain ⟨hsize', hstored'⟩ := h'
  refine List.forall₂_iff_get.mpr ⟨hsize.trans hsize'.symm, fun i hi hi' => ?_⟩
  obtain ⟨p, hp⟩ : ∃ p, t.cols[i]? = some p := ⟨_, List.getElem?_eq_getElem (hsize ▸ hi)⟩
  obtain ⟨c, hc, hst⟩ := hstored i p hp
  obtain ⟨c', hc', hst'⟩ := hstored' i p hp
  rw [List.getElem?_eq_getElem hi] at hc
  rw [List.getElem?_eq_getElem hi'] at hc'
  rw [List.get_eq_getElem, List.get_eq_getElem, Option.some.inj hc, Option.some.inj hc']
  exact hst.alike hst'

/-! ## Filters -/

/-- **A filter does not tell alike columns apart.** By induction on the filter; its leaves read
cells, which alike columns have in common, and never the codes of a dictionary. -/
theorem check_congr (h : AlikeColumns columns columns') (index : StrMap Nat) (row : Nat)
    (plan : ExecutionPlan) (f : FilterPredicate) :
    f.check columns' index row plan = f.check columns index row plan := by
  -- a field finds no column in either list, or two alike ones
  have hcolumn : ∀ name,
      (FilterPredicate.getColumn columns index name = none ∧
        FilterPredicate.getColumn columns' index name = none) ∨
      ∃ c c', FilterPredicate.getColumn columns index name = some c ∧
        FilterPredicate.getColumn columns' index name = some c' ∧ c.Alike c' := by
    intro name
    rw [FilterPredicate.getColumn, FilterPredicate.getColumn]
    cases index.lookup name with
    | none => exact Or.inl ⟨rfl, rfl⟩
    | some i => exact h.getElem? i
  -- alike columns have the same cells, so every lookup of `check` is the same
  have htyped : FilterPredicate.getTyped columns' index row plan =
      FilterPredicate.getTyped columns index row plan := by
    funext field
    rw [FilterPredicate.getTyped, FilterPredicate.getTyped]
    rcases hcolumn (plan.rename field) with ⟨hc, hc'⟩ | ⟨c, c', hc, hc', halike⟩
    · rw [hc, hc']
    · rw [hc, hc', Option.bind_some, Option.bind_some, ColumnBuilder.getTypedValue, halike.cells]
      rfl
  have hvalue : FilterPredicate.getValue columns' index row plan =
      FilterPredicate.getValue columns index row plan := by
    funext field
    rw [FilterPredicate.getValue, FilterPredicate.getValue]
    rcases hcolumn (plan.rename field) with ⟨hc, hc'⟩ | ⟨c, c', hc, hc', halike⟩
    · rw [hc, hc']
    · rw [hc, hc', Option.bind_some, Option.bind_some, ColumnBuilder.getFilterValue,
        ColumnBuilder.getTypedValue, halike.cells]
      rfl
  have htype : ∀ field ft,
      ((FilterPredicate.getColumn columns' index (plan.rename field)).any fun c =>
        c.isTypeAt row ft) =
      (FilterPredicate.getColumn columns index (plan.rename field)).any fun c =>
        c.isTypeAt row ft := by
    intro field ft
    rcases hcolumn (plan.rename field) with ⟨hc, hc'⟩ | ⟨c, c', hc, hc', halike⟩
    · rw [hc, hc']
    · rw [hc, hc', Option.any_some, Option.any_some, halike.isTypeAt]
  induction f with
  | isType field ft => exact htype field ft
  | and a b iha ihb => rw [FilterPredicate.check_and, FilterPredicate.check_and, iha, ihb]
  | or a b iha ihb => rw [FilterPredicate.check_or, FilterPredicate.check_or, iha, ihb]
  | not inner ih => rw [FilterPredicate.check, FilterPredicate.check, ih]
  | _ => simp only [FilterPredicate.check, htyped, hvalue]

/-! ## Exports -/

/-- Exporting slots whose columns are alike gives the same fields, and arrays with the same values.
Only the dictionaries of the arrays may differ, in values that no row uses. -/
theorem exportSlots_of_alike {slots : List (String × Nat)}
    (h : ∀ s ∈ slots, Option.Rel ColumnBuilder.Alike columns[s.2]? columns'[s.2]?) :
    TableBuilder.exportSlots columns' slots = TableBuilder.exportSlots columns slots := by
  induction slots generalizing columns columns' with
  | nil => rfl
  | cons slot slots ih =>
      have hslot := h slot List.mem_cons_self
      have hslots : ∀ s ∈ slots, Option.Rel ColumnBuilder.Alike columns[s.2]? columns'[s.2]? :=
        fun s hs => h s (List.mem_cons_of_mem _ hs)
      rw [TableBuilder.exportSlots, TableBuilder.exportSlots]
      cases hc : columns[slot.2]? with
      | none =>
          rw [hc] at hslot
          cases hc' : columns'[slot.2]? with
          | none => exact ih hslots
          | some c' =>
              rw [hc'] at hslot
              cases hslot
      | some c =>
          rw [hc] at hslot
          cases hc' : columns'[slot.2]? with
          | none =>
              rw [hc'] at hslot
              cases hslot
          | some c' =>
              rw [hc'] at hslot
              obtain ⟨halike⟩ := hslot
              dsimp only
              rw [c.arrowDatatype_eq, c'.arrowDatatype_eq, halike.kind]
              rcases halike.toArrowArray with
                ⟨err, herr, herr'⟩ | ⟨array, left, left', hok, hok', hleft⟩
              · rw [herr, herr']
                rfl
              · rw [hok, hok']
                simp only [bind, Except.bind]
                rw [ih fun s hs => ?_]
                -- the slot now holds what the export has left of the column
                by_cases heq : slot.2 = s.2
                · rw [← heq, List.getElem?_set_self (List.getElem?_eq_some_iff.mp hc).1,
                    List.getElem?_set_self (List.getElem?_eq_some_iff.mp hc').1]
                  exact .some hleft
                · rw [List.getElem?_set_ne heq, List.getElem?_set_ne heq]
                  exact hslots s hs

/-- Exporting the same slots of alike columns. -/
theorem AlikeColumns.exportSlots (h : AlikeColumns columns columns') (slots : List (String × Nat)) :
    TableBuilder.exportSlots columns' slots = TableBuilder.exportSlots columns slots := by
  refine exportSlots_of_alike fun s _ => ?_
  rcases h.getElem? s.2 with ⟨hc, hc'⟩ | ⟨c, c', hc, hc', halike⟩
  · rw [hc, hc']
    exact .none
  · rw [hc, hc']
    exact .some halike

end Columns

namespace TableBuilder

/-- The builders agree on what an export reads. -/
structure SameContent (b b' : TableBuilder) : Prop where
  columns : AlikeColumns b.columns b'.columns
  index : b'.fieldIndex = b.fieldIndex
  order : b'.columnOrder = b.columnOrder
  plan : b'.plan = b.plan
  rowCount : b'.rowCount = b.rowCount

section SameContent

variable {b b' : TableBuilder}

/-- The upgrade to dictionaries is decided on the cells, so alike builders upgrade alike columns. -/
theorem SameContent.autoDictUpgrade (h : b.SameContent b') :
    b.autoDictUpgrade.SameContent b'.autoDictUpgrade := by
  obtain ⟨hcolumns, hindex, horder, hplan, hrowCount⟩ := h
  rw [TableBuilder.autoDictUpgrade, TableBuilder.autoDictUpgrade, hplan]
  split
  · exact ⟨hcolumns.map fun c c' hc => hc.tryUpgradeToDict _ _ _, hindex, horder, rfl,
      hrowCount⟩
  · exact ⟨hcolumns, hindex, horder, hplan, hrowCount⟩

/-- Looking up a column of the projection, or making one of nulls, gives the same on both. -/
theorem SameContent.projectColumn (h : b.SameContent b') (name : String) :
    (b.projectColumn name).1.SameContent (b'.projectColumn name).1 ∧
      (b'.projectColumn name).2 = (b.projectColumn name).2 := by
  have hlength := h.columns.length_eq
  rw [TableBuilder.projectColumn, TableBuilder.projectColumn, h.index]
  cases b.fieldIndex.lookup name with
  | some idx => exact ⟨h, rfl⟩
  | none =>
      have hcolumn : ColumnBuilder.pushNulls b'.rowCount (.ofType (b'.plan.columnType name)) =
          ColumnBuilder.pushNulls b.rowCount (.ofType (b.plan.columnType name)) := by
        rw [h.plan, h.rowCount]
      refine ⟨⟨?_, ?_, h.order, h.plan, h.rowCount⟩, hlength.symm⟩
      · show AlikeColumns (_ ++ [_]) (_ ++ [ColumnBuilder.pushNulls b'.rowCount _])
        rw [hcolumn]
        exact List.rel_append h.columns (alikeColumns_refl _)
      · exact congrArg (fun n : Nat => b.fieldIndex.insert name n) hlength.symm

/-- So does the whole projection, by induction on its names, and the slots it gives are the same. -/
theorem SameContent.projectColumns (h : b.SameContent b') (names : List String) :
    (b.projectColumns names).1.SameContent (b'.projectColumns names).1 ∧
      (b'.projectColumns names).2 = (b.projectColumns names).2 := by
  induction names generalizing b b' with
  | nil => exact ⟨h, rfl⟩
  | cons name names ih =>
      obtain ⟨hone, hslot⟩ := h.projectColumn name
      obtain ⟨hrest, hslots⟩ := ih hone
      refine ⟨hrest, ?_⟩
      show (name, (b'.projectColumn name).2) :: ((b'.projectColumn name).1.projectColumns names).2 =
        (name, (b.projectColumn name).2) :: ((b.projectColumn name).1.projectColumns names).2
      rw [hslot, hslots]

/-- The sort looks at names, which are the same in both. -/
theorem SameContent.sortColumns (h : b.SameContent b') :
    b.sortColumns.SameContent b'.sortColumns := by
  rw [TableBuilder.sortColumns, TableBuilder.sortColumns, h.plan]
  split
  · exact h
  · refine ⟨h.columns, h.index, ?_, rfl, h.rowCount⟩
    show List.insertionSort _ b'.columnOrder = _
    rw [h.order]

/-- **`finish` reads the errors and the content of the truncated columns**, and nothing else. -/
theorem finish_congr (h : b.normalize.SameContent b'.normalize)
    (hunknown : b'.unknownError = b.unknownError) (hstrict : b'.strictError = b.strictError) :
    b'.finish = b.finish := by
  rw [finish, finish, prepareFinish, prepareFinish, hunknown, hstrict]
  cases b.unknownError with
  | some message => rfl
  | none =>
  cases b.strictError with
  | some err => rfl
  | none =>
  simp only [bind, Except.bind]
  have hsame : ∀ e e' : Event, (b.notify e).normalize.SameContent (b'.notify e').normalize :=
    fun e e' => ⟨h.columns, h.index, h.order, h.plan, h.rowCount⟩
  have h₁ := hsame (.chunkFinished (b.rowsAccepted + b.rowsRejected) b.rowsAccepted b.rowsRejected)
    (.chunkFinished (b'.rowsAccepted + b'.rowsRejected) b'.rowsAccepted b'.rowsRejected)
  generalize (b.notify _).normalize = b₁ at h₁ ⊢
  generalize (b'.notify _).normalize = b₁' at h₁ ⊢
  rw [h₁.order]
  split
  · rfl
  have h₂ := h₁.autoDictUpgrade
  generalize b₁.autoDictUpgrade = b₂ at h₂ ⊢
  generalize b₁'.autoDictUpgrade = b₂' at h₂ ⊢
  rw [h₂.plan]
  split
  · obtain ⟨h₃, hslots⟩ := h₂.projectColumns
      (b₂.plan.schemaOrder.filter fun n => !(n ∈ b₂.plan.dropFields : Bool))
    rw [hslots, h₃.columns.exportSlots]
  · have h₃ := h₂.sortColumns
    rw [h₃.order, h₃.index, h₃.columns.exportSlots]

end SameContent

end TableBuilder

end Rypipe
