import Rypipe.Engine.Runs
import Rypipe.Merge

/-! # Appending one builder to another

What `extend` does to the tables of two builders. The other builder's columns are moved out of it
one by one (`take_column`), each merged with the column of its name; the result holds the rows of
both tables, over the columns of both. -/

namespace Rypipe

variable [Platform]

namespace TableBuilder

/-- The index assigns the slots to names one to one. -/
structure Slotted (b : TableBuilder) : Prop where
  distinct : ∀ (m n : String) (i : Nat),
    b.fieldIndex.lookup m = some i → b.fieldIndex.lookup n = some i → m = n
  bound : ∀ (n : String) (i : Nat), b.fieldIndex.lookup n = some i → i < b.columns.length
  named : ∀ i : Nat, i < b.columns.length → ∃ n, b.fieldIndex.lookup n = some i

/-- A builder that holds a table has its columns in distinct slots. -/
theorem Sound.slotted {b : TableBuilder} {t : Table} {cur : CurrentRow} (h : b.Sound t cur) :
    b.Slotted where
  distinct m n i hm hn := by
    rw [h.holds.indexed] at hm hn
    exact Option.some.inj (hm.symm.trans hn)
  bound n i hn := h.holds.lookup_lt hn
  named i hi := by
    have hlt : i < t.cols.length := by rw [← h.holds.size]; exact hi
    exact ⟨_, h.holds.lookup_of_cols (List.getElem?_eq_getElem hlt)⟩

/-- A name in the index has a column. -/
theorem Slotted.getColumn_isSome {b : TableBuilder} (h : b.Slotted) {name : String} {i : Nat}
    (hi : b.fieldIndex.lookup name = some i) : ∃ c, b.getColumn name = some c := by
  rw [getColumn, hi]
  exact ⟨_, List.getElem?_eq_getElem (h.bound name i hi)⟩

/-- A name that is not in the index has no column to take. -/
theorem takeColumn_of_notMem {b : TableBuilder} {name : String}
    (h : b.fieldIndex.lookup name = none) : b.takeColumn name = none := by
  rw [takeColumn, h]
  rfl

/-- The index after a column was taken: the name `m` of the last slot gets the free one. This is
what `swap_remove` does to the columns, so the index still has every other name at its column. -/
theorem Slotted.takeColumn_index {b : TableBuilder} (h : b.Slotted) {name m : String} {idx : Nat}
    (hidx : b.fieldIndex.lookup name = some idx)
    (hm : b.fieldIndex.lookup m = some (b.columns.length - 1)) (n : String) :
    (takeIndex b.fieldIndex name idx (b.columns.length - 1)).lookup n =
      if n = name then none else if n = m then some idx else b.fieldIndex.lookup n := by
  have herase : (b.fieldIndex.erase name).lookup n =
      if n = name then none else b.fieldIndex.lookup n := by
    by_cases hn : n = name
    · rw [if_pos hn, hn, AList.lookup_erase]
    · rw [if_neg hn, AList.lookup_erase_ne hn]
  simp only [takeIndex]
  split
  · next hlast =>
    have hmn : m = name := h.distinct m name _ hm (hidx.trans (congrArg some hlast))
    rw [herase, hmn]
    split <;> rfl
  · next hlast =>
    have hne : m ≠ name := by
      rintro rfl
      exact hlast (Option.some.inj (hidx.symm.trans hm))
    have hmem : Sigma.mk m (b.columns.length - 1) ∈ (b.fieldIndex.erase name).entries := by
      rw [← AList.mem_lookup_iff, AList.lookup_erase_ne hne]
      exact hm
    cases hfind : (b.fieldIndex.erase name).entries.find?
        fun e => e.2 == b.columns.length - 1 with
    | none =>
        have := List.find?_eq_none.mp hfind _ hmem
        simp at this
    | some e =>
        -- the slot has one name only
        have he := List.find?_some hfind
        have hlook := AList.mem_lookup_iff.mpr (List.mem_of_find?_eq_some hfind)
        have hen : e.1 ≠ name := by
          intro heq
          rw [heq, AList.lookup_erase] at hlook
          cases hlook
        rw [AList.lookup_erase_ne hen] at hlook
        have hem : e.1 = m := h.distinct e.1 m _ hlook ((beq_iff_eq.mp he).symm ▸ hm)
        dsimp only
        rw [hem]
        by_cases hnm : n = m
        · rw [hnm, AList.lookup_insert, if_neg hne, if_pos rfl]
        · rw [AList.lookup_insert_ne hnm, herase, if_neg hnm]

/-- What `swap_remove` leaves is one shorter. -/
theorem length_swapRemove (columns : List ColumnBuilder) (idx : Nat) :
    (swapRemove columns idx).length = columns.length - 1 := by
  rw [swapRemove]
  cases hlast : columns.getLast? with
  | none => rw [List.getLast?_eq_none_iff.mp hlast]; rfl
  | some moved => simp only [List.length_dropLast, List.length_set]

/-- What `swap_remove` leaves has the last element where the removed one was. -/
theorem getElem?_swapRemove (columns : List ColumnBuilder) (idx j : Nat) :
    (swapRemove columns idx)[j]? = if j < columns.length - 1 then
      if idx = j then columns.getLast? else columns[j]? else none := by
  rw [swapRemove]
  cases hlast : columns.getLast? with
  | none =>
      rw [List.getLast?_eq_none_iff.mp hlast]
      rfl
  | some moved =>
      dsimp only
      rw [List.getElem?_dropLast, List.length_set]
      split
      · next hj =>
        rw [List.getElem?_set]
        split
        · next hidx => rw [if_pos (by omega)]
        · rfl
      · rfl

section Take

variable {b b' : TableBuilder} {name m : String} {idx : Nat}

/-- The last slot is not the free one, unless its column is the one that is taken. -/
theorem Slotted.lt_last (h : b.Slotted) (hidx : b.fieldIndex.lookup name = some idx)
    (hm : b.fieldIndex.lookup m = some (b.columns.length - 1)) (hne : m ≠ name) :
    idx < b.columns.length - 1 := by
  have hlt := h.bound name idx hidx
  have hnot : idx ≠ b.columns.length - 1 := by
    rintro rfl
    exact hne (h.distinct m name _ hm hidx)
  omega

/-- A name that is neither the taken one nor that of the last slot has neither of the two slots that
change. -/
theorem Slotted.slot_kept (h : b.Slotted) (hidx : b.fieldIndex.lookup name = some idx)
    (hm : b.fieldIndex.lookup m = some (b.columns.length - 1)) {n : String} {i : Nat}
    (hn : n ≠ name) (hnm : n ≠ m) (hi : b.fieldIndex.lookup n = some i) :
    i ≠ idx ∧ i < b.columns.length - 1 := by
  have hlt := h.bound n i hi
  have hlast : i ≠ b.columns.length - 1 := by
    rintro rfl
    exact hnm (h.distinct n m _ hi hm)
  refine ⟨?_, by omega⟩
  rintro rfl
  exact hn (h.distinct n name _ hi hidx)

/-- The slots after a column was taken are assigned one to one. No two names had one slot before;
the taken name is gone, and the moved one has a slot that no other name has. -/
theorem Slotted.taken (h : b.Slotted) (hidx : b.fieldIndex.lookup name = some idx)
    (hm : b.fieldIndex.lookup m = some (b.columns.length - 1))
    (hindex : b'.fieldIndex = takeIndex b.fieldIndex name idx (b.columns.length - 1))
    (hcolumns : b'.columns = swapRemove b.columns idx) : b'.Slotted := by
  have hlook : ∀ n, b'.fieldIndex.lookup n =
      if n = name then none else if n = m then some idx else b.fieldIndex.lookup n := fun n =>
    (congrArg (AList.lookup n) hindex).trans (h.takeColumn_index hidx hm n)
  -- a slot that is in use is the free one, under the name `m`, or as it was
  have hcases : ∀ n i, b'.fieldIndex.lookup n = some i → n ≠ name ∧
      (n = m ∧ i = idx ∨ n ≠ m ∧ b.fieldIndex.lookup n = some i) := by
    intro n i hi
    rw [hlook] at hi
    split at hi
    · cases hi
    · next hn =>
      split at hi
      · next hnm => exact ⟨hn, .inl ⟨hnm, (Option.some.inj hi).symm⟩⟩
      · next hnm => exact ⟨hn, .inr ⟨hnm, hi⟩⟩
  refine ⟨fun n n' i hi hi' => ?_, fun n i hi => ?_, fun i hi => ?_⟩
  · obtain ⟨hn, ⟨rfl, rfl⟩ | ⟨hnm, hi⟩⟩ := hcases n i hi
    · obtain ⟨hn', ⟨rfl, -⟩ | ⟨hnm', hi'⟩⟩ := hcases n' i hi'
      · rfl
      · exact absurd rfl (h.slot_kept hidx hm hn' hnm' hi').1
    · obtain ⟨hn', ⟨-, rfl⟩ | ⟨-, hi'⟩⟩ := hcases n' i hi'
      · exact absurd rfl (h.slot_kept hidx hm hn hnm hi).1
      · exact h.distinct n n' i hi hi'
  · rw [hcolumns, length_swapRemove]
    obtain ⟨hn, ⟨rfl, rfl⟩ | ⟨hnm, hi⟩⟩ := hcases n i hi
    · exact h.lt_last hidx hm hn
    · exact (h.slot_kept hidx hm hn hnm hi).2
  · rw [hcolumns, length_swapRemove] at hi
    by_cases hfree : i = idx
    · have hne : m ≠ name := by
        rintro rfl
        have hlast := Option.some.inj (hidx.symm.trans hm)
        omega
      exact ⟨m, by rw [hlook, if_neg hne, if_pos rfl, hfree]⟩
    · obtain ⟨n, hn⟩ := h.named i (by omega)
      have hname : n ≠ name := by
        rintro rfl
        exact hfree (Option.some.inj (hn.symm.trans hidx))
      have hlast : n ≠ m := by
        rintro rfl
        have hlast := Option.some.inj (hn.symm.trans hm)
        omega
      exact ⟨n, by rw [hlook, if_neg hname, if_neg hlast, hn]⟩

/-- The other names keep their columns, though the last one moves. -/
theorem Slotted.getColumn_taken (h : b.Slotted) (hidx : b.fieldIndex.lookup name = some idx)
    (hm : b.fieldIndex.lookup m = some (b.columns.length - 1))
    (hindex : b'.fieldIndex = takeIndex b.fieldIndex name idx (b.columns.length - 1))
    (hcolumns : b'.columns = swapRemove b.columns idx) (n : String) :
    b'.getColumn n = if n = name then none else b.getColumn n := by
  rw [getColumn, hindex, hcolumns, h.takeColumn_index hidx hm]
  split
  · rfl
  · next hn =>
    split
    · next hnm =>
      subst hnm
      rw [Option.bind_some, getElem?_swapRemove, if_pos (h.lt_last hidx hm hn), if_pos rfl,
        List.getLast?_eq_getElem?, getColumn, hm]
      rfl
    · next hnm =>
      rw [getColumn]
      cases hi : b.fieldIndex.lookup n with
      | none => rfl
      | some i =>
          obtain ⟨hne, hlt⟩ := h.slot_kept hidx hm hn hnm hi
          rw [Option.bind_some, getElem?_swapRemove, if_pos hlt, if_neg (Ne.symm hne)]
          rfl

/-- Taking a column removes its name and keeps the columns of the other names, though the last one
moves to its slot. -/
theorem Slotted.takeColumn (h : b.Slotted) {c : ColumnBuilder} (hc : b.getColumn name = some c) :
    ∃ b', b.takeColumn name = some (c, b') ∧ b'.Slotted ∧ b'.rowCount = b.rowCount ∧
      ∀ n, b'.getColumn n = if n = name then none else b.getColumn n := by
  obtain ⟨idx, hidx, hcol⟩ := Option.bind_eq_some_iff.mp hc
  have hlt := h.bound name idx hidx
  obtain ⟨m, hm⟩ := h.named (b.columns.length - 1) (by omega)
  rw [TableBuilder.takeColumn, hidx]
  simp only [Option.bind_eq_bind, Option.bind_some, hcol]
  exact ⟨_, rfl, h.taken hidx hm rfl rfl, rfl, h.getColumn_taken hidx hm rfl rfl⟩

end Take

/-- The key of a column's variant is a function of its type. -/
theorem variantKey_eq_of_kind {c d : ColumnBuilder} (h : c.kind = d.kind) :
    c.variantKey = d.variantKey := by
  cases c <;> cases d <;> simp_all [ColumnBuilder.kind, ColumnBuilder.variantKey]

/-- Merging two columns of one type appends the cells of the second. -/
theorem mergeColumn_of_kind (name : String) {c d : ColumnBuilder} {ty : FieldType}
    {cs ds : List (Option TypedValue)} (hc : c.Stores ty cs) (hd : d.Stores ty ds) :
    ∃ e, mergeColumn name c d = (e, .ok ()) ∧ e.Stores ty (cs ++ ds) := by
  have hkey := variantKey_eq_of_kind (hc.kind.trans hd.kind.symm)
  obtain ⟨e, he, hst⟩ := hc.extendOwned hd
  refine ⟨e, ?_, hst⟩
  simp only [mergeColumn, hkey, ↓reduceIte, he]

/-- What a merge leaves of the column of a name. -/
def mergedColumn (other : TableBuilder) (name : String) (c : ColumnBuilder) : ColumnBuilder :=
  match other.getColumn name with
  | none => c.pushNulls other.rowCount
  | some d => (mergeColumn name c d).1

/-- What is merged into a column depends on the other builder's column of the name and on its row
count. -/
theorem mergedColumn_congr {other other' : TableBuilder} {name : String}
    (hcol : other'.getColumn name = other.getColumn name)
    (hrows : other'.rowCount = other.rowCount) (c : ColumnBuilder) :
    mergedColumn other' name c = mergedColumn other name c := by
  rw [mergedColumn, mergedColumn, hcol, hrows]

/-- Columns in the same slots. -/
theorem Slotted.withColumns {b : TableBuilder} (h : b.Slotted) {columns : List ColumnBuilder}
    (hlength : columns.length = b.columns.length) :
    ({ b with columns := columns } : TableBuilder).Slotted :=
  ⟨h.distinct, fun n i hi => (h.bound n i hi).trans_eq hlength.symm,
    fun i hi => h.named i (hi.trans_eq hlength)⟩

/-- One column of `extend`: the column at `idx` is merged, and the other builder has given its own. -/
structure MergeStep (b other : TableBuilder) (name : String) (idx : Nat) (own : ColumnBuilder)
    (columns : List ColumnBuilder) (other' : TableBuilder) : Prop where
  length : columns.length = b.columns.length
  at_slot : ∀ j : Nat, columns[j]? =
    if idx = j then some (mergedColumn other name own) else b.columns[j]?
  slotted : other'.Slotted
  rowCount : other'.rowCount = other.rowCount
  others : ∀ n, n ≠ name → other'.getColumn n = other.getColumn n

/-- The columns of the other names are as before. -/
theorem MergeStep.getElem?_of_ne {b other other' : TableBuilder} {name : String} {idx : Nat}
    {own : ColumnBuilder} {columns : List ColumnBuilder}
    (h : MergeStep b other name idx own columns other') (hb : b.Slotted)
    (hidx : b.fieldIndex.lookup name = some idx) {n : String} {i : Nat} (hn : n ≠ name)
    (hi : b.fieldIndex.lookup n = some i) : columns[i]? = b.columns[i]? := by
  rw [h.at_slot, if_neg]
  rintro rfl
  exact hn (hb.distinct n name _ hi hidx)

/-- Merging one column leaves the columns of other names. -/
theorem MergeStep.getColumn_of_ne {b other other' : TableBuilder} {name : String} {idx : Nat}
    {own : ColumnBuilder} {columns : List ColumnBuilder}
    (h : MergeStep b other name idx own columns other') (hb : b.Slotted)
    (hidx : b.fieldIndex.lookup name = some idx) {n : String} (hn : n ≠ name) :
    ({ b with columns := columns } : TableBuilder).getColumn n = b.getColumn n := by
  rw [getColumn, getColumn]
  cases hi : b.fieldIndex.lookup n with
  | none => rfl
  | some i => exact h.getElem?_of_ne hb hidx hn hi

/-- The loop of `extend` merges the column of the first name, and goes on with the rest exactly if
that does not fail. A name that the other builder lacks is filled with missing cells instead of
being merged. -/
theorem exists_mergeStep {b other : TableBuilder} (hb : b.Slotted) (ho : other.Slotted)
    {name : String} {idx : Nat} {own : ColumnBuilder} (hidx : b.fieldIndex.lookup name = some idx)
    (hown : b.columns[idx]? = some own) (names : List String) :
    ∃ columns other', MergeStep b other name idx own columns other' ∧
      ((∀ d, other.getColumn name = some d → (mergeColumn name own d).2 = .ok ()) →
        extendColumns b other (name :: names) =
          extendColumns { b with columns := columns } other' names) ∧
      ((extendColumns b other (name :: names)).2 = .ok () →
        ∀ d, other.getColumn name = some d → (mergeColumn name own d).2 = .ok ()) := by
  cases hother : other.getColumn name with
  -- the other builder lacks the column, and this one is filled with nulls
  | none =>
      have hnone : other.fieldIndex.lookup name = none := by
        by_contra hne
        obtain ⟨i, hi⟩ := Option.ne_none_iff_exists'.mp hne
        obtain ⟨d, hd⟩ := ho.getColumn_isSome hi
        cases hother.symm.trans hd
      refine ⟨b.columns.modify idx (·.pushNulls other.rowCount), other,
        ⟨List.length_modify _ _ _, fun j => ?_, ho, rfl, fun _ _ => rfl⟩, fun _ => ?_,
        fun _ d hd => by cases hd⟩
      · rw [List.getElem?_modify, mergedColumn, hother]
        split
        · next hj =>
          subst hj
          rw [hown]
          rfl
        · exact Option.map_id'
      · simp only [extendColumns, hidx, takeColumn_of_notMem hnone]
  -- both have the column, which is taken out of the other builder and merged
  | some d =>
      obtain ⟨other', htake, ho', hrows', hget'⟩ := ho.takeColumn hother
      refine ⟨b.columns.set idx (mergedColumn other name own), other',
        ⟨List.length_set, fun j => ?_, ho', hrows', fun n hn => (hget' n).trans (if_neg hn)⟩,
        fun hok => ?_, fun hok d' hd' => ?_⟩
      · rw [List.getElem?_set]
        split
        · next hj =>
          subst hj
          rw [if_pos (hb.bound name idx hidx)]
        · rfl
      · have hpair : mergeColumn name own d = (mergedColumn other name own, .ok ()) := by
          rw [mergedColumn, hother]
          exact Prod.ext rfl (hok d rfl)
        simp only [extendColumns, hidx, htake, hown, hpair]
      · obtain rfl := Option.some.inj hd'
        simp only [extendColumns, hidx, htake, hown] at hok
        cases hmerge : (mergeColumn name own d).2 with
        | ok u => rfl
        | error err =>
            rw [hmerge] at hok
            cases hok

/-- When no merge of two columns fails, every column of the given names is merged. By induction on
the names: a step changes the column of its own name only, so the later ones still find their
columns as they were. -/
theorem extendColumns_ok {b other : TableBuilder} (hb : b.Slotted) (ho : other.Slotted)
    {names : List String} (hnodup : names.Nodup)
    (hok : ∀ name ∈ names, ∀ c d, b.getColumn name = some c → other.getColumn name = some d →
      (mergeColumn name c d).2 = .ok ()) :
    ∃ columns, extendColumns b other names = ({ b with columns := columns }, .ok ()) ∧
      columns.length = b.columns.length ∧
      ∀ (n : String) (i : Nat) (c : ColumnBuilder), b.fieldIndex.lookup n = some i →
        b.columns[i]? = some c →
        columns[i]? = some (if n ∈ names then mergedColumn other n c else c) := by
  induction names generalizing b other with
  | nil => exact ⟨b.columns, rfl, rfl, fun n i c _ hc => by simpa using hc⟩
  | cons name names ih =>
      obtain ⟨hname, hnodup'⟩ := List.nodup_cons.mp hnodup
      cases hidx : b.fieldIndex.lookup name with
      -- a name without a column is passed over
      | none =>
          obtain ⟨columns, heq, hlen, hcols⟩ := ih hb ho hnodup' fun n hn =>
            hok n (List.mem_cons_of_mem _ hn)
          refine ⟨columns, by rw [extendColumns, hidx]; exact heq, hlen, fun n i c hi hc => ?_⟩
          have hne : n ≠ name := by
            rintro rfl
            cases hidx.symm.trans hi
          simpa [hne] using hcols n i c hi hc
      | some idx =>
          obtain ⟨own, hown⟩ : ∃ own, b.columns[idx]? = some own :=
            ⟨_, List.getElem?_eq_getElem (hb.bound name idx hidx)⟩
          have hget : b.getColumn name = some own := by rw [getColumn, hidx]; exact hown
          obtain ⟨columns', other', hstep, hgoes, -⟩ := exists_mergeStep hb ho hidx hown names
          -- the names are distinct, so this step leaves all later columns as they were
          have hnames : ∀ n ∈ names, n ≠ name := fun n hn heq => hname (heq ▸ hn)
          obtain ⟨columns, heq, hlen, hcols⟩ := ih (hb.withColumns hstep.length) hstep.slotted hnodup'
            fun n hn c d hc hd => hok n (List.mem_cons_of_mem _ hn) c d
              ((hstep.getColumn_of_ne hb hidx (hnames n hn)).symm.trans hc)
              ((hstep.others n (hnames n hn)).symm.trans hd)
          refine ⟨columns, ?_, hlen.trans hstep.length, fun n i c hi hc => ?_⟩
          · rw [hgoes fun d hd => hok name List.mem_cons_self own d hget hd]
            exact heq
          · by_cases hn : n = name
            · subst hn
              obtain rfl := Option.some.inj (hi.symm.trans hidx)
              obtain rfl := Option.some.inj (hc.symm.trans hown)
              have hmerged := hcols n i _ hi ((hstep.at_slot i).trans (if_pos rfl))
              simpa [hname] using hmerged
            · have hkept := hcols n i c hi ((hstep.getElem?_of_ne hb hidx hn hi).trans hc)
              rw [mergedColumn_congr (hstep.others n hn) hstep.rowCount] at hkept
              simpa [hn] using hkept

/-- A merge that succeeds has merged every column of the given names. -/
theorem merges_of_extendColumns {b other : TableBuilder} (hb : b.Slotted) (ho : other.Slotted)
    {names : List String} (hnodup : names.Nodup)
    (hok : (extendColumns b other names).2 = .ok ()) :
    ∀ name ∈ names, ∀ c d, b.getColumn name = some c → other.getColumn name = some d →
      (mergeColumn name c d).2 = .ok () := by
  induction names generalizing b other with
  | nil => exact fun name hname => by cases hname
  | cons name names ih =>
      obtain ⟨hname, hnodup'⟩ := List.nodup_cons.mp hnodup
      intro n hn c d hc hd
      cases hidx : b.fieldIndex.lookup name with
      | none =>
          rw [extendColumns, hidx] at hok
          rcases List.mem_cons.mp hn with rfl | hn
          · rw [getColumn, hidx] at hc
            cases hc
          · exact ih hb ho hnodup' hok n hn c d hc hd
      | some idx =>
          obtain ⟨own, hown⟩ : ∃ own, b.columns[idx]? = some own :=
            ⟨_, List.getElem?_eq_getElem (hb.bound name idx hidx)⟩
          obtain ⟨columns', other', hstep, hgoes, hfirst⟩ := exists_mergeStep hb ho hidx hown names
          rcases List.mem_cons.mp hn with rfl | hn
          · rw [getColumn, hidx] at hc
            obtain rfl := Option.some.inj (hown.symm.trans hc)
            exact hfirst hok d hd
          · have hne : n ≠ name := fun heq => hname (heq ▸ hn)
            rw [hgoes (hfirst hok)] at hok
            exact ih (hb.withColumns hstep.length) hstep.slotted hnodup' hok n hn c d
              ((hstep.getColumn_of_ne hb hidx hne).trans hc) ((hstep.others n hne).trans hd)

/-- A column of the other builder is adopted as a column of nulls. -/
theorem Between.adoptColumn {b : TableBuilder} {t : Table} (h : b.Between t)
    (plan : ExecutionPlan) (name : String) :
    (b.adoptColumn plan b.rowCount name).Between (t.declare name (plan.columnType name)) := by
  rw [TableBuilder.adoptColumn]
  split
  · next hmem =>
    rw [RowTable.declare_of_mem ((h.sound.holds.mem_index name).mp hmem)]
    exact h
  · next hnot =>
    have hname : name ∉ t.names := fun hn => hnot ((h.sound.holds.mem_index name).mpr hn)
    have hnames : (t.declare name (plan.columnType name)).names = t.names ++ [name] := by
      rw [RowTable.names, RowTable.cols_declare_of_notMem hname, List.map_append]
      rfl
    have hcol := (ColumnBuilder.ofType_stores (plan.columnType name)).pushNulls b.rowCount
    rw [List.nil_append, h.rowCount] at hcol
    refine ⟨⟨h.sound.holds.appendColumn hname (h.rowCount ▸ hcol)
      (fun i => WordSet.test_growByWord _ _ i) ?_, ?_, ?_, h.sound.rowBuf⟩, ?_⟩
    · have hcap := WordSet.capacity_growByWord (by decide) h.sound.holds.room
      show _ ≤ (b.rowDirty.growByWord (b.columns ++ [_]).length).capacity
      rw [List.length_append, List.length_singleton]
      exact hcap
    · rw [hnames]
      refine (List.perm_insertIdx name b.columnOrder (b.schemaInsertIndex_le name)).trans ?_
      exact (List.Perm.cons name h.sound.order).trans
        (List.perm_append_singleton name t.names).symm
    · intro frozen hf n hn
      rw [hnames]
      exact List.mem_append_left _ (h.sound.known frozen hf n hn)
    · rw [RowTable.rows_declare]
      exact h.rowCount

/-- The columns of the other builder, with the types they are adopted with. -/
def adoptedColumns (other : TableBuilder) : List (String × FieldType) :=
  other.columnOrder.map fun name => (name, other.plan.columnType name)

/-- The first step of `extend` declares the columns of the other builder. -/
theorem Between.adoptColumns {b : TableBuilder} {t : Table} (h : b.Between t)
    (plan : ExecutionPlan) (names : List String) :
    (names.foldl (fun b' name => b'.adoptColumn plan b.rowCount name) b).Between
      (t.declareAll (names.map fun name => (name, plan.columnType name))) := by
  generalize hrows : b.rowCount = rows
  induction names generalizing b t with
  | nil => exact h
  | cons name names ih =>
      have h' := h.adoptColumn plan name
      rw [hrows] at h'
      refine ih h' ?_
      rw [h'.rowCount, RowTable.rows_declare, ← h.rowCount, hrows]

/-- The rows of two builders, one after the other, over the columns of both, whose types are those that
`types` makes of them. -/
def extendTable (t s : Table) (adopted : List (String × FieldType))
    (types : String → FieldType → FieldType)
    (h : ∀ name, name ∈ s.names → name ∈ (t.declareAll adopted).names) : Table :=
  ((t.declareAll adopted).retype types).append s
    fun name hn => by rw [RowTable.names_retype]; exact h name hn

/-- The columns of the other builder are adopted. -/
theorem Between.names_adopted {other : TableBuilder} {s : Table} (ho : other.Between s) (t : Table)
    (name : String) (hn : name ∈ s.names) :
    name ∈ (t.declareAll other.adoptedColumns).names := by
  rw [RowTable.mem_names_declareAll, adoptedColumns, List.map_map]
  refine Or.inr (List.mem_map.mpr ⟨name, ?_, rfl⟩)
  exact ho.sound.order.mem_iff.mpr hn

/-- The builder that `extend` merges into: truncated, with the totals and the columns of both. -/
def extendStart (b other : TableBuilder) : TableBuilder :=
  let b₀ : TableBuilder := { b.normalize with
    strictError := b.strictError.or other.strictError
    unknownError := b.unknownError.or other.unknownError
    rowsAccepted := b.rowsAccepted + other.rowsAccepted
    rowsRejected := b.rowsRejected + other.rowsRejected }
  other.columnOrder.foldl (fun b' name => b'.adoptColumn other.plan b₀.rowCount name) b₀

/-- `extend` past its checks: it starts with the columns that only the other builder has, merges the
columns in export order, and counts the rows if all of them merge. -/
theorem extend_eq (b other : TableBuilder) :
    b.extend other =
      match extendColumns (b.extendStart other) other.normalize (b.extendStart other).columnOrder with
      | (b', .ok ()) => ({ b' with rowCount := b.rowCount + other.rowCount }, .ok ())
      | (b', .error err) => (b', .error err) := rfl

/-- The start of `extend` declares the other builder's columns and is still between rows. -/
theorem Between.extendStart {b : TableBuilder} {t : Table} (h : b.Between t) (other : TableBuilder) :
    (b.extendStart other).Between (t.declareAll other.adoptedColumns) := by
  have h₀ : ({ b.normalize with
      strictError := b.strictError.or other.strictError
      unknownError := b.unknownError.or other.unknownError
      rowsAccepted := b.rowsAccepted + other.rowsAccepted
      rowsRejected := b.rowsRejected + other.rowsRejected } : TableBuilder).Between t := by
    have h' := h.normalize
    exact ⟨⟨h'.sound.holds, h'.sound.order, h'.sound.known, h'.sound.rowBuf⟩, h'.rowCount⟩
  exact h₀.adoptColumns other.plan other.columnOrder

/-- The merged column of a name holds the cells of both tables, where both columns have one type. -/
theorem stores_mergedColumn {other : TableBuilder} {u s : Table} (ho : other.Between s)
    {name : String} {ty : FieldType} {c : ColumnBuilder}
    (hc : c.Stores ty (u.column store name ty))
    (hsame : ∀ ty', s.typeOf name = some ty' → ty' = ty) :
    (mergedColumn other name c).Stores ty (u.column store name ty ++ s.column store name ty) ∧
    ∀ d, other.getColumn name = some d → (mergeColumn name c d).2 = .ok () := by
  rw [mergedColumn]
  cases hty : s.typeOf name with
  -- a column that the other builder lacks is filled with nulls
  | none =>
      have hname := RowTable.typeOf_eq_none.mp hty
      have hlook := (ho.sound.holds.lookup_eq_none name).mpr hname
      have hget : other.getColumn name = none := by rw [getColumn, hlook]; rfl
      rw [hget]
      refine ⟨?_, fun d hd => by cases hd⟩
      rw [RowTable.column_of_notMem store hname, ← ho.rowCount]
      exact hc.pushNulls other.rowCount
  -- and one that it has is of the same type, so the cells are appended
  | some ty' =>
      obtain rfl := hsame ty' hty
      obtain ⟨i, hi⟩ := List.mem_iff_getElem?.mp (RowTable.typeOf_eq_some.mp hty)
      obtain ⟨d, hd, hst⟩ := ho.sound.holds.stored i _ hi
      have hget : other.getColumn name = some d := by
        rw [getColumn, ho.sound.holds.lookup_of_cols hi]
        exact hd
      rw [pending_noRow, List.append_nil] at hst
      obtain ⟨e, he, hste⟩ := mergeColumn_of_kind name hc hst
      rw [hget]
      dsimp only
      rw [he]
      refine ⟨hste, fun d' hd' => ?_⟩
      obtain rfl := Option.some.inj hd'
      rw [he]

/-- The column of a declared name, in the builder that `extend` merges into. -/
theorem Between.getColumn_extendStart {b other : TableBuilder} {t : Table} (hb : b.Between t)
    {i : Nat} {p : String × FieldType} (hp : (t.declareAll other.adoptedColumns).cols[i]? = some p) :
    ∃ c, (b.extendStart other).columns[i]? = some c ∧
      c.Stores p.2 ((t.declareAll other.adoptedColumns).column store p.1 p.2) ∧
      (b.extendStart other).fieldIndex.lookup p.1 = some i := by
  have hstart := hb.extendStart other
  obtain ⟨c, hc, hst⟩ := hstart.sound.holds.stored i p hp
  rw [pending_noRow, List.append_nil] at hst
  exact ⟨c, hc, hst, hstart.sound.holds.lookup_of_cols hp⟩

/-- **Appending a builder appends its rows**, when the merges of the columns succeed and each merged column
holds the cells of both tables in the type that `types` gives it. -/
theorem Between.extend {b other : TableBuilder} {t s : Table} (hb : b.Between t)
    (ho : other.Between s) (types : String → FieldType → FieldType)
    (hmerges : ∀ name c d, (b.extendStart other).getColumn name = some c →
      other.normalize.getColumn name = some d → (mergeColumn name c d).2 = .ok ())
    (hstores : ∀ name ty c, (name, ty) ∈ (t.declareAll other.adoptedColumns).cols →
      (b.extendStart other).getColumn name = some c →
      c.Stores ty ((t.declareAll other.adoptedColumns).column store name ty) →
      (mergedColumn other.normalize name c).Stores (types name ty)
        ((t.declareAll other.adoptedColumns).column store name (types name ty) ++
          s.column store name (types name ty))) :
    (b.extend other).2 = .ok () ∧ (b.extend other).1.Between
      (extendTable t s other.adoptedColumns types (ho.names_adopted t)) := by
  have hstart := hb.extendStart other
  have hnodup : (b.extendStart other).columnOrder.Nodup :=
    hstart.sound.order.nodup_iff.mpr (t.declareAll other.adoptedColumns).nodup
  obtain ⟨columns, heq, hlen, hcols⟩ := extendColumns_ok hstart.sound.slotted
    ho.normalize.sound.slotted hnodup fun name _ c d hc hd => hmerges name c d hc hd
  -- the extended table has the columns of both, some with a wider type
  have hcols' : (extendTable t s other.adoptedColumns types (ho.names_adopted t)).cols =
      (t.declareAll other.adoptedColumns).cols.map fun p => (p.1, types p.1 p.2) := rfl
  have hnames : (extendTable t s other.adoptedColumns types (ho.names_adopted t)).names =
      (t.declareAll other.adoptedColumns).names := RowTable.names_retype _ _
  have hclean := hstart.sound.holds.clean
  rw [extend_eq, heq]
  refine ⟨rfl, ⟨⟨?_, ?_, ?_, fun i p _ => hclean i, fun i _ => hclean i, ?_, ?_⟩, ?_, ?_,
    hstart.sound.rowBuf⟩, ?_⟩
  · rw [hcols', List.length_map, ← hstart.sound.holds.size]
    exact hlen
  · intro name i
    rw [hnames]
    exact hstart.sound.holds.indexed name i
  · intro i p hp
    rw [hcols', List.getElem?_map] at hp
    obtain ⟨q, hq, rfl⟩ := Option.map_eq_some_iff.mp hp
    obtain ⟨c, hc, hst, hlook⟩ := hb.getColumn_extendStart hq
    have hmem : q.1 ∈ (b.extendStart other).columnOrder :=
      hstart.sound.order.mem_iff.mpr (List.mem_map_of_mem (List.mem_of_getElem? hq))
    refine ⟨mergedColumn other.normalize q.1 c, ?_, ?_⟩
    · have hi := hcols q.1 i c hlook hc
      rwa [if_pos hmem] at hi
    · have hget : (b.extendStart other).getColumn q.1 = some c := by
        rw [getColumn, hlook]
        exact hc
      -- a column of the extended table is the widened column of each, one after the other
      have happend : (extendTable t s other.adoptedColumns types (ho.names_adopted t)).column store q.1
          (types q.1 q.2) =
          (t.declareAll other.adoptedColumns).column store q.1 (types q.1 q.2) ++
            s.column store q.1 (types q.1 q.2) := by
        rw [extendTable, RowTable.column_append, RowTable.column_retype]
      rw [pending_noRow, List.append_nil, happend]
      exact hstores q.1 q.2 c (List.mem_of_getElem? hq) hget hst
  · show columns.length ≤ _
    rw [hlen]
    exact hstart.sound.holds.room
  · intro name hn
    simp [noRow] at hn
  · rw [hnames]
    exact hstart.sound.order
  · intro frozen hf name hn
    rw [hnames]
    exact hstart.sound.known frozen hf name hn
  · show b.rowCount + other.rowCount =
      ((t.declareAll other.adoptedColumns).rows ++ s.rows).length
    rw [RowTable.rows_declareAll, List.length_append, hb.rowCount, ho.rowCount]

end TableBuilder

end Rypipe
