import Rypipe.Columnar.Refinement

/-! # Reached columns

A column that pushes, pops, splits, appends, promotions and upgrades lead to, together with the list
these operations build on the side (`Reached`). Such a column is a packed cell-level builder with
exactly those cells (`Reached.holds`), so reading it is reading the list (`Reached.reads`). -/

namespace Rypipe

/-! ## The bytes of an encoded column -/

/-- The bytes of the values of an interner. -/
def Interner.textBytes (d : Interner String) : Nat := (d.values.map utf8).flatten.length

/-- Interning adds at most the bytes of the value. -/
theorem Interner.textBytes_intern (d : Interner String) (s : String) :
    (d.intern s).2.textBytes ≤ d.textBytes + (utf8 s).length := by
  rcases hlookup : d.index.lookup s with _ | k
  · rw [Interner.intern_of_lookup_none hlookup, Interner.textBytes, Interner.textBytes]
    simp
  · rw [Interner.intern_of_lookup hlookup]
    exact Nat.le_add_right _ _

/-- A dictionary holds no more bytes than the rows it was built from. -/
theorem Interner.textBytes_internOpts (d : Interner String) (rows : List (Option String)) :
    (d.internOpts rows).2.textBytes ≤ d.textBytes + (rows.map rowBytes).flatten.length := by
  induction rows generalizing d with
  | nil => simp [Interner.internOpts]
  | cons row rest ih =>
    cases row with
    | none => simpa [Interner.internOpts, rowBytes] using ih d
    | some s =>
      have hstep := d.textBytes_intern s
      have hrest := ih (d.intern s).2
      simp only [Interner.internOpts, List.map_cons, List.flatten_cons, List.length_append,
        rowBytes]
      omega

section Columns

variable [Platform]

/-! ## Appending cells -/

/-- What appending builds holds the cells of both: whenever it succeeds, the result stores the cells
of the first column followed by those of the second, under the type of the first. -/
theorem ColumnBuilder.stores_extendOwned {a b e : ColumnBuilder} (ha : a.Valid) (hb : b.Valid)
    (h : a.extendOwned b = .ok e) : e.Stores a.kind (a.cells ++ b.cells) := by
  by_cases hkind : b.kind = a.kind
  · obtain ⟨e', he', hstores⟩ := (stores_self ha).extendOwned ⟨hb, hkind, rfl⟩
    rw [h, Except.ok.injEq] at he'
    rw [he']
    exact hstores
  · -- Timestamps in one unit but with different formats are all that is left.
    cases a with
    | timestamp ua fa v =>
      cases b with
      | timestamp ub fb w =>
        unfold ColumnBuilder.extendOwned at h
        by_cases hunit : ua = ub
        · subst hunit
          simp only [if_true, Except.ok.injEq] at h
          subst h
          exact ⟨trivial, rfl, by simp [ColumnBuilder.cells]⟩
        · simp [hunit] at h
      | _ => cases h
    | decimal128 sa v =>
      cases b with
      | decimal128 sb w =>
        have hscale : sa ≠ sb := fun heq => hkind (by rw [heq]; rfl)
        simp [ColumnBuilder.extendOwned, hscale] at h
      | _ => cases h
    | _ =>
      cases b with
      | _ => first | exact absurd rfl hkind | cases h

namespace ColumnBuffers

/-! ## The list model -/

/-- The type a column stores. -/
def kind : ColumnBuffers → FieldType
  | .string _ => .string
  | .int64 _ => .int64
  | .float64 _ => .float64
  | .boolean _ => .boolean
  | .date32 _ => .date32
  | .timestamp unit format _ => .timestamp unit format
  | .decimal128 scale _ => .decimal128 scale
  | .dictionary _ _ => .dictionary

/-- Two columns of one storage variant: timestamps in one unit, decimals of one scale. -/
def SameVariant : ColumnBuffers → ColumnBuffers → Prop
  | .string _, .string _ => True
  | .int64 _, .int64 _ => True
  | .float64 _, .float64 _ => True
  | .boolean _, .boolean _ => True
  | .date32 _, .date32 _ => True
  | .timestamp ua _ _, .timestamp ub _ _ => ua = ub
  | .decimal128 sa _, .decimal128 sb _ => sa = sb
  | .dictionary _ _, .dictionary _ _ => True
  | _, _ => False

/-- The conversion of a promotion: integers become floats, every other value stays. -/
def promoted (ty : FieldType) (target : String) (v : TypedValue) : TypedValue :=
  match ty, v with
  | .int64, .int64 i => if target = "float64" then .float64 (intAsF64 i) else .int64 i
  | _, v => v

/-- What a sequence of operations leads to: the column, and the list the operations build when
pushing appends, popping drops the last, splitting splits, appending concatenates, and promotions
and upgrades leave the values unchanged up to `promoted`. The string data of every column stays
below 2^31 bytes. -/
inductive Reached : ColumnBuffers → List (Option TypedValue) → Prop
  | ofType (ty : FieldType) : Reached (.ofType ty) []
  | pushValue {c : ColumnBuffers} {l : List (Option TypedValue)} (value : Value)
      (h : Reached c l) (hfits : (c.pushValue value).Fits) :
      Reached (c.pushValue value) (l ++ [store c.kind value])
  | pushStr {c : ColumnBuffers} {l : List (Option TypedValue)} (value : Option String)
      (h : Reached c l) (hfits : (c.pushStr value).Fits) :
      Reached (c.pushStr value) (l ++ [value.bind fun s => store c.kind (.str s)])
  | pop {c : ColumnBuffers} {l : List (Option TypedValue)} (h : Reached c l) :
      Reached c.pop l.dropLast
  | splitHead {c : ColumnBuffers} {l : List (Option TypedValue)} (n : Nat) (h : Reached c l)
      (hpos : 1 ≤ n) (hn : n ≤ l.length) : Reached (c.splitOff n).1 (l.take n)
  | splitRest {c : ColumnBuffers} {l : List (Option TypedValue)} (n : Nat) (h : Reached c l)
      (hpos : 1 ≤ n) (hn : n ≤ l.length) : Reached (c.splitOff n).2 (l.drop n)
  | extendOwned {c d : ColumnBuffers} {l m : List (Option TypedValue)} (h : Reached c l)
      (h' : Reached d m) (hsame : SameVariant c d) (hfits : (c.extendOwned d).1.Fits) :
      Reached (c.extendOwned d).1 (l ++ m)
  | extendRefused {c d : ColumnBuffers} {l m : List (Option TypedValue)} (h : Reached c l)
      (h' : Reached d m) (hother : ¬ SameVariant c d) : Reached (c.extendOwned d).1 l
  | promoteToVariant {c : ColumnBuffers} {l : List (Option TypedValue)} (target : String)
      (h : Reached c l) :
      Reached (c.promoteToVariant target).1 (l.map (·.map (promoted c.kind target)))
  | tryUpgradeToDict {c : ColumnBuffers} {l : List (Option TypedValue)} (minRows : Nat)
      (maxRatio : F64) (maxSize : Nat) (h : Reached c l) :
      Reached (c.tryUpgradeToDict minRows maxRatio maxSize) l

/-! ## What a reached column stands for -/

/-- The column packs a valid builder with the cells `l`, and its text fits. -/
def Holds (c : ColumnBuffers) (l : List (Option TypedValue)) : Prop :=
  ∃ b, Refines c b ∧ b.Stores c.kind l ∧ c.Fits

/-- The buffers have the type of the builder they pack. -/
theorem Refines.kind_eq {c : ColumnBuffers} {b : ColumnBuilder} (h : Refines c b) :
    c.kind = b.kind := by
  cases h <;> rfl

variable {c d : ColumnBuffers} {b : ColumnBuilder} {l m : List (Option TypedValue)}

/-- A builder that stores the list, whatever its type is called. -/
theorem Refines.holds (h : Refines c b) {ty : FieldType} (hstores : b.Stores ty l)
    (hfits : c.Fits) : c.Holds l := by
  refine ⟨b, h, ?_, hfits⟩
  rw [h.kind_eq, hstores.kind]
  exact hstores

/-- A new column stands for the empty list. -/
theorem holds_ofType (ty : FieldType) : (ofType ty).Holds [] := by
  refine (refines_ofType ty).holds (ColumnBuilder.ofType_stores ty) ?_
  cases ty <;> exact Nat.succ_pos _

/-- Pushing a value adds the cell that the type keeps of it (`store`), as long as the text fits. -/
theorem Holds.pushValue (h : c.Holds l) (value : Value) (hfits : (c.pushValue value).Fits) :
    (c.pushValue value).Holds (l ++ [store c.kind value]) := by
  obtain ⟨b, hb, hstores, -⟩ := h
  exact (hb.pushValue value).holds (hstores.pushValue value) hfits

/-- Pushing a text adds the cell that the type reads in it; a missing text adds a missing cell. -/
theorem Holds.pushStr (h : c.Holds l) (value : Option String) (hfits : (c.pushStr value).Fits) :
    (c.pushStr value).Holds (l ++ [value.bind fun s => store c.kind (.str s)]) := by
  obtain ⟨b, hb, hstores, -⟩ := h
  exact (hb.pushStr value).holds (hstores.pushStr value) hfits

/-- Dropping a row leaves no more text: the bytes are cut at an earlier offset, or stay as they are
for a missing text. -/
theorem fits_pop (h : c.Fits) : c.pop.Fits := by
  cases c with
  | string v =>
    have hle : v.pop.data.length ≤ v.data.length := by
      unfold StrColumn.pop
      cases v.validity.pop with
      | none => exact Nat.le_refl _
      | some popped => simp
    exact Nat.lt_of_le_of_lt hle h
  | _ => exact h

/-- `pop` drops the last cell. -/
theorem Holds.pop (h : c.Holds l) : c.pop.Holds l.dropLast := by
  obtain ⟨b, hb, hstores, hfits⟩ := h
  exact (hb.pop hfits).holds hstores.pop (fits_pop hfits)

/-- Neither half of a split has more text than the column, so both can still be counted in an
`i32`. -/
theorem fits_splitOff (h : c.Fits) (n : Nat) : (c.splitOff n).1.Fits ∧ (c.splitOff n).2.Fits := by
  cases c with
  | string v =>
    have hle : (v.splitOff n).1.data.length ≤ v.data.length ∧
        (v.splitOff n).2.data.length ≤ v.data.length := by
      unfold StrColumn.splitOff
      split
      · exact ⟨Nat.zero_le _, Nat.le_refl _⟩
      · split
        · exact ⟨Nat.le_refl _, Nat.zero_le _⟩
        · simp
    exact ⟨Nat.lt_of_le_of_lt hle.1 h, Nat.lt_of_le_of_lt hle.2 h⟩
  | _ => exact ⟨h, h⟩

/-- The column has as many rows as the list has cells. -/
theorem Holds.len_eq (h : c.Holds l) : c.len = l.length := by
  obtain ⟨b, hb, hstores, -⟩ := h
  rw [hb.len_eq, hstores.len_eq]

/-- `split_off(n)` leaves the first `n` cells and hands over the others. -/
theorem Holds.splitOff (h : c.Holds l) {n : Nat} (hpos : 1 ≤ n) (hn : n ≤ l.length) :
    (c.splitOff n).1.Holds (l.take n) ∧ (c.splitOff n).2.Holds (l.drop n) := by
  have hlen := h.len_eq
  obtain ⟨b, hb, hstores, hfits⟩ := h
  obtain ⟨hhead, hrest⟩ := hb.splitOff hfits hpos (by omega)
  obtain ⟨hfitsHead, hfitsRest⟩ := fits_splitOff hfits n
  exact ⟨hhead.holds (hstores.takeRows n) hfitsHead, hrest.holds (hstores.dropRows n) hfitsRest⟩

/-- Columns of one variant append, others are refused and the column stays as it is. -/
theorem extendOwned_snd (c d : ColumnBuffers) :
    ((c.extendOwned d).2 = .ok () ↔ SameVariant c d) ∧
      (¬ SameVariant c d → (c.extendOwned d).1 = c) := by
  cases c with
  | timestamp ua fa v =>
    cases d with
    | timestamp ub fb w =>
      unfold ColumnBuffers.extendOwned SameVariant
      by_cases hunit : ua = ub <;> simp [hunit]
    | _ => simp [ColumnBuffers.extendOwned, SameVariant]
  | decimal128 sa v =>
    cases d with
    | decimal128 sb w =>
      unfold ColumnBuffers.extendOwned SameVariant
      by_cases hscale : sa = sb <;> simp [hscale]
    | _ => simp [ColumnBuffers.extendOwned, SameVariant]
  | dictionary codes t =>
    cases d with
    | dictionary other u =>
      unfold ColumnBuffers.extendOwned SameVariant
      by_cases hzero : codes.len = 0 <;> simp [hzero]
    | _ => simp [ColumnBuffers.extendOwned, SameVariant]
  | _ => cases d <;> simp [ColumnBuffers.extendOwned, SameVariant]

/-- Appending a column of the same variant appends its cells, as long as the text of both fits. -/
theorem Holds.extendOwned (h : c.Holds l) (h' : d.Holds m) (hsame : SameVariant c d)
    (hfits : (c.extendOwned d).1.Fits) : (c.extendOwned d).1.Holds (l ++ m) := by
  obtain ⟨b, hb, hstores, -⟩ := h
  obtain ⟨e, he, hstores', hfits'⟩ := h'
  have hok := (extendOwned_snd c d).1.mpr hsame
  rcases hb.extendOwned he hfits' hstores.valid hstores'.valid with
    ⟨b', hb', hrefines, -⟩ | ⟨err, -, hrefused⟩
  · have hcells := ColumnBuilder.stores_extendOwned hstores.valid hstores'.valid hb'
    rw [hstores.cells, hstores'.cells] at hcells
    exact hrefines.holds hcells hfits
  · rw [hrefused] at hok
    cases hok

/-- An encoded column holds no more text than the strings it was made of. -/
theorem fits_encode {v : StrColumn} {rows : List (Option String)} (h : v.Packs rows)
    (hfits : v.Fits) :
    Fits (.dictionary (DictStore.encode v.iter).1 (DictStore.encode v.iter).2) := by
  have hbytes := Interner.textBytes_internOpts .empty rows
  rw [h.iter hfits]
  have htext := h.fits hfits
  have hnone : (Interner.empty : Interner String).textBytes = 0 := rfl
  have hdata : (DictStore.encode rows).2.data.length =
      (Interner.empty.internOpts rows).2.textBytes := by
    rw [(DictStore.packs_encode rows).2.data, Interner.textBytes]
  change (DictStore.encode rows).2.data.length < 2147483648
  omega

/-- An encoded column holds the strings it was made of. -/
theorem holds_encode {v : StrColumn} {rows : List (Option String)} (h : v.Packs rows)
    (hfits : v.Fits) :
    Holds (.dictionary (DictStore.encode v.iter).1 (DictStore.encode v.iter).2)
      (rows.map (·.map .str)) :=
  (Refines.encode h hfits).holds (ColumnBuilder.Stores.encodeStrings rows) (fits_encode h hfits)

/-- A promotion converts integers to floats, encodes strings, or leaves the column. -/
theorem promoteToVariant_fst (c : ColumnBuffers) (target : String) :
    (∃ v, c = .int64 v ∧ target = "float64" ∧
      (c.promoteToVariant target).1 = .float64 ⟨v.data.map intAsF64, v.validity⟩) ∨
    (∃ v, c = .string v ∧ (c.promoteToVariant target).1 =
      .dictionary (DictStore.encode v.iter).1 (DictStore.encode v.iter).2) ∨
    ((c.promoteToVariant target).1 = c ∧ ∀ value, promoted c.kind target value = value) := by
  -- a column of the wanted variant is left alone
  by_cases hkey : c.variantKey = target
  · refine .inr (.inr ⟨?_, fun value => ?_⟩)
    · rw [ColumnBuffers.promoteToVariant.eq_def]
      simp only [if_pos hkey]
    · subst hkey
      cases c with
      | int64 v => cases value <;> simp [promoted, kind, ColumnBuffers.variantKey]
      | _ => rfl
  · rw [ColumnBuffers.promoteToVariant.eq_def]
    simp only [if_neg hkey]
    cases c with
    | int64 v =>
      by_cases htarget : target = "float64"
      · simp only [if_pos htarget]
        exact .inl ⟨v, rfl, htarget, rfl⟩
      · simp only [if_neg htarget]
        refine .inr (.inr ⟨trivial, fun value => ?_⟩)
        cases value <;> simp [promoted, kind, htarget]
    | string v =>
      by_cases htarget : target = "dictionary"
      · simp only [if_pos htarget]
        exact .inr (.inl ⟨v, rfl, rfl⟩)
      · simp only [if_neg htarget]
        exact .inr (.inr ⟨trivial, fun value => rfl⟩)
    | _ => exact .inr (.inr ⟨rfl, fun value => rfl⟩)

/-- Promotion to another variant rewrites each cell by itself, by `promoted`. -/
theorem Holds.promoteToVariant (h : c.Holds l) (target : String) :
    (c.promoteToVariant target).1.Holds (l.map (·.map (promoted c.kind target))) := by
  have hself : ∀ {value : TypedValue → TypedValue}, (∀ v, value v = v) →
      l.map (·.map value) = l := by
    intro value hid
    have hfun : value = id := funext hid
    simp [hfun]
  rcases promoteToVariant_fst c target with ⟨v, rfl, rfl, hresult⟩ | ⟨v, rfl, hresult⟩ |
    ⟨hresult, hid⟩
  · obtain ⟨b, hb, hstores, hfits⟩ := h
    rw [hresult]
    cases hb with
    | @int64 v rows hv =>
      have hconverted := Refines.float64 (hv.convert intAsF64 rfl)
      have hcells : (ColumnBuilder.float64 (rows.map (·.map intAsF64))).cells =
          l.map (·.map (promoted .int64 "float64")) := by
        rw [← hstores.cells, ColumnBuilder.cells, ColumnBuilder.cells, List.map_map, List.map_map]
        refine List.map_congr_left fun row _ => ?_
        cases row <;> simp [promoted]
      exact hconverted.holds ⟨trivial, rfl, hcells⟩ hfits
  · have hid : ∀ value, promoted (ColumnBuffers.string v).kind target value = value :=
      fun _ => rfl
    obtain ⟨b, hb, hstores, hfits⟩ := h
    rw [hresult, hself hid]
    cases hb with
    | @string v rows hv =>
      rw [← hstores.cells]
      exact holds_encode hv hfits
  · rw [hresult, hself hid]
    exact h

/-- The upgrade to a dictionary keeps every cell: it is encoded and decodes to itself. -/
theorem Holds.tryUpgradeToDict (h : c.Holds l) (minRows : Nat) (maxRatio : F64) (maxSize : Nat) :
    (c.tryUpgradeToDict minRows maxRatio maxSize).Holds l := by
  cases c with
  | string v =>
    unfold ColumnBuffers.tryUpgradeToDict
    simp only
    split
    · exact h
    · split
      · exact h
      · obtain ⟨b, hb, hstores, hfits⟩ := h
        cases hb with
        | @string v rows hv =>
          rw [← hstores.cells]
          exact holds_encode hv hfits
  | _ => exact h

/-- Whatever operations lead to, the column packs the list. By induction on the operations, with one
lemma for each of them. -/
theorem Reached.holds (h : Reached c l) : c.Holds l := by
  induction h with
  | ofType ty => exact holds_ofType ty
  | pushValue value _ hfits ih => exact ih.pushValue value hfits
  | pushStr value _ hfits ih => exact ih.pushStr value hfits
  | pop _ ih => exact ih.pop
  | splitHead n _ hpos hn ih => exact (ih.splitOff hpos hn).1
  | splitRest n _ hpos hn ih => exact (ih.splitOff hpos hn).2
  | extendOwned _ _ hsame hfits ih ih' => exact ih.extendOwned ih' hsame hfits
  | @extendRefused c d l m _ _ hother ih _ =>
    rw [(extendOwned_snd c d).2 hother]
    exact ih
  | promoteToVariant target _ ih => exact ih.promoteToVariant target
  | tryUpgradeToDict minRows maxRatio maxSize _ ih =>
    exact ih.tryUpgradeToDict minRows maxRatio maxSize

/-- The column has the length of the list, and every index reads the list. -/
def Reads (c : ColumnBuffers) (l : List (Option TypedValue)) : Prop :=
  c.len = l.length ∧ ∀ i, c.getTypedValue i = l[i]?.join

/-- What a column stands for is what `get_typed_value` reads from it, row by row. -/
theorem Holds.toReads (h : c.Holds l) : c.Reads l := by
  refine ⟨h.len_eq, fun i => ?_⟩
  obtain ⟨b, hb, hstores, hfits⟩ := h
  rw [hb.getTypedValue hfits hstores.valid, hstores.cells]

/-- **A column is a list of optional values.** After any sequence of operations, whose string data
stays below 2^31 bytes, the column reads as the list, and appending a column is refused exactly when
it is of another variant. -/
theorem Reached.reads (h : Reached c l) :
    c.Reads l ∧ ∀ d, (c.extendOwned d).2 = .ok () ↔ SameVariant c d :=
  ⟨h.holds.toReads, fun d => (extendOwned_snd c d).1⟩

end ColumnBuffers

end Columns

section Examples

attribute [local instance] integerPlatform

open ColumnBuffers in
/-- Two strings around a null, upgraded to a dictionary and split after the first row: the rest
reads as the null and the second string. -/
theorem reached_reads_split :
    let c := (((ofType .string).pushStr (some "a")).pushStr none).pushStr (some "b")
    let rest := ((c.tryUpgradeToDict 0 (intAsF64 0) 16).splitOff 1).2
    rest.len = 2 ∧ rest.getTypedValue 1 = some (.str "b") := by
  have hreached := Reached.splitRest 1 (.tryUpgradeToDict 0 (intAsF64 0) 16
    (.pushStr (some "b") (.pushStr none (.pushStr (some "a") (.ofType .string)
      (by unfold Fits; decide)) (by unfold Fits; decide)) (by unfold Fits; decide)))
    (by decide) (by decide)
  obtain ⟨⟨hlen, hread⟩, -⟩ := Reached.reads hreached
  exact ⟨hlen, (hread 1).trans rfl⟩

end Examples

end Rypipe
