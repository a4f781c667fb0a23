import Rypipe.Columnar.Packed

/-! # Column buffers are lists of optional values

A dictionary's arena and side index pack an interner, and with that every builder over its buffers
refines the cell-level builder: each operation on the one is the same operation on the other
(`Refines.*`). The lists come out of `Reached`: what any sequence of operations leads to, with the
list it stands for. -/

namespace Rypipe

/-! ## Dictionaries -/

theorem utf8_empty : utf8 "" = [] := rfl

/-- Only the empty string has no bytes. -/
theorem length_utf8_pos {s : String} (h : s ≠ "") : 0 < (utf8 s).length := by
  rw [List.length_pos_iff]
  intro hnil
  have hread := fromUtf8_utf8 s
  rw [hnil, ← utf8_empty, fromUtf8_utf8, Option.some.injEq] at hread
  exact h hread.symm

/-- Distinct strings take at least a byte each, but for the empty one. -/
theorem length_le_bytes {values : List String} (h : values.Nodup) :
    values.length ≤ (values.map utf8).flatten.length + 1 := by
  have hcount : values.length ≤ (values.map utf8).flatten.length + values.count "" := by
    clear h
    induction values with
    | nil => simp
    | cons s rest ih =>
      by_cases hs : s = ""
      · subst hs
        rw [List.count_cons_self, List.map_cons, List.flatten_cons, List.length_append,
          List.length_cons]
        omega
      · have hpos := length_utf8_pos hs
        rw [List.count_cons_of_ne hs, List.map_cons, List.flatten_cons, List.length_append,
          List.length_cons]
        omega
  have hone := List.nodup_iff_count_le_one.mp h ""
  omega

namespace DictStore

variable {t u : DictStore} {d e : Interner String}

/-- The store packs an interner: the values in an arena, the codes as they come out of an `i32`. -/
structure Packs (t : DictStore) (d : Interner String) : Prop where
  data : t.data = (d.values.map utf8).flatten
  offsets : t.offsets = storedOffsets (d.values.map utf8)
  index : ∀ s, t.index.lookup s = (d.index.lookup s).map fun k : Nat => wrapI32 k

/-- The bytes can be counted in an `i32`. -/
def Fits (t : DictStore) : Prop := t.data.length < 2147483648

/-- The empty store packs the empty interner: no bytes, the one offset 0 and no codes. -/
theorem packs_empty : empty.Packs .empty := ⟨rfl, storedOffsets_nil.symm, fun _ => rfl⟩

/-- The next code is the number of values, as an `i32`: one less than the number of stored
offsets. -/
theorem Packs.nextCode (h : t.Packs d) :
    wrapI32 (wrapI32 t.offsets.length - 1) = wrapI32 d.values.length := by
  have hone : wrapI32 ((1 : Nat) : Int) = (1 : Nat) := wrapI32_of_lt (by decide)
  have hlen : (t.offsets.length : Int) - (1 : Nat) = d.values.length := by
    rw [h.offsets, storedOffsets, List.length_map, Arena.length_offsets, List.length_map]
    omega
  calc wrapI32 (wrapI32 t.offsets.length - 1)
      = wrapI32 (wrapI32 t.offsets.length - wrapI32 ((1 : Nat) : Int)) := by rw [hone]; rfl
    _ = wrapI32 (t.offsets.length - ((1 : Nat) : Int)) := wrapI32_sub _ _
    _ = wrapI32 d.values.length := by rw [hlen]

/-- `dict_code` interns: it finds the code of a value that the store has, and otherwise appends its
bytes and gives it the next code. -/
theorem Packs.dictCode (h : t.Packs d) (s : String) :
    (t.dictCode s).1 = wrapI32 (d.intern s).1 ∧ (t.dictCode s).2.Packs (d.intern s).2 := by
  have hindex := h.index s
  rcases hlookup : d.index.lookup s with _ | k
  · rw [hlookup, Option.map_none] at hindex
    have hdata : t.data ++ utf8 s = ((d.values ++ [s]).map utf8).flatten := by
      simp [h.data]
    rw [DictStore.dictCode, hindex, Interner.intern_of_lookup_none hlookup, h.nextCode]
    refine ⟨rfl, hdata, ?_, ?_⟩
    · rw [List.map_append, List.map_singleton, storedOffsets_concat, ← h.offsets, ← h.data]
    · intro b
      by_cases hb : b = s
      · subst hb
        rw [AList.lookup_insert, AList.lookup_insert, Option.map_some]
      · rw [AList.lookup_insert_ne hb, AList.lookup_insert_ne hb, h.index]
  · rw [hlookup, Option.map_some] at hindex
    rw [DictStore.dictCode, hindex, Interner.intern_of_lookup hlookup]
    exact ⟨rfl, h⟩

/-- Several values, one after the other, get the codes that interning the list gives, by induction
on it. -/
theorem Packs.dictCodes (h : t.Packs d) (values : List String) :
    (t.dictCodes values).1 = (d.internAll values).1.map (fun k : Nat => wrapI32 k) ∧
      (t.dictCodes values).2.Packs (d.internAll values).2 := by
  induction values generalizing t d with
  | nil => exact ⟨rfl, h⟩
  | cons s rest ih =>
    obtain ⟨hcode, hnext⟩ := h.dictCode s
    obtain ⟨hcodes, hlast⟩ := ih hnext
    refine ⟨?_, hlast⟩
    rw [DictStore.dictCodes, Interner.internAll]
    simp only [List.map_cons]
    rw [hcode, hcodes]

/-- The bytes of an entry. -/
theorem Packs.entry (h : t.Packs d) (hfits : t.Fits) {k : Nat} {s : String}
    (hs : d.values[k]? = some s) : t.entry k = some (utf8 s) := by
  have hbytes : (d.values.map utf8).flatten.length < 2147483648 := by
    rw [← h.data]
    exact hfits
  obtain ⟨first, last, hfirst, hlast, hslice⟩ := read_chunk hbytes
    (k := k) (c := utf8 s) (by rw [List.getElem?_map, hs, Option.map_some])
  rw [DictStore.entry, h.offsets, h.data, hfirst, hlast]
  simp [hslice]

/-- The values of a dictionary that fits are those of the interner, in the order of their codes. -/
theorem Packs.values (h : t.Packs d) (hfits : t.Fits) : t.values = d.values := by
  have hlen : t.offsets.length - 1 = d.values.length := by
    rw [h.offsets, storedOffsets, List.length_map, Arena.length_offsets, List.length_map,
      Nat.add_sub_cancel]
  rw [DictStore.values, hlen]
  apply List.ext_getElem?
  intro k
  rw [List.getElem?_map]
  by_cases hk : k < d.values.length
  · have hs := List.getElem?_eq_getElem hk
    rw [List.getElem?_range hk, Option.map_some, h.entry hfits hs, Option.bind_some,
      fromUtf8_utf8, Option.getD_some, hs]
  · rw [List.getElem?_eq_none (by simpa using hk), List.getElem?_eq_none (by simpa using hk),
      Option.map_none]

/-- A dictionary that fits has no more values than an `i32` can count. -/
theorem Packs.length_le (h : t.Packs d) (hfits : t.Fits) (hd : d.WF) :
    d.values.length ≤ 2147483648 := by
  have hbytes : (d.values.map utf8).flatten.length < 2147483648 := by
    rw [← h.data]
    exact hfits
  have hle := length_le_bytes hd.nodup
  omega

/-- A code in range reads back as the value of the interner. -/
theorem Packs.decode (h : t.Packs d) (hfits : t.Fits) (hd : d.WF) {k : Nat}
    (hk : k < d.values.length) : t.decode (wrapI32 k) = d.values[k]? := by
  have hs := List.getElem?_eq_getElem hk
  have hle := h.length_le hfits hd
  rw [DictStore.decode, i32AsUsize_wrapI32 (by omega), h.entry hfits hs, Option.bind_some,
    fromUtf8_utf8, hs]

/-- The codes as they are stored. -/
def storedCodes (ks : List (Option Nat)) : List (Option Int) :=
  ks.map fun k => k.map fun k : Nat => wrapI32 k

/-- The codes of a concatenation are concatenated. -/
theorem storedCodes_append (ks ms : List (Option Nat)) :
    storedCodes (ks ++ ms) = storedCodes ks ++ storedCodes ms := List.map_append

/-- Encoding rows after those already encoded appends their codes; a missing text appends a missing
code and interns nothing. -/
theorem packs_foldl_encode (rows : List (Option String)) {codes : NullableColumn Int}
    {ks : List (Option Nat)} (hcodes : codes.Packs (storedCodes ks)) (h : t.Packs d) :
    (rows.foldl encodeRow (codes, t)).1.Packs (storedCodes (ks ++ (d.internOpts rows).1)) ∧
      (rows.foldl encodeRow (codes, t)).2.Packs (d.internOpts rows).2 := by
  induction rows generalizing codes t ks d with
  | nil => exact ⟨by simpa [Interner.internOpts] using hcodes, h⟩
  | cons row rest ih =>
    cases row with
    | none =>
      have hnext : (codes.push none).Packs (storedCodes (ks ++ [none])) := by
        simpa [storedCodes] using hcodes.push none
      simpa [Interner.internOpts, encodeRow] using ih hnext h
    | some s =>
      obtain ⟨hcode, hstore⟩ := h.dictCode s
      have hnext : (codes.push (some (t.dictCode s).1)).Packs
          (storedCodes (ks ++ [some (d.intern s).1])) := by
        rw [hcode]
        simpa [storedCodes] using hcodes.push (some (wrapI32 (d.intern s).1))
      simpa [Interner.internOpts, encodeRow] using ih hnext hstore

/-- Encoding from scratch. -/
theorem packs_encode (rows : List (Option String)) :
    (encode rows).1.Packs (storedCodes (Interner.empty.internOpts rows).1) ∧
      (encode rows).2.Packs (Interner.empty.internOpts rows).2 := by
  have hstart : (PrimColumn.empty : NullableColumn Int).Packs (storedCodes []) :=
    PrimColumn.packs_empty
  exact packs_foldl_encode rows hstart packs_empty

/-- Codes pushed through a table of new codes read in the second store what they read in the first.
A code that the table lacks would be dropped; a covered one is always there. -/
theorem packs_translate (h : t.Packs d) (he : e.WF) (hu : u.Packs e)
    (hfits : u.Fits) {codes other : NullableColumn Int} {ks ms : List (Option Nat)}
    (hcodes : codes.Packs (storedCodes ks)) (hother : other.Packs (storedCodes ms))
    (hcov : e.Covers ms) :
    (other.iter.foldl (fun codes c => codes.push
        (c.bind fun code => (t.dictCodes u.values).1[i32AsUsize code]?)) codes).Packs
      (storedCodes (ks ++ ms.map (Interner.translate (d.internAll e.values).1))) := by
  have hle := hu.length_le hfits he
  have hmoved := hcodes.foldl_push
    (fun c => c.bind fun code => (t.dictCodes u.values).1[i32AsUsize code]?) (storedCodes ms)
  have hsame : (storedCodes ms).map
        (fun c => c.bind fun code => (t.dictCodes u.values).1[i32AsUsize code]?) =
      storedCodes (ms.map (Interner.translate (d.internAll e.values).1)) := by
    rw [storedCodes, storedCodes, List.map_map, List.map_map]
    refine List.map_congr_left fun c hc => ?_
    cases c with
    | none => rfl
    | some k =>
      have hk := hcov k hc
      simp only [Function.comp_apply, Option.map_some, Option.bind_some, Interner.translate]
      rw [i32AsUsize_wrapI32 (by omega), hu.values hfits, (h.dictCodes e.values).1,
        List.getElem?_map]
  rw [hother.iter, storedCodes_append, ← hsame]
  exact hmoved

end DictStore

/-! ## The builders -/

variable [Platform]

namespace ColumnBuffers

/-- The builder over buffers stands for the cell-level builder. -/
inductive Refines : ColumnBuffers → ColumnBuilder → Prop
  | string {v : StrColumn} {l : List (Option String)} (h : v.Packs l) :
      Refines (.string v) (.string l)
  | int64 {v : PrimColumn Int} {l : List (Option Int)} (h : v.Packs l) :
      Refines (.int64 v) (.int64 l)
  | float64 {v : PrimColumn F64} {l : List (Option F64)} (h : v.Packs l) :
      Refines (.float64 v) (.float64 l)
  | boolean {v : PrimColumn Bool} {l : List (Option Bool)} (h : v.Packs l) :
      Refines (.boolean v) (.boolean l)
  | date32 {v : PrimColumn Int} {l : List (Option Int)} (h : v.Packs l) :
      Refines (.date32 v) (.date32 l)
  | timestamp {unit : TimeUnit} {format : Option String} {v : PrimColumn Int}
      {l : List (Option Int)} (h : v.Packs l) :
      Refines (.timestamp unit format v) (.timestamp unit format l)
  | decimal128 {scale : Nat} {v : PrimColumn Int} {l : List (Option Int)} (h : v.Packs l) :
      Refines (.decimal128 scale v) (.decimal128 scale l)
  | dictionary {codes : NullableColumn Int} {t : DictStore} {ks : List (Option Nat)}
      {d : Interner String} (hcodes : codes.Packs (DictStore.storedCodes ks)) (h : t.Packs d) :
      Refines (.dictionary codes t) (.dictionary ks d)

/-- The string data of a column can be counted in an `i32`. -/
def Fits (c : ColumnBuffers) : Prop := c.textBytes < 2147483648

variable {c c' : ColumnBuffers} {b b' : ColumnBuilder}

/-- A new column of a type packs the new builder of that type. -/
theorem refines_ofType (ty : FieldType) : Refines (.ofType ty) (.ofType ty) := by
  cases ty with
  | string => exact .string StrColumn.packs_empty
  | dictionary => exact .dictionary PrimColumn.packs_empty DictStore.packs_empty
  | _ => constructor; exact PrimColumn.packs_empty

/-- Buffers and builder have the same number of rows. -/
theorem Refines.len_eq (h : Refines c b) : c.len = b.len := by
  cases h with
  | string h => exact h.len_eq
  | dictionary hcodes h =>
    rw [ColumnBuffers.len, hcodes.len_eq, DictStore.storedCodes, List.length_map]
    rfl
  | _ h => exact h.len_eq

/-- Reading a row of a column whose text fits gives the cell of the builder, variant by variant. -/
theorem Refines.getTypedValue (h : Refines c b) (hfits : c.Fits) (hvalid : b.Valid) (i : Nat) :
    c.getTypedValue i = b.cells[i]?.join := by
  have hread : ∀ {α : Type} (l : List (Option α)) (f : α → TypedValue),
      l[i]?.join.map f = (l.map (·.map f))[i]?.join := by
    intro α l f
    rw [List.getElem?_map]
    rcases l[i]? with _ | _ | v <;> rfl
  cases h with
  | string h => rw [ColumnBuffers.getTypedValue, h.get hfits, hread]; rfl
  | @dictionary codes t ks d hcodes h =>
    rw [ColumnBuffers.getTypedValue, hcodes.get, DictStore.storedCodes, List.getElem?_map,
      ColumnBuilder.cells, ← hread, Interner.decodeAll, List.getElem?_map]
    rcases hk : ks[i]? with _ | _ | k
    · rfl
    · rfl
    · have hlt := hvalid.2 k (List.mem_of_getElem? hk)
      have hdecode := h.decode hfits hvalid.1 hlt
      simp [hdecode]
  | _ h => rw [ColumnBuffers.getTypedValue, h.get, hread]; rfl

/-- Pushing a text is the same on the buffers as on the builder, variant by variant. -/
theorem Refines.pushStr (h : Refines c b) (value : Option String) :
    Refines (c.pushStr value) (b.pushStr value) := by
  cases h with
  | string h => exact .string (h.push value)
  | @dictionary codes t ks d hcodes h =>
    cases value with
    | none => exact .dictionary (by simpa [DictStore.storedCodes] using hcodes.push none) h
    | some s =>
      obtain ⟨hcode, hstore⟩ := h.dictCode s
      refine .dictionary ?_ hstore
      rw [hcode]
      simpa [DictStore.storedCodes] using hcodes.push (some (wrapI32 (d.intern s).1))
  | _ h => constructor; exact h.push _

/-- The arms for a native value, when the native arms agree: the value goes to a column of its type,
as text to a column of texts, and is missing elsewhere. -/
theorem Refines.pushNative (h : Refines c b) (text : String) {native : Option ColumnBuffers}
    {native' : Option ColumnBuilder}
    (hnative : (native = none ∧ native' = none) ∨
      ∃ n n', native = some n ∧ native' = some n' ∧ Refines n n') :
    Refines (c.pushNative text native) (b.pushNative text native') := by
  rcases hnative with ⟨rfl, rfl⟩ | ⟨n, n', rfl, rfl, hn⟩
  · cases h with
    | string h => exact .string (h.push _)
    | @dictionary codes t ks d hcodes h =>
      obtain ⟨hcode, hstore⟩ := h.dictCode text
      refine .dictionary ?_ hstore
      rw [hcode]
      simpa [DictStore.storedCodes] using hcodes.push (some (wrapI32 (d.intern text).1))
    | _ h => constructor; exact h.push _
  · exact hn

/-- So is pushing a value, with the same conversions. A native value goes to a column of its type as
it is and to a string column as its text; in a column of another type it leaves a missing cell on
both sides. -/
theorem Refines.pushValue (h : Refines c b) (value : Value) :
    Refines (c.pushValue value) (b.pushValue value) := by
  cases value with
  | null => exact h.pushStr none
  | str s => exact h.pushStr (some s)
  | int64 i =>
    refine h.pushNative _ ?_
    cases h with
    | int64 h => exact .inr ⟨_, _, rfl, rfl, .int64 (h.push _)⟩
    | float64 h => exact .inr ⟨_, _, rfl, rfl, .float64 (h.push _)⟩
    | _ => exact .inl ⟨rfl, rfl⟩
  | float64 f =>
    refine h.pushNative _ ?_
    cases h with
    | int64 h => exact .inr ⟨_, _, rfl, rfl, .int64 (h.push _)⟩
    | float64 h => exact .inr ⟨_, _, rfl, rfl, .float64 (h.push _)⟩
    | _ => exact .inl ⟨rfl, rfl⟩
  | bool v =>
    refine h.pushNative _ ?_
    cases h with
    | boolean h => exact .inr ⟨_, _, rfl, rfl, .boolean (h.push _)⟩
    | _ => exact .inl ⟨rfl, rfl⟩
  | date32 d =>
    refine h.pushNative _ ?_
    cases h with
    | date32 h => exact .inr ⟨_, _, rfl, rfl, .date32 (h.push _)⟩
    | int64 h => exact .inr ⟨_, _, rfl, rfl, .int64 (h.push _)⟩
    | float64 h => exact .inr ⟨_, _, rfl, rfl, .float64 (h.push _)⟩
    | _ => exact .inl ⟨rfl, rfl⟩
  | timestamp t =>
    -- The text is formatted in the unit of the column, which both have.
    cases h with
    | timestamp h => exact .timestamp (h.push _)
    | int64 h => exact .int64 (h.push _)
    | float64 h => exact .float64 (h.push _)
    | string h => exact (Refines.string h).pushNative _ (.inl ⟨rfl, rfl⟩)
    | boolean h => exact .boolean (h.push _)
    | date32 h => exact .date32 (h.push _)
    | decimal128 h => exact .decimal128 (h.push _)
    | dictionary hcodes h =>
      exact (Refines.dictionary hcodes h).pushNative _ (.inl ⟨rfl, rfl⟩)

/-- So is `pop`, as long as the text fits: the buffers cut it at a stored offset. -/
theorem Refines.pop (h : Refines c b) (hfits : c.Fits) : Refines c.pop b.pop := by
  cases h with
  | string h => exact .string (h.pop hfits)
  | @dictionary codes t ks d hcodes h =>
    refine .dictionary ?_ h
    simpa [DictStore.storedCodes, List.map_dropLast] using hcodes.popCode
  | _ h => constructor; exact h.pop

/-- Both halves of a split refine the halves of the builder, where the split is at a row of the
column. -/
theorem Refines.splitOff (h : Refines c b) (hfits : c.Fits) {n : Nat} (hpos : 1 ≤ n)
    (hn : n ≤ c.len) :
    Refines (c.splitOff n).1 (b.splitOff n).1 ∧ Refines (c.splitOff n).2 (b.splitOff n).2 := by
  rw [h.len_eq] at hn
  cases h with
  | string h =>
    obtain ⟨hhead, hrest⟩ := h.splitOff hfits hpos hn
    exact ⟨.string hhead, .string hrest⟩
  | @dictionary codes t ks d hcodes h =>
    obtain ⟨hhead, hrest⟩ := hcodes.splitOff (n := n) (by
      rw [DictStore.storedCodes, List.length_map]
      exact hn)
    refine ⟨.dictionary ?_ h, .dictionary ?_ h⟩
    · simpa [DictStore.storedCodes, List.map_take] using hhead
    · simpa [DictStore.storedCodes, List.map_drop] using hrest
  | _ h =>
    obtain ⟨hhead, hrest⟩ := h.splitOff hn
    exact ⟨by constructor; exact hhead, by constructor; exact hrest⟩

/-- Both have the same variant key. -/
theorem Refines.variantKey_eq (h : Refines c b) : c.variantKey = b.variantKey := by
  cases h <;> rfl

/-- Encoding the texts of a column gives the dictionary that the builder would make of its list. -/
theorem Refines.encode {v : StrColumn} {l : List (Option String)} (h : v.Packs l)
    (hfits : v.Fits) :
    Refines (.dictionary (DictStore.encode v.iter).1 (DictStore.encode v.iter).2)
      (ColumnBuilder.encodeStrings l) := by
  rw [h.iter hfits]
  obtain ⟨hcodes, hstore⟩ := DictStore.packs_encode l
  exact .dictionary hcodes hstore

/-- Appending succeeds on the one when it does on the other; a refused column is left alone. The
variants are compared as the code compares them, with unit, scale and the dictionary that a column
without rows may adopt. -/
theorem Refines.extendOwned {d : ColumnBuffers} {e : ColumnBuilder} (h : Refines c b)
    (h' : Refines d e) (hfits : d.Fits) (hvalid : b.Valid) (hvalid' : e.Valid) :
    (∃ b', b.extendOwned e = .ok b' ∧ Refines (c.extendOwned d).1 b' ∧
      (c.extendOwned d).2 = .ok ()) ∨
    (∃ err, b.extendOwned e = .error err ∧ c.extendOwned d = (c, .error err)) := by
  cases h with
  | string h =>
    cases h' with
    | string h' => exact .inl ⟨_, rfl, .string (h.takeIn h'), rfl⟩
    | _ => exact .inr ⟨_, rfl, rfl⟩
  | int64 h =>
    cases h' with
    | int64 h' => exact .inl ⟨_, rfl, .int64 (h.takeIn h'), rfl⟩
    | _ => exact .inr ⟨_, rfl, rfl⟩
  | float64 h =>
    cases h' with
    | float64 h' => exact .inl ⟨_, rfl, .float64 (h.takeIn h'), rfl⟩
    | _ => exact .inr ⟨_, rfl, rfl⟩
  | boolean h =>
    cases h' with
    | boolean h' => exact .inl ⟨_, rfl, .boolean (h.takeIn h'), rfl⟩
    | _ => exact .inr ⟨_, rfl, rfl⟩
  | date32 h =>
    cases h' with
    | date32 h' => exact .inl ⟨_, rfl, .date32 (h.takeIn h'), rfl⟩
    | _ => exact .inr ⟨_, rfl, rfl⟩
  -- timestamps and decimals extend only in the same unit or scale
  | @timestamp ua fa v l h =>
    cases h' with
    | @timestamp ub fb w m h' =>
      unfold ColumnBuffers.extendOwned ColumnBuilder.extendOwned
      by_cases hunit : ua = ub
      · simp only [if_pos hunit]
        exact .inl ⟨_, rfl, .timestamp (h.takeIn h'), trivial⟩
      · simp only [if_neg hunit]
        exact .inr ⟨_, rfl, rfl⟩
    | _ => exact .inr ⟨_, rfl, rfl⟩
  | @decimal128 sa v l h =>
    cases h' with
    | @decimal128 sb w m h' =>
      unfold ColumnBuffers.extendOwned ColumnBuilder.extendOwned
      by_cases hscale : sa = sb
      · simp only [if_pos hscale]
        exact .inl ⟨_, rfl, .decimal128 (h.takeIn h'), trivial⟩
      · simp only [if_neg hscale]
        exact .inr ⟨_, rfl, rfl⟩
    | _ => exact .inr ⟨_, rfl, rfl⟩
  | @dictionary codes t ks dict hcodes h =>
    cases h' with
    | @dictionary other u ms dict' hother hu =>
      unfold ColumnBuffers.extendOwned ColumnBuilder.extendOwned
      have hlen : codes.len = ks.length := by
        rw [hcodes.len_eq, DictStore.storedCodes, List.length_map]
      -- an empty column takes the other dictionary over, and any other translates the codes
      by_cases hempty : ks = []
      · have hzero : codes.len = 0 := by rw [hlen, hempty, List.length_nil]
        simp only [if_pos hzero, hempty, List.isEmpty_nil, if_true]
        exact .inl ⟨_, rfl, .dictionary hother hu, trivial⟩
      · have hsome : codes.len ≠ 0 := by rw [hlen]; simpa using hempty
        have hks : ks.isEmpty = false := by simpa using hempty
        simp only [if_neg hsome, hks, Bool.false_eq_true, if_false]
        refine .inl ⟨_, rfl, .dictionary ?_ ?_, trivial⟩
        · exact DictStore.packs_translate h hvalid'.1 hu hfits hcodes hother hvalid'.2
        · rw [hu.values hfits]
          exact (h.dictCodes _).2
    | _ => exact .inr ⟨_, rfl, rfl⟩

end ColumnBuffers

end Rypipe
