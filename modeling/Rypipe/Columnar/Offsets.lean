import Rypipe.Columnar.ListModel
import Rypipe.Foundation.RowTable

/-! # Offsets past an `i32`

Text pushed to string and dictionary columns, with string columns appended to one another
(`TextRun`). What is stored are the offsets of the arena as they come out of an `i32`, whatever the
length (`run_string`, `run_dictionary`); they are the true ones, and with them everything that is
read through them, exactly when the bytes can be counted in an `i32` (`TextRun.right_iff`). -/

namespace Rypipe

/-- A list repeated `n` times is `n` times as long. -/
theorem length_flatten_replicate {α : Type} (n : Nat) (l : List α) :
    (List.replicate n l).flatten.length = n * l.length := by
  rw [List.length_flatten, List.map_replicate, List.sum_replicate_nat]

/-! ## Runs -/

/-- How a text column came about. -/
inductive TextRun where
  /-- A new string column. -/
  | string
  /-- A new dictionary column. -/
  | dictionary
  | push (run : TextRun) (value : Option String)
  | extend (run other : TextRun)

namespace TextRun

/-- The column is a string column. -/
def isString : TextRun → Bool
  | .string => true
  | .dictionary => false
  | .push run _ => run.isString
  | .extend run _ => run.isString

/-- Only string columns are appended, and only to string columns. -/
def ExtendsStrings : TextRun → Prop
  | .string | .dictionary => True
  | .push run _ => run.ExtendsStrings
  | .extend run other =>
      run.isString = true ∧ other.isString = true ∧ run.ExtendsStrings ∧ other.ExtendsStrings

/-- The strings pushed, in order. -/
def rows : TextRun → List (Option String)
  | .string | .dictionary => []
  | .push run value => run.rows ++ [value]
  | .extend run other => run.rows ++ other.rows

/-- The pieces of text a column of these rows keeps: a string column every row, a dictionary column
every string once. -/
def chunks (run : TextRun) : List (List UInt8) :=
  if run.isString then run.rows.map rowBytes else (run.rows.filterMap id).eraseDups.map utf8

/-- Strings pushed to a new string column, one after the other. -/
def pushAll (values : List (Option String)) : TextRun := values.foldl .push .string

/-- The last of some pushes comes after the others. -/
theorem pushAll_concat (values : List (Option String)) (value : Option String) :
    pushAll (values ++ [value]) = .push (pushAll values) value := by
  rw [pushAll, List.foldl_append]
  rfl

/-- A run of pushes has the rows it pushed. -/
theorem rows_pushAll (values : List (Option String)) : (pushAll values).rows = values := by
  induction values using List.reverseRecOn with
  | nil => rfl
  | append_singleton values value ih => rw [pushAll_concat, rows, ih]

/-- It makes a string column. -/
theorem isString_pushAll (values : List (Option String)) :
    (pushAll values).isString = true := by
  induction values using List.reverseRecOn with
  | nil => rfl
  | append_singleton values value ih => rw [pushAll_concat, isString, ih]

/-- It appends no other column. -/
theorem extendsStrings_pushAll (values : List (Option String)) :
    (pushAll values).ExtendsStrings := by
  induction values using List.reverseRecOn with
  | nil => trivial
  | append_singleton values value ih =>
    rw [pushAll_concat]
    exact ih

end TextRun

section Columns

variable [Platform]

/-- The column, or the error of the first operation that reports one. -/
def TextRun.run : TextRun → Except Error ColumnBuffers
  | .string => .ok (.ofType .string)
  | .dictionary => .ok (.ofType .dictionary)
  | .push run value => do
      let c ← run.run
      .ok (c.pushStr value)
  | .extend run other => do
      let c ← run.run
      let d ← other.run
      (c.extendOwned d).2
      .ok (c.extendOwned d).1

namespace ColumnBuffers

/-- The byte buffer of a text column. -/
def arena : ColumnBuffers → List UInt8
  | .string v => v.data
  | .dictionary _ dict => dict.data
  | _ => []

/-- The stored offsets of a text column. -/
def arenaOffsets : ColumnBuffers → List Int
  | .string v => v.offsets
  | .dictionary _ dict => dict.offsets
  | _ => []

/-- Every stored offset is the true byte position, and what reads, truncates or splits through the
offsets sees the strings pushed. -/
structure Right (c : ColumnBuffers) (chunks : List (List UInt8)) (rows : List (Option String)) :
    Prop where
  arena : c.arena = chunks.flatten
  offsets : c.arenaOffsets = (Arena.offsets chunks).map Int.ofNat
  reads : c.Reads (rows.map (·.map .str))
  pop : c.pop.Reads (rows.dropLast.map (·.map .str))
  splitOff : ∀ n, 1 ≤ n → n ≤ rows.length →
    (c.splitOff n).1.Reads ((rows.take n).map (·.map .str)) ∧
      (c.splitOff n).2.Reads ((rows.drop n).map (·.map .str))

/-- The bytes of a column that reads back when they fit are the condition for it to be right. -/
theorem right_iff_of_holds {c : ColumnBuffers} {chunks : List (List UInt8)}
    {rows : List (Option String)} (harena : c.arena = chunks.flatten)
    (hoffsets : c.arenaOffsets = storedOffsets chunks)
    (hholds : chunks.flatten.length < 2147483648 → c.Holds (rows.map (·.map .str))) :
    c.Right chunks rows ↔ chunks.flatten.length < 2147483648 := by
  constructor
  · intro hright
    exact (storedOffsets_exact chunks).mp (hoffsets.symm.trans hright.offsets)
  · intro hfits
    have h := hholds hfits
    refine ⟨harena, hoffsets.trans ((storedOffsets_exact chunks).mpr hfits), h.toReads, ?_, ?_⟩
    · rw [List.map_dropLast]
      exact h.pop.toReads
    · intro n hpos hn
      obtain ⟨hhead, hrest⟩ := h.splitOff hpos (by simpa using hn)
      rw [List.map_take, List.map_drop]
      exact ⟨hhead.toReads, hrest.toReads⟩

end ColumnBuffers

namespace TextRun

/-- A string column packs its rows, whatever their length: what is stored are the wrapped offsets,
and appending a column wraps its shifted offsets again. -/
theorem run_string {r : TextRun} (h : r.ExtendsStrings) (hstring : r.isString = true) :
    ∃ v, r.run = .ok (.string v) ∧ v.Packs r.rows := by
  induction r with
  | string => exact ⟨.empty, rfl, StrColumn.packs_empty⟩
  | dictionary => cases hstring
  | push r value ih =>
    obtain ⟨v, hrun, hv⟩ := ih h hstring
    refine ⟨v.push value, ?_, hv.push value⟩
    rw [run, hrun]
    rfl
  | extend r other ih ih' =>
    obtain ⟨-, hother, hr, ho⟩ := h
    obtain ⟨v, hrun, hv⟩ := ih hr hstring
    obtain ⟨w, hrun', hw⟩ := ih' ho hother
    refine ⟨_, ?_, hv.takeIn hw⟩
    rw [run, hrun, hrun']
    rfl

/-- A dictionary column packs the interner of its strings, in the order of their first occurrences.
By induction on the strings: a new one is appended to the arena with the wrapped offset, and a known
one only repeats its code. -/
theorem run_dictionary {r : TextRun} (h : r.ExtendsStrings) (hstring : r.isString = false) :
    ∃ codes t ks d, r.run = .ok (.dictionary codes t) ∧
      codes.Packs (DictStore.storedCodes ks) ∧ t.Packs d ∧
      (ColumnBuilder.dictionary ks d).Stores .dictionary (r.rows.map (·.map .str)) ∧
      d.values = (r.rows.filterMap id).eraseDups := by
  induction r with
  | string => cases hstring
  | dictionary =>
    exact ⟨.empty, .empty, [], .empty, rfl, PrimColumn.packs_empty, DictStore.packs_empty,
      ColumnBuilder.ofType_stores .dictionary, rfl⟩
  | push r value ih =>
    obtain ⟨codes, t, ks, d, hrun, hcodes, ht, hstores, hvalues⟩ := ih h hstring
    have hpush := hstores.pushStr value
    cases value with
    | none =>
      refine ⟨codes.push none, t, ks ++ [none], d, ?_, ?_, ht, ?_, ?_⟩
      · rw [run, hrun]
        rfl
      · simpa [DictStore.storedCodes] using hcodes.push none
      · rw [rows, List.map_append]
        exact hpush
      · simpa [rows] using hvalues
    | some s =>
      obtain ⟨hcode, hstore⟩ := ht.dictCode s
      refine ⟨codes.push (some (t.dictCode s).1), (t.dictCode s).2, ks ++ [some (d.intern s).1],
        (d.intern s).2, ?_, ?_, hstore, ?_, ?_⟩
      · rw [run, hrun]
        rfl
      · rw [hcode]
        simpa [DictStore.storedCodes] using hcodes.push (some (wrapI32 (d.intern s).1))
      · rw [rows, List.map_append]
        exact hpush
      -- the text is a new value of the dictionary exactly when no row had it
      · have hmem : s ∈ r.rows.filterMap id ↔ s ∈ d.values := by rw [hvalues, List.mem_eraseDups]
        have hrows : (r.push (some s)).rows.filterMap id = r.rows.filterMap id ++ [s] := by
          simp [rows]
        rw [hrows, eraseDups_concat, ← hvalues]
        rcases hlookup : d.index.lookup s with _ | k
        · have hnew := (hstores.valid.1.lookup_eq_none s).mp hlookup
          rw [Interner.intern_of_lookup_none hlookup, if_neg (hmem.not.mpr hnew)]
        · have hold : s ∈ d.values := by
            by_contra hnew
            rw [(hstores.valid.1.lookup_eq_none s).mpr hnew] at hlookup
            cases hlookup
          rw [Interner.intern_of_lookup hlookup, if_pos (hmem.mpr hold)]
  -- only string columns are extended in place
  | extend r other ih ih' =>
    rw [isString, h.1] at hstring
    cases hstring

/-- **Offsets wrap silently.** The operations never report an error, and the column they lead to has
the true offsets, and reads, truncates and splits by them, exactly when the bytes it keeps can be
counted in an `i32`. -/
theorem right_iff (r : TextRun) (h : r.ExtendsStrings) :
    (∀ c, r.run = .ok c → c.Right r.chunks r.rows) ↔ r.chunks.flatten.length < 2147483648 := by
  have hone : ∀ c, r.run = .ok c → ((∀ c, r.run = .ok c → c.Right r.chunks r.rows) ↔
      c.Right r.chunks r.rows) := by
    intro c hc
    constructor
    · exact fun hright => hright c hc
    · intro hright c' hc'
      rw [hc, Except.ok.injEq] at hc'
      subst hc'
      exact hright
  cases hstring : r.isString with
  | true =>
    obtain ⟨v, hrun, hv⟩ := run_string h hstring
    have hchunks : r.chunks = r.rows.map rowBytes := by rw [chunks, if_pos hstring]
    rw [hone _ hrun, hchunks]
    refine ColumnBuffers.right_iff_of_holds hv.data hv.offsets fun hfits => ?_
    rw [← hv.data] at hfits
    exact (ColumnBuffers.Refines.string hv).holds ⟨trivial, rfl, rfl⟩ hfits
  | false =>
    obtain ⟨codes, t, ks, d, hrun, hcodes, ht, hstores, hvalues⟩ := run_dictionary h hstring
    have hchunks : r.chunks = d.values.map utf8 := by
      rw [chunks, hstring, if_neg Bool.false_ne_true, hvalues]
    rw [hone _ hrun, hchunks]
    refine ColumnBuffers.right_iff_of_holds ht.data ht.offsets fun hfits => ?_
    rw [← ht.data] at hfits
    exact (ColumnBuffers.Refines.dictionary hcodes ht).holds hstores hfits

/-- A string column of more text than an `i32` counts is not right, though every push was
accepted. -/
theorem wraps_of_long {values : List (Option String)}
    (hlong : 2147483648 ≤ (values.map rowBytes).flatten.length) :
    ∃ r : TextRun, r.ExtendsStrings ∧ r.rows = values ∧
      ∃ c, r.run = .ok c ∧ ¬ c.Right r.chunks r.rows := by
  have hstring : (pushAll values).isString = true := isString_pushAll values
  have hextends := extendsStrings_pushAll values
  have hrows := rows_pushAll values
  obtain ⟨v, hrun, hv⟩ := run_string hextends hstring
  refine ⟨pushAll values, hextends, hrows, .string v, hrun, fun hright => ?_⟩
  have hchunks : (pushAll values).chunks = values.map rowBytes := by
    rw [chunks, if_pos hstring, hrows]
  rw [hrows] at hv
  have hoffsets := hright.offsets
  rw [hchunks] at hoffsets
  have hshort := (storedOffsets_exact _).mp (hv.offsets.symm.trans hoffsets)
  omega

end TextRun

end Columns

section Examples

attribute [local instance] integerPlatform

open TextRun in
/-- Two strings in a dictionary column, one of them twice. -/
theorem right_iff_three :
    ∃ c, ((((TextRun.dictionary).push (some "ab")).push (some "c")).push (some "ab")).run = .ok c ∧
      c.Right [utf8 "ab", utf8 "c"] [some "ab", some "c", some "ab"] :=
  ⟨_, rfl, (right_iff ((((TextRun.dictionary).push (some "ab")).push (some "c")).push (some "ab"))
    trivial).mpr (by decide) _ rfl⟩

/-- A string column of 2^31 one-byte strings: its last offset has wrapped, and nothing was
reported. -/
theorem right_fails :
    ¬ ∀ r : TextRun, r.ExtendsStrings → ∀ c, r.run = .ok c → c.Right r.chunks r.rows := by
  intro hall
  have hlong : 2147483648 ≤ ((List.replicate 2147483648 (some "a")).map rowBytes).flatten.length := by
    rw [List.map_replicate, length_flatten_replicate]
    exact Nat.le_mul_of_pos_right _ (by decide)
  obtain ⟨r, hextends, -, c, hrun, hwrong⟩ := TextRun.wraps_of_long hlong
  exact hwrong (hall r hextends c hrun)

end Examples

end Rypipe
