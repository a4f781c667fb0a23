import Rypipe.Foundation.Interner
import Rypipe.Columnar.ScalarParse
import Mathlib.Logic.Function.Iterate

/-! # Column builders

The per-column stores of the engine (`columnar.rs`), one variant for each storage type, at the level
of their cells: a column is the list of its optional values, a dictionary column the list of its
codes together with the interner of its values. How the cells are laid out in buffers (validity
bits, byte arenas and offsets) is not part of this module.

What a column of a given type keeps of a pushed value is stated once, by `store`; every operation
is then described by what it does to `ColumnBuilder.cells`. -/

namespace Rypipe

variable [Platform]

/-- A logical value produced by a decoder. -/
inductive Value where
  | str (s : String)
  | int64 (i : Int)
  | float64 (f : F64)
  | bool (b : Bool)
  /-- Days since the Unix epoch. -/
  | date32 (d : Int)
  /-- A raw integer in the column's unit. -/
  | timestamp (t : Int)
  | null

/-- `as_str`. -/
def Value.asStr : Value → Option String
  | .str s => some s
  | _ => none

/-- A typed view of a stored value. -/
inductive TypedValue where
  | str (s : String)
  | int64 (i : Int)
  | float64 (f : F64)
  | bool (b : Bool)
  | date32 (d : Int)
  | timestamp (t : Int) (unit : TimeUnit)
  | decimal128 (v : Int) (scale : Nat)

/-- Per-column builder: stores all values. -/
inductive ColumnBuilder where
  | string (v : List (Option String))
  | int64 (v : List (Option Int))
  | float64 (v : List (Option F64))
  | boolean (v : List (Option Bool))
  | date32 (v : List (Option Int))
  | timestamp (unit : TimeUnit) (format : Option String) (v : List (Option Int))
  | decimal128 (scale : Nat) (v : List (Option Int))
  | dictionary (codes : List (Option Nat)) (dict : Interner String)

namespace ColumnBuilder

/-- An empty column of the given type (`with_capacity`). -/
def ofType : FieldType → ColumnBuilder
  | .string => .string []
  | .int64 => .int64 []
  | .float64 => .float64 []
  | .boolean => .boolean []
  | .date32 => .date32 []
  | .timestamp unit format => .timestamp unit format []
  | .decimal128 scale => .decimal128 scale []
  | .dictionary => .dictionary [] .empty

/-- Push a borrowed optional string, parsed according to the column type. -/
def pushStr (c : ColumnBuilder) (value : Option String) : ColumnBuilder :=
  match c with
  | .string v => .string (v ++ [value])
  | .int64 v => .int64 (v ++ [value.bind parseI64])
  | .float64 v => .float64 (v ++ [value.bind parseF64])
  | .boolean v => .boolean (v ++ [value.bind parseBool])
  | .date32 v => .date32 (v ++ [value.bind parseDate32])
  | .timestamp unit format v =>
      .timestamp unit format (v ++ [value.bind fun s => parseTimestamp s unit format])
  | .decimal128 scale v =>
      .decimal128 scale (v ++ [value.bind fun s => parseDecimal128 s scale])
  | .dictionary codes dict =>
      match value with
      | some s => .dictionary (codes ++ [some (dict.intern s).1]) (dict.intern s).2
      | none => .dictionary (codes ++ [none]) dict

/-- Push an owned optional string. -/
def push (c : ColumnBuilder) (value : Option String) : ColumnBuilder := c.pushStr value

/-- The arms of `push_value` for a native value that string and dictionary columns keep as `text`:
`native` is what a column of a native type makes of it, and every other column gets a null. -/
def pushNative (c : ColumnBuilder) (text : String) (native : Option ColumnBuilder) :
    ColumnBuilder :=
  match native with
  | some c' => c'
  | none =>
      match c with
      | .string v => .string (v ++ [some text])
      | .dictionary codes dict =>
          .dictionary (codes ++ [some (dict.intern text).1]) (dict.intern text).2
      | c => c.push none

/-- The time unit carried by the builder, if any. -/
def unit : ColumnBuilder → Option TimeUnit
  | .timestamp unit _ _ => some unit
  | _ => none

/-- Push a logical value: typed columns take their native variants directly, strings are parsed
according to the column type, and what does not fit becomes null. -/
def pushValue (c : ColumnBuilder) : Value → ColumnBuilder
  | .null => c.push none
  | .str s => c.pushStr (some s)
  | .int64 i => c.pushNative (toString i) <|
      match c with
      | .int64 v => some (.int64 (v ++ [some i]))
      | .float64 v => some (.float64 (v ++ [some (intAsF64 i)]))
      | _ => none
  | .float64 f => c.pushNative (formatF64 f) <|
      match c with
      | .float64 v => some (.float64 (v ++ [some f]))
      | .int64 v => some (.int64 (v ++ [some (f64AsI64 f)]))
      | _ => none
  | .bool b => c.pushNative (formatBool b) <|
      match c with
      | .boolean v => some (.boolean (v ++ [some b]))
      | _ => none
  | .date32 d => c.pushNative (formatDate32 d) <|
      match c with
      | .date32 v => some (.date32 (v ++ [some d]))
      | .int64 v => some (.int64 (v ++ [some d]))
      | .float64 v => some (.float64 (v ++ [some (intAsF64 d)]))
      | _ => none
  | .timestamp t =>
      -- the text is formatted in the column's unit, which only timestamp columns have
      let text := match c.unit with
        | some unit => formatTimestamp t unit
        | none => toString t
      c.pushNative text <|
        match c with
        | .timestamp unit format v => some (.timestamp unit format (v ++ [some t]))
        | .int64 v => some (.int64 (v ++ [some t]))
        | .float64 v => some (.float64 (v ++ [some (intAsF64 t)]))
        | _ => none

/-- Drop the last cell. -/
def pop : ColumnBuilder → ColumnBuilder
  | .string v => .string v.dropLast
  | .int64 v => .int64 v.dropLast
  | .float64 v => .float64 v.dropLast
  | .boolean v => .boolean v.dropLast
  | .date32 v => .date32 v.dropLast
  | .timestamp unit format v => .timestamp unit format v.dropLast
  | .decimal128 scale v => .decimal128 scale v.dropLast
  | .dictionary codes dict => .dictionary codes.dropLast dict

/-- The number of cells. -/
def len : ColumnBuilder → Nat
  | .string v => v.length
  | .int64 v => v.length
  | .float64 v => v.length
  | .boolean v => v.length
  | .date32 v => v.length
  | .timestamp _ _ v => v.length
  | .decimal128 _ v => v.length
  | .dictionary codes _ => codes.length

/-- The first `n` cells (what `split_off(n)` returns). -/
def takeRows (n : Nat) : ColumnBuilder → ColumnBuilder
  | .string v => .string (v.take n)
  | .int64 v => .int64 (v.take n)
  | .float64 v => .float64 (v.take n)
  | .boolean v => .boolean (v.take n)
  | .date32 v => .date32 (v.take n)
  | .timestamp unit format v => .timestamp unit format (v.take n)
  | .decimal128 scale v => .decimal128 scale (v.take n)
  | .dictionary codes dict => .dictionary (codes.take n) dict

/-- The cells after the first `n` (what `split_off(n)` leaves). -/
def dropRows (n : Nat) : ColumnBuilder → ColumnBuilder
  | .string v => .string (v.drop n)
  | .int64 v => .int64 (v.drop n)
  | .float64 v => .float64 (v.drop n)
  | .boolean v => .boolean (v.drop n)
  | .date32 v => .date32 (v.drop n)
  | .timestamp unit format v => .timestamp unit format (v.drop n)
  | .decimal128 scale v => .decimal128 scale (v.drop n)
  | .dictionary codes dict => .dictionary (codes.drop n) dict

/-- `split_off`: the first `n` cells, and the rest. -/
def splitOff (c : ColumnBuilder) (n : Nat) : ColumnBuilder × ColumnBuilder :=
  (c.takeRows n, c.dropRows n)

/-- The stored values, a dictionary column's decoded through its dictionary. -/
def cells : ColumnBuilder → List (Option TypedValue)
  | .string v => v.map (·.map .str)
  | .int64 v => v.map (·.map .int64)
  | .float64 v => v.map (·.map .float64)
  | .boolean v => v.map (·.map .bool)
  | .date32 v => v.map (·.map .date32)
  | .timestamp unit _ v => v.map (·.map fun t => .timestamp t unit)
  | .decimal128 scale v => v.map (·.map fun n => .decimal128 n scale)
  | .dictionary codes dict => (dict.decodeAll codes).map (·.map .str)

/-- The type a column stores. -/
def kind : ColumnBuilder → FieldType
  | .string _ => .string
  | .int64 _ => .int64
  | .float64 _ => .float64
  | .boolean _ => .boolean
  | .date32 _ => .date32
  | .timestamp unit format _ => .timestamp unit format
  | .decimal128 scale _ => .decimal128 scale
  | .dictionary _ _ => .dictionary

/-- A dictionary column is valid when its index is the inverse of its values and every code is the
code of a value; the other columns always are. -/
def Valid : ColumnBuilder → Prop
  | .dictionary codes dict => dict.WF ∧ dict.Covers codes
  | _ => True

end ColumnBuilder

/-- The text string and dictionary columns keep of a value. -/
def valueText : Value → Option String
  | .null => none
  | .str s => some s
  | .int64 i => some (toString i)
  | .float64 f => some (formatF64 f)
  | .bool b => some (formatBool b)
  | .date32 d => some (formatDate32 d)
  | .timestamp t => some (toString t)

/-- What a column of type `ty` keeps of a value. -/
def store (ty : FieldType) (value : Value) : Option TypedValue :=
  match ty with
  | .string | .dictionary => (valueText value).map .str
  | .int64 =>
      match value with
      | .str s => (parseI64 s).map .int64
      | .int64 i | .date32 i | .timestamp i => some (.int64 i)
      | .float64 f => some (.int64 (f64AsI64 f))
      | .bool _ | .null => none
  | .float64 =>
      match value with
      | .str s => (parseF64 s).map .float64
      | .float64 f => some (.float64 f)
      | .int64 i | .date32 i | .timestamp i => some (.float64 (intAsF64 i))
      | .bool _ | .null => none
  | .boolean =>
      match value with
      | .str s => (parseBool s).map .bool
      | .bool b => some (.bool b)
      | _ => none
  | .date32 =>
      match value with
      | .str s => (parseDate32 s).map .date32
      | .date32 d => some (.date32 d)
      | _ => none
  | .timestamp unit format =>
      match value with
      | .str s => (parseTimestamp s unit format).map fun t => .timestamp t unit
      | .timestamp t => some (.timestamp t unit)
      | _ => none
  | .decimal128 scale =>
      match value with
      | .str s => (parseDecimal128 s scale).map fun n => .decimal128 n scale
      | _ => none

/-- No column keeps anything of a null. -/
@[simp] theorem store_null (ty : FieldType) : store ty .null = none := by
  cases ty <;> rfl

namespace ColumnBuilder

/-- The number of cells is the length of the list of cells. -/
@[simp] theorem length_cells (c : ColumnBuilder) : c.cells.length = c.len := by
  cases c <;> simp [cells, len]

@[simp] theorem kind_ofType (ty : FieldType) : (ofType ty).kind = ty := by
  cases ty <;> rfl

@[simp] theorem cells_ofType (ty : FieldType) : (ofType ty).cells = [] := by
  cases ty <;> rfl

/-- A new column is valid. -/
theorem ofType_valid (ty : FieldType) : (ofType ty).Valid := by
  cases ty
  case dictionary => exact ⟨Interner.empty_wf, fun k hk => by simp at hk⟩
  all_goals trivial

/-- The column is valid, of type `ty`, and its cells are `cells`. -/
structure Stores (c : ColumnBuilder) (ty : FieldType) (cells : List (Option TypedValue)) :
    Prop where
  valid : c.Valid
  kind : c.kind = ty
  cells : c.cells = cells

/-- A valid column stores its own cells. -/
theorem stores_self {c : ColumnBuilder} (hc : c.Valid) : c.Stores c.kind c.cells :=
  ⟨hc, rfl, rfl⟩

/-- A new column stores no cell. -/
theorem ofType_stores (ty : FieldType) : (ofType ty).Stores ty [] :=
  ⟨ofType_valid ty, kind_ofType ty, cells_ofType ty⟩

namespace Stores

variable {c : ColumnBuilder} {ty : FieldType} {cs : List (Option TypedValue)}

/-- A column has as many rows as it stores cells. -/
theorem len_eq (h : c.Stores ty cs) : c.len = cs.length := by
  rw [← length_cells, h.cells]

/-- A pushed string appends the cell the column's type keeps of it. -/
theorem pushStr (h : c.Stores ty cs) (value : Option String) :
    (c.pushStr value).Stores ty (cs ++ [value.bind fun s => store ty (.str s)]) := by
  obtain ⟨hc, rfl, rfl⟩ := h
  cases c with
  | dictionary codes dict =>
      obtain ⟨hwf, hcov⟩ := hc
      cases value with
      | none =>
          refine ⟨⟨hwf, fun k hk => hcov k ?_⟩, rfl, ?_⟩
          · simpa using hk
          · simp [ColumnBuilder.pushStr, ColumnBuilder.cells, Interner.decodeAll]
      | some s =>
          refine ⟨⟨Interner.intern_wf hwf s, Interner.covers_append_intern hwf hcov s⟩, rfl, ?_⟩
          simp only [ColumnBuilder.pushStr, ColumnBuilder.cells]
          rw [Interner.decodeAll_append_intern hwf hcov]
          simp [ColumnBuilder.kind, store, valueText]
  | _ =>
      refine ⟨trivial, rfl, ?_⟩
      cases value <;>
        simp [ColumnBuilder.pushStr, ColumnBuilder.cells, ColumnBuilder.kind, store, valueText]

/-- A null appends an empty cell. -/
theorem pushNull (h : c.Stores ty cs) : (c.push none).Stores ty (cs ++ [none]) := h.pushStr none

/-- A native value kept as text appends that text to a string or dictionary column and a null to
any other. -/
theorem pushNative_none (h : c.Stores ty cs) (text : String) :
    (c.pushNative text none).Stores ty
      (cs ++ [if ty = .string ∨ ty = .dictionary then some (.str text) else none]) := by
  obtain ⟨hc, rfl, rfl⟩ := h
  cases c with
  | dictionary codes dict =>
      obtain ⟨hwf, hcov⟩ := hc
      refine ⟨⟨Interner.intern_wf hwf text, Interner.covers_append_intern hwf hcov text⟩, rfl, ?_⟩
      simp only [pushNative, ColumnBuilder.cells]
      rw [Interner.decodeAll_append_intern hwf hcov]
      simp [ColumnBuilder.kind]
  | _ =>
      exact ⟨trivial, rfl, by simp [pushNative, push, ColumnBuilder.pushStr, ColumnBuilder.cells,
        ColumnBuilder.kind]⟩

/-- A native value appends the cell its type keeps of it, when the native arms and the text agree
with `store`. -/
theorem pushNative (h : c.Stores ty cs) {text : String} {native : Option ColumnBuilder}
    {value : Value} (hsome : ∀ c', native = some c' → c'.Stores ty (cs ++ [store ty value]))
    (hnone : native = none →
      store ty value = if ty = .string ∨ ty = .dictionary then some (.str text) else none) :
    (c.pushNative text native).Stores ty (cs ++ [store ty value]) := by
  cases native with
  | some c' => exact hsome c' rfl
  | none =>
      rw [hnone rfl]
      exact h.pushNative_none text

/-- Pushing a value appends the cell the column's type keeps of it. -/
theorem pushValue (h : c.Stores ty cs) (value : Value) :
    (c.pushValue value).Stores ty (cs ++ [store ty value]) := by
  cases value with
  | null => simpa [ColumnBuilder.pushValue] using h.pushNull
  | str s => simpa [ColumnBuilder.pushValue] using h.pushStr (some s)
  | _ =>
      refine h.pushNative ?_ ?_ <;> obtain ⟨hc, rfl, rfl⟩ := h <;> cases c <;>
        simp [ColumnBuilder.cells, ColumnBuilder.kind, store, valueText, unit] <;>
          exact ⟨trivial, rfl, by simp [ColumnBuilder.cells]⟩

/-- Popping drops the last cell. -/
theorem pop (h : c.Stores ty cs) : c.pop.Stores ty cs.dropLast := by
  obtain ⟨hc, rfl, rfl⟩ := h
  cases c with
  | dictionary codes dict =>
      refine ⟨⟨hc.1, fun k hk => hc.2 k (List.dropLast_subset codes hk)⟩, rfl, ?_⟩
      simp [ColumnBuilder.pop, ColumnBuilder.cells, Interner.decodeAll, List.map_dropLast]
  | _ => exact ⟨trivial, rfl, by simp [ColumnBuilder.pop, ColumnBuilder.cells, List.map_dropLast]⟩

/-- The first part of a split holds the first cells. -/
theorem takeRows (h : c.Stores ty cs) (n : Nat) : (c.takeRows n).Stores ty (cs.take n) := by
  obtain ⟨hc, rfl, rfl⟩ := h
  cases c with
  | dictionary codes dict =>
      refine ⟨⟨hc.1, fun k hk => hc.2 k (List.mem_of_mem_take hk)⟩, rfl, ?_⟩
      simp [ColumnBuilder.takeRows, ColumnBuilder.cells, Interner.decodeAll, List.map_take]
  | _ =>
      exact ⟨trivial, rfl, by simp [ColumnBuilder.takeRows, ColumnBuilder.cells, List.map_take]⟩

/-- The second part of a split holds the remaining cells. -/
theorem dropRows (h : c.Stores ty cs) (n : Nat) : (c.dropRows n).Stores ty (cs.drop n) := by
  obtain ⟨hc, rfl, rfl⟩ := h
  cases c with
  | dictionary codes dict =>
      refine ⟨⟨hc.1, fun k hk => hc.2 k (List.mem_of_mem_drop hk)⟩, rfl, ?_⟩
      simp [ColumnBuilder.dropRows, ColumnBuilder.cells, Interner.decodeAll, List.map_drop]
  | _ =>
      exact ⟨trivial, rfl, by simp [ColumnBuilder.dropRows, ColumnBuilder.cells, List.map_drop]⟩

end Stores

/-- Push `n` nulls (`for _ in 0..n { b.push(None) }`). -/
def pushNulls (n : Nat) (c : ColumnBuilder) : ColumnBuilder := (fun c => c.push none)^[n] c

/-- Filling a column adds missing cells at its end. -/
theorem Stores.pushNulls {c : ColumnBuilder} {ty : FieldType} {cs : List (Option TypedValue)}
    (h : c.Stores ty cs) (n : Nat) : (c.pushNulls n).Stores ty (cs ++ List.replicate n none) := by
  induction n generalizing c cs with
  | zero => simpa [ColumnBuilder.pushNulls] using h
  | succ n ih =>
      have hrest := ih h.pushNull
      rw [List.append_assoc, List.singleton_append, ← List.replicate_succ] at hrest
      exact hrest

end ColumnBuilder

end Rypipe
