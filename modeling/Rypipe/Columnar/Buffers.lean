import Rypipe.Columnar.Variants
import Rypipe.Foundation.Arena
import Rypipe.Foundation.WordSet

/-! # Column buffers

The storage of the column builders as it is laid out (`columnar.rs`): one validity bit a row, packed
into bytes; a byte arena with 32-bit offsets for strings; plain vectors for the other types; and for
dictionaries a column of codes, an arena of values and a side index. `ColumnBuffers` are the
builders over these buffers; `ColumnBuilder` is what they stand for, which `Columnar/Packed.lean`
shows.

`i32` arithmetic wraps, as `as i32` does. Reading past the end of a vector, which panics, gives no
value here. -/

namespace Rypipe

/-- `x as i32`, and the wrapping `i32` operations on exact results. -/
@[irreducible] def wrapI32 (x : Int) : Int :=
  let r := x % 4294967296
  if r < 2147483648 then r else r - 4294967296

/-- `x as usize` of an `i32`. -/
def i32AsUsize (x : Int) : Nat :=
  if 0 ≤ x then x.toNat else (x + 18446744073709551616).toNat

/-- `s.as_bytes()`. -/
def utf8 (s : String) : List UInt8 := s.toByteArray.data.toList

/-- `std::str::from_utf8(bytes).ok()`. -/
def fromUtf8 (bytes : List UInt8) : Option String := String.fromUTF8? ⟨bytes.toArray⟩

/-! ## Validity bits -/

/-- Compact one-bit-per-row validity storage. -/
structure ValidityBitmap where
  /-- The bits, in bytes. -/
  bits : WordSet 8
  /-- The number of rows. -/
  len : Nat
  /-- The number of null rows. -/
  nullCount : Nat
  deriving DecidableEq, Repr

namespace ValidityBitmap

/-- No rows (`default`, `with_capacity`). -/
def empty : ValidityBitmap := ⟨.empty, 0, 0⟩

/-- `push`. -/
def push (v : ValidityBitmap) (valid : Bool) : ValidityBitmap :=
  let bits := if v.len % 8 = 0 then v.bits.pushWord else v.bits
  { bits := if valid then bits.insert v.len else bits
    len := v.len + 1
    nullCount := if valid then v.nullCount else v.nullCount + 1 }

/-- `pop`: the last bit and the rows before it; nothing happens without rows. -/
def pop (v : ValidityBitmap) : Option (Bool × ValidityBitmap) :=
  if v.len = 0 then none
  else
    let len := v.len - 1
    let valid := v.bits.test len
    let bits := v.bits.remove len
    some (valid,
      { bits := if len % 8 = 0 then bits.popWord else bits
        len := len
        nullCount := if valid then v.nullCount else v.nullCount - 1 })

/-- `is_valid`. -/
def isValid (v : ValidityBitmap) (i : Nat) : Bool := decide (i < v.len) && v.bits.test i

/-- Push `count` bits of another bitmap, from `start` on, one by one. -/
def pushRange (v other : ValidityBitmap) (start count : Nat) : ValidityBitmap :=
  (List.range' start count).foldl (fun v i => v.push (other.isValid i)) v

/-- `append`: whole bytes when the rows end at a byte, else bit by bit. -/
def append (v other : ValidityBitmap) : ValidityBitmap :=
  if v.len % 8 = 0 then
    let len := v.len + other.len
    let bits := v.bits.append other.bits
    { bits := if len % 8 ≠ 0 then bits.maskLast ((1#8 <<< (len % 8)) - 1#8) else bits
      len := len
      nullCount := v.nullCount + other.nullCount }
  else v.pushRange other 0 other.len

/-- `split_off`: the first `n` rows, and the remaining ones. -/
def splitOff (v : ValidityBitmap) (n : Nat) : ValidityBitmap × ValidityBitmap :=
  (empty.pushRange v 0 n, empty.pushRange v n (v.len - n))

end ValidityBitmap

/-! ## Flat columns -/

/-- Flat primitive-column storage: one contiguous data array and a validity bitmap. -/
structure PrimColumn (α : Type) where
  /-- The values, a default at null rows. -/
  data : List α
  /-- The validity bits. -/
  validity : ValidityBitmap

/-- The column of dictionary codes, laid out like a primitive column. -/
abbrev NullableColumn (α : Type) := PrimColumn α

namespace PrimColumn

variable {α : Type}

/-- No rows. -/
def empty : PrimColumn α := ⟨[], .empty⟩

/-- `push`. -/
def push [Inhabited α] (c : PrimColumn α) (v : Option α) : PrimColumn α :=
  ⟨c.data ++ [v.getD default], c.validity.push v.isSome⟩

/-- `pop`. -/
def pop (c : PrimColumn α) : PrimColumn α :=
  ⟨c.data.dropLast, (c.validity.pop.map Prod.snd).getD c.validity⟩

/-- `len`. -/
def len (c : PrimColumn α) : Nat := c.validity.len

/-- `get`. -/
def get (c : PrimColumn α) (i : Nat) : Option α :=
  if c.validity.isValid i then c.data[i]? else none

/-- `append`. -/
def append (c other : PrimColumn α) : PrimColumn α :=
  ⟨c.data ++ other.data, c.validity.append other.validity⟩

/-- `split_off`. -/
def splitOff (c : PrimColumn α) (n : Nat) : PrimColumn α × PrimColumn α :=
  let validity := c.validity.splitOff n
  (⟨c.data.take n, validity.1⟩, ⟨c.data.drop n, validity.2⟩)

/-- The rows in order (`iter`). -/
def iter (c : PrimColumn α) : List (Option α) := (List.range c.len).map c.get

end PrimColumn

/-- `NullableColumn::pop`: the values are touched only when a row was there. -/
def NullableColumn.popCode {α : Type} (c : NullableColumn α) : NullableColumn α :=
  match c.validity.pop with
  | none => c
  | some (_, validity) => ⟨c.data.dropLast, validity⟩

/-- Flat string column storage: one byte arena, offsets and validity. -/
structure StrColumn where
  /-- The bytes of all values. -/
  data : List UInt8
  /-- One more than rows: value `i` lies between offsets `i` and `i + 1`. -/
  offsets : List Int
  /-- The validity bits. -/
  validity : ValidityBitmap

namespace StrColumn

/-- `default`: not even a leading offset. -/
def blank : StrColumn := ⟨[], [], .empty⟩

/-- `with_capacity`. -/
def empty : StrColumn := ⟨[], [0], .empty⟩

/-- `push`. -/
def push (c : StrColumn) (v : Option String) : StrColumn :=
  let data := match v with
    | some s => c.data ++ utf8 s
    | none => c.data
  ⟨data, c.offsets ++ [wrapI32 data.length], c.validity.push v.isSome⟩

/-- `pop`. -/
def pop (c : StrColumn) : StrColumn :=
  match c.validity.pop with
  | none => c
  | some (_, validity) =>
    let offsets := c.offsets.dropLast
    ⟨c.data.take (i32AsUsize (offsets.getLast?.getD 0)), offsets, validity⟩

/-- `len`. -/
def len (c : StrColumn) : Nat := c.validity.len

/-- `split_off`: the first `n` rows, and the remaining ones with their offsets moved back. Where the offset
is not one into the bytes, the code panics; `take` and `drop` are total. -/
def splitOff (c : StrColumn) (n : Nat) : StrColumn × StrColumn :=
  if n = 0 then (blank, c)
  else if n = c.len then (c, { blank with offsets := [0] })
  else
    let splitOffset := i32AsUsize (c.offsets[n]?.getD 0)
    let validity := c.validity.splitOff n
    (⟨c.data.take splitOffset, c.offsets.take (n + 1), validity.1⟩,
      ⟨c.data.drop splitOffset,
        0 :: (c.offsets.drop (n + 1)).map (fun off => wrapI32 (off - wrapI32 splitOffset)),
        validity.2⟩)

/-- `get`. Where the two offsets are not a range of the bytes, the code panics; `slice` is total. -/
def get (c : StrColumn) (i : Nat) : Option String :=
  if c.validity.isValid i then do
    let first ← c.offsets[i]?
    let last ← c.offsets[i + 1]?
    fromUtf8 (slice c.data (i32AsUsize first) (i32AsUsize last))
  else none

/-- `append`. -/
def append (c other : StrColumn) : StrColumn :=
  let base := wrapI32 c.data.length
  ⟨c.data ++ other.data,
    c.offsets ++ (other.offsets.drop 1).map (fun o => wrapI32 (o + base)),
    c.validity.append other.validity⟩

/-- The rows in order (`iter`). -/
def iter (c : StrColumn) : List (Option String) := (List.range c.len).map c.get

end StrColumn

/-! ## Dictionaries -/

/-- The values of a dictionary column: an arena with offsets, and the code of each value. -/
structure DictStore where
  /-- Contiguous byte buffer of the values. -/
  data : List UInt8
  /-- Byte offsets of the entries. -/
  offsets : List Int
  /-- value → code side-index. -/
  index : StrMap Int

namespace DictStore

/-- No values. -/
def empty : DictStore := ⟨[], [0], ∅⟩

/-- `dict_code`: the code of a value, a new one if it has none yet. -/
def dictCode (t : DictStore) (v : String) : Int × DictStore :=
  match t.index.lookup v with
  | some code => (code, t)
  | none =>
    let code := wrapI32 (wrapI32 t.offsets.length - 1)
    let data := t.data ++ utf8 v
    (code, ⟨data, t.offsets ++ [wrapI32 data.length], t.index.insert v code⟩)

/-- The bytes of entry `i`. -/
def entry (t : DictStore) (i : Nat) : Option (List UInt8) := do
  let first ← t.offsets[i]?
  let last ← t.offsets[i + 1]?
  some (slice t.data (i32AsUsize first) (i32AsUsize last))

/-- The value of a code. -/
def decode (t : DictStore) (code : Int) : Option String :=
  (t.entry (i32AsUsize code)).bind fromUtf8

/-- Give every value its code, one after the other. -/
def dictCodes (t : DictStore) : List String → List Int × DictStore
  | [] => ([], t)
  | v :: vs =>
    let (code, t) := t.dictCode v
    let (codes, t) := t.dictCodes vs
    (code :: codes, t)

/-- The values in order, an undecodable one as the empty string. -/
def values (t : DictStore) : List String :=
  (List.range (t.offsets.length - 1)).map fun i => ((t.entry i).bind fromUtf8).getD ""

/-- Encode one more row. -/
def encodeRow (acc : NullableColumn Int × DictStore) :
    Option String → NullableColumn Int × DictStore
  | some s => (acc.1.push (some (acc.2.dictCode s).1), (acc.2.dictCode s).2)
  | none => (acc.1.push none, acc.2)

/-- Encode rows from scratch: the codes and the dictionary. -/
def encode (rows : List (Option String)) : NullableColumn Int × DictStore :=
  rows.foldl encodeRow (.empty, .empty)

end DictStore

/-! ## The builders -/

variable [Platform]

/-- `f64::default()`. -/
instance instInhabitedF64 : Inhabited F64 := ⟨intAsF64 0⟩

/-- Per-column builder over its buffers. -/
inductive ColumnBuffers where
  | string (v : StrColumn)
  | int64 (v : PrimColumn Int)
  | float64 (v : PrimColumn F64)
  | boolean (v : PrimColumn Bool)
  | date32 (v : PrimColumn Int)
  | timestamp (unit : TimeUnit) (format : Option String) (v : PrimColumn Int)
  | decimal128 (scale : Nat) (v : PrimColumn Int)
  | dictionary (codes : NullableColumn Int) (dict : DictStore)

namespace ColumnBuffers

/-- `with_capacity`. -/
def ofType : FieldType → ColumnBuffers
  | .string => .string .empty
  | .int64 => .int64 .empty
  | .float64 => .float64 .empty
  | .boolean => .boolean .empty
  | .date32 => .date32 .empty
  | .timestamp unit format => .timestamp unit format .empty
  | .decimal128 scale => .decimal128 scale .empty
  | .dictionary => .dictionary .empty .empty

/-- `push_str`. -/
def pushStr (c : ColumnBuffers) (value : Option String) : ColumnBuffers :=
  match c with
  | .string v => .string (v.push value)
  | .int64 v => .int64 (v.push (value.bind parseI64))
  | .float64 v => .float64 (v.push (value.bind parseF64))
  | .boolean v => .boolean (v.push (value.bind parseBool))
  | .date32 v => .date32 (v.push (value.bind parseDate32))
  | .timestamp unit format v =>
      .timestamp unit format (v.push (value.bind fun s => parseTimestamp s unit format))
  | .decimal128 scale v =>
      .decimal128 scale (v.push (value.bind fun s => parseDecimal128 s scale))
  | .dictionary codes dict =>
      match value with
      | some s => .dictionary (codes.push (some (dict.dictCode s).1)) (dict.dictCode s).2
      | none => .dictionary (codes.push none) dict

/-- The arms of `push_value` for a native value: `native` is what a column of a native type makes
of it, string and dictionary columns keep `text`, and every other column gets a null. -/
def pushNative (c : ColumnBuffers) (text : String) (native : Option ColumnBuffers) :
    ColumnBuffers :=
  match native with
  | some c' => c'
  | none =>
      match c with
      | .string v => .string (v.push (some text))
      | .dictionary codes dict =>
          .dictionary (codes.push (some (dict.dictCode text).1)) (dict.dictCode text).2
      | c => c.pushStr none

/-- `unit`. -/
def unit : ColumnBuffers → Option TimeUnit
  | .timestamp unit _ _ => some unit
  | _ => none

/-- `push_value`. -/
def pushValue (c : ColumnBuffers) : Value → ColumnBuffers
  | .null => c.pushStr none
  | .str s => c.pushStr (some s)
  | .int64 i => c.pushNative (toString i) <|
      match c with
      | .int64 v => some (.int64 (v.push (some i)))
      | .float64 v => some (.float64 (v.push (some (intAsF64 i))))
      | _ => none
  | .float64 f => c.pushNative (formatF64 f) <|
      match c with
      | .float64 v => some (.float64 (v.push (some f)))
      | .int64 v => some (.int64 (v.push (some (f64AsI64 f))))
      | _ => none
  | .bool b => c.pushNative (formatBool b) <|
      match c with
      | .boolean v => some (.boolean (v.push (some b)))
      | _ => none
  | .date32 d => c.pushNative (formatDate32 d) <|
      match c with
      | .date32 v => some (.date32 (v.push (some d)))
      | .int64 v => some (.int64 (v.push (some d)))
      | .float64 v => some (.float64 (v.push (some (intAsF64 d))))
      | _ => none
  | .timestamp t =>
      let text := match c.unit with
        | some unit => formatTimestamp t unit
        | none => toString t
      c.pushNative text <|
        match c with
        | .timestamp unit format v => some (.timestamp unit format (v.push (some t)))
        | .int64 v => some (.int64 (v.push (some t)))
        | .float64 v => some (.float64 (v.push (some (intAsF64 t))))
        | _ => none

/-- `pop`. -/
def pop : ColumnBuffers → ColumnBuffers
  | .string v => .string v.pop
  | .int64 v => .int64 v.pop
  | .float64 v => .float64 v.pop
  | .boolean v => .boolean v.pop
  | .date32 v => .date32 v.pop
  | .timestamp unit format v => .timestamp unit format v.pop
  | .decimal128 scale v => .decimal128 scale v.pop
  | .dictionary codes dict => .dictionary codes.popCode dict

/-- `len`. -/
def len : ColumnBuffers → Nat
  | .string v => v.len
  | .int64 v => v.len
  | .float64 v => v.len
  | .boolean v => v.len
  | .date32 v => v.len
  | .timestamp _ _ v => v.len
  | .decimal128 _ v => v.len
  | .dictionary codes _ => codes.len

/-- `split_off`: the first `n` rows and the rest. Both parts keep a dictionary whole. -/
def splitOff (c : ColumnBuffers) (n : Nat) : ColumnBuffers × ColumnBuffers :=
  match c with
  | .string v => (.string (v.splitOff n).1, .string (v.splitOff n).2)
  | .int64 v => (.int64 (v.splitOff n).1, .int64 (v.splitOff n).2)
  | .float64 v => (.float64 (v.splitOff n).1, .float64 (v.splitOff n).2)
  | .boolean v => (.boolean (v.splitOff n).1, .boolean (v.splitOff n).2)
  | .date32 v => (.date32 (v.splitOff n).1, .date32 (v.splitOff n).2)
  | .timestamp unit format v =>
      (.timestamp unit format (v.splitOff n).1, .timestamp unit format (v.splitOff n).2)
  | .decimal128 scale v =>
      (.decimal128 scale (v.splitOff n).1, .decimal128 scale (v.splitOff n).2)
  | .dictionary codes dict =>
      (.dictionary (codes.splitOff n).1 dict, .dictionary (codes.splitOff n).2 dict)

/-- `get_typed_value`. -/
def getTypedValue (c : ColumnBuffers) (i : Nat) : Option TypedValue :=
  match c with
  | .string v => (v.get i).map .str
  | .int64 v => (v.get i).map .int64
  | .float64 v => (v.get i).map .float64
  | .boolean v => (v.get i).map .bool
  | .date32 v => (v.get i).map .date32
  | .timestamp unit _ v => (v.get i).map fun t => .timestamp t unit
  | .decimal128 scale v => (v.get i).map fun n => .decimal128 n scale
  | .dictionary codes dict => ((codes.get i).bind dict.decode).map .str

/-- `variant_key`. -/
def variantKey : ColumnBuffers → String
  | .string _ => "string"
  | .int64 _ => "int64"
  | .float64 _ => "float64"
  | .boolean _ => "boolean"
  | .date32 _ => "date32"
  | .timestamp unit _ _ =>
      match unit with
      | .second => "timestamp[s]"
      | .millisecond => "timestamp[ms]"
      | .microsecond => "timestamp[us]"
      | .nanosecond => "timestamp[ns]"
  | .decimal128 scale _ =>
      match scale with
      | 0 => "decimal128(0)"
      | 2 => "decimal128(2)"
      | 4 => "decimal128(4)"
      | 8 => "decimal128(8)"
      | 10 => "decimal128(10)"
      | 18 => "decimal128(18)"
      | _ => "decimal128"
  | .dictionary _ _ => "dictionary"

/-- `promote_to_variant`, with the column it leaves. -/
def promoteToVariant (c : ColumnBuffers) (target : String) :
    ColumnBuffers × Except Error Unit :=
  let refused : Error := .merge ("cannot promote column to unified variant '" ++ target ++ "'")
  if c.variantKey = target then (c, .ok ())
  else
    match c with
    | .int64 v =>
        if target = "float64" then (.float64 ⟨v.data.map intAsF64, v.validity⟩, .ok ())
        else (c, .error refused)
    | .string old =>
        if target = "dictionary" then
          let (codes, dict) := DictStore.encode old.iter
          (.dictionary codes dict, .ok ())
        else (c, .error refused)
    | _ => (c, .error refused)

/-- `extend_owned`, with the column it leaves. -/
def extendOwned (a b : ColumnBuffers) : ColumnBuffers × Except Error Unit :=
  match a, b with
  | .string v, .string w => (.string (if v.len = 0 then w else v.append w), .ok ())
  | .int64 v, .int64 w => (.int64 (if v.len = 0 then w else v.append w), .ok ())
  | .float64 v, .float64 w => (.float64 (if v.len = 0 then w else v.append w), .ok ())
  | .boolean v, .boolean w => (.boolean (if v.len = 0 then w else v.append w), .ok ())
  | .date32 v, .date32 w => (.date32 (if v.len = 0 then w else v.append w), .ok ())
  | .timestamp ua format v, .timestamp ub _ w =>
      if ua = ub then (.timestamp ua format (if v.len = 0 then w else v.append w), .ok ())
      else (a, .error (.merge ("extend_owned: timestamp unit mismatch (" ++
        ColumnBuilder.debugTimeUnit ua ++ " vs " ++ ColumnBuilder.debugTimeUnit ub ++ ")")))
  | .decimal128 sa v, .decimal128 sb w =>
      if sa = sb then (.decimal128 sa (if v.len = 0 then w else v.append w), .ok ())
      else (a, .error (.merge ("extend_owned: decimal128 scale mismatch (" ++ toString sa ++
        " vs " ++ toString sb ++ ")")))
  | .dictionary codesA dictA, .dictionary codesB dictB =>
      if codesA.len = 0 then (.dictionary codesB dictB, .ok ())
      else
        -- the other dictionary is taken in once, then its codes are translated
        let (remap, dict) := dictA.dictCodes dictB.values
        (.dictionary
          (codesB.iter.foldl
            (fun codes c => codes.push (c.bind fun code => remap[i32AsUsize code]?)) codesA)
          dict, .ok ())
  | a, _ => (a, .error (.merge "extend_owned: column type mismatch across chunks"))

/-- `try_upgrade_to_dict`. -/
def tryUpgradeToDict (c : ColumnBuffers) (minRows : Nat) (maxRatio : F64) (maxSize : Nat) :
    ColumnBuffers :=
  match c with
  | .string old =>
      if old.len < minRows then .string old
      else
        let seen := (old.iter.filterMap id).dedup
        let ratioCap := max (Platform.f64AsUsize (Platform.mul (intAsF64 old.len) maxRatio)) 16
        if min ratioCap maxSize < seen.length then .string old
        else
          let (codes, dict) := DictStore.encode old.iter
          .dictionary codes dict
  | c => c

/-- The bytes of string data a column holds. -/
def textBytes : ColumnBuffers → Nat
  | .string v => v.data.length
  | .dictionary _ dict => dict.data.length
  | _ => 0

end ColumnBuffers

end Rypipe
