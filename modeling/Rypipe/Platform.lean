import Rypipe.Text

/-! # What the crate takes from outside

The engine calls code that is not in the repository: IEEE doubles, the `chrono` parsers and
formatters, the `regex` matcher and the Unicode case maps. `Platform` collects these operations;
every definition of the development takes one as an instance argument and runs on any of them.

Calendar values are carried as the engine reads them: a `NaiveDate` as days since the Unix epoch, a
`NaiveDateTime` (taken as UTC) as seconds since the epoch and nanoseconds within the second. -/

namespace Rypipe

/-- The external operations the engine is built on. -/
class Platform where
  /-- `f64`. -/
  F64 : Type
  /-- `n as f64` for an integer `n` (the nearest double). -/
  intAsF64 : Int → F64
  /-- `f as i64` (truncating and saturating). -/
  f64AsI64 : F64 → Int
  /-- `f as usize` (truncating and saturating). -/
  f64AsUsize : F64 → Nat
  /-- The literal `m · 10⁻ᵉ`. -/
  scientific : Nat → Nat → F64
  /-- `a + b`. -/
  add : F64 → F64 → F64
  /-- `a - b`. -/
  sub : F64 → F64 → F64
  /-- `a * b`. -/
  mul : F64 → F64 → F64
  /-- `a / b`. -/
  div : F64 → F64 → F64
  /-- `a.powi(n)`. -/
  powi : F64 → Nat → F64
  /-- `f.fract()`. -/
  fract : F64 → F64
  /-- `a.partial_cmp(&b)`; `none` when an operand is NaN. -/
  partialCmp : F64 → F64 → Option Ordering
  /-- The total order of Arrow's comparison kernels on doubles. -/
  totalCmp : F64 → F64 → Ordering
  /-- `s.parse::<f64>().ok()`; `std` and `lexical` are taken to be one function. -/
  parseF64 : String → Option F64
  /-- `f.to_string()`. -/
  formatF64 : F64 → String
  /-- `chrono::NaiveDate::parse_from_str(s, fmt).ok()`. -/
  parseNaiveDate : String → String → Option Int
  /-- `chrono::NaiveDateTime::parse_from_str(s, fmt).ok()`. -/
  parseNaiveDateTime : String → String → Option (Int × Nat)
  /-- The date `days` after the epoch as `%Y-%m-%d`; `none` outside chrono's range. -/
  formatNaiveDate : Int → Option String
  /-- `DateTime::from_timestamp(secs, nanos)` as text; `none` outside chrono's range. -/
  formatNaiveDateTime : Int → Nat → Option String
  /-- Arrow's cast of a double to text. -/
  castFloatText : F64 → String
  /-- Arrow's cast of a date (days since the epoch) to text. -/
  castDateText : Int → String
  /-- Arrow's cast to text of a timestamp with the given number of ticks per second. -/
  castTimestampText : Int → Nat → String
  /-- `Regex::new(pattern).is_match(text)`. -/
  isMatch : String → String → Bool
  /-- `s.to_lowercase()`. -/
  toLowercase : String → String
  /-- `s.to_uppercase()`. -/
  toUppercase : String → String

export Platform (F64 intAsF64 f64AsI64 parseF64 formatF64)

/-- A platform whose doubles are the integers, for running the engine on data that uses neither
fractions nor calendar values. -/
@[reducible] def integerPlatform : Platform where
  F64 := Int
  intAsF64 := id
  f64AsI64 := id
  f64AsUsize := Int.toNat
  scientific m e := m / (10 ^ e : Nat)
  add := (· + ·)
  sub := (· - ·)
  mul := (· * ·)
  div := Int.tdiv
  powi := (· ^ ·)
  fract _ := 0
  partialCmp a b := some (compare a b)
  totalCmp := compare
  parseF64 := parseInteger
  formatF64 := toString
  parseNaiveDate _ _ := none
  parseNaiveDateTime _ _ := none
  formatNaiveDate _ := none
  formatNaiveDateTime _ _ := none
  castFloatText := toString
  castDateText := toString
  castTimestampText t _ := toString t
  isMatch _ _ := false
  toLowercase := id
  toUppercase := id

end Rypipe
