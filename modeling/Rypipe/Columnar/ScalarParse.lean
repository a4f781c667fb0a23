import Rypipe.Plan

/-! # Scalar parsing and formatting

The conversions between text and typed cells (`columnar/scalar_parse.rs`). Day counts, timestamps
and scaled decimals are integers; the checked 128-bit arithmetic of the decimal parser is explicit
(`checkedI128`). -/

namespace Rypipe

/-- The result of a checked `i128` operation whose exact value is `v`. -/
def checkedI128 (v : Int) : Option Int :=
  if -(2 ^ 127 : Int) ≤ v ∧ v < 2 ^ 127 then some v else none

/-- `10i128.checked_pow(n)`. -/
def checkedPow10 (n : Nat) : Option Int := checkedI128 (10 ^ n)

/-- `s.split_once('.')`, with an empty second part when there is no point. -/
def splitPoint (cs : List Char) : List Char × List Char :=
  (cs.takeWhile (· != '.'), (cs.dropWhile (· != '.')).drop 1)

/-- The sign of a decimal numeral and the rest: at most one `-` or `+` is stripped. -/
def splitSign : List Char → Bool × List Char
  | '-' :: cs => (true, cs)
  | '+' :: cs => (false, cs)
  | cs => (false, cs)

/-- `parse_decimal128`: a decimal string as an integer scaled by `10^scale`. Fraction digits beyond
`scale` are cut off. -/
def parseDecimal128 (s : String) (scale : Nat) : Option Int :=
  let (neg, cs) := splitSign (trim s).toList
  let (intPart, fracPart) := splitPoint cs
  if intPart.isEmpty && fracPart.isEmpty then none
  else if !(allDigits intPart && allDigits fracPart) then none
  else do
    let intVal ← if intPart.isEmpty then some 0 else checkedI128 (digitsValue intPart)
    let val ← checkedI128 (intVal * (← checkedPow10 scale))
    let digits := fracPart.take scale
    let val ←
      if digits.isEmpty then some val
      else do
        let frac ← checkedI128 (digitsValue digits)
        let fracScaled ← checkedI128 (frac * (← checkedPow10 (scale - digits.length)))
        checkedI128 (val + fracScaled)
    some (if neg then -val else val)

/-- `format_decimal128`. -/
def formatDecimal128 (value : Int) (scale : Nat) : String :=
  if scale = 0 then toString value
  else
    let digits := (toString value.natAbs).toList
    let digits :=
      if digits.length ≤ scale then List.replicate (scale + 1 - digits.length) '0' ++ digits
      else digits
    let split := digits.length - scale
    String.ofList ((if value < 0 then ['-'] else []) ++ digits.take split ++ '.' :: digits.drop split)

variable [Platform]

/-- `parse_date32`: days since the Unix epoch of an ISO-8601 date. -/
def parseDate32 (s : String) : Option Int := Platform.parseNaiveDate (trim s) "%Y-%m-%d"

/-- A date as the date-time of its midnight. -/
def midnight (days : Int) : Int × Nat := (days * 86400, 0)

/-- The integer a date-time denotes in `unit`; nanoseconds that leave the `i64` range fall back to
saturated microseconds. -/
def inUnit (dt : Int × Nat) : TimeUnit → Int
  | .second => dt.1
  | .millisecond => dt.1 * 1000 + dt.2 / 1000000
  | .microsecond => dt.1 * 1000000 + dt.2 / 1000
  | .nanosecond =>
      let nanos := dt.1 * 1000000000 + dt.2
      if -(2 ^ 63 : Int) ≤ nanos ∧ nanos < 2 ^ 63 then nanos
      else max (-(2 ^ 63)) (min (2 ^ 63 - 1) ((dt.1 * 1000000 + dt.2 / 1000) * 1000))

/-- `parse_timestamp`: the declared chrono format first, then the ISO-8601 layouts. -/
def parseTimestamp (s : String) (unit : TimeUnit) (format : Option String) : Option Int :=
  let t := trim s
  let custom := format.bind fun fmt =>
    (Platform.parseNaiveDateTime t fmt).or ((Platform.parseNaiveDate t fmt).map midnight)
  let iso :=
    ((Platform.parseNaiveDateTime t "%Y-%m-%dT%H:%M:%S%.f").or
      (Platform.parseNaiveDateTime t "%Y-%m-%d %H:%M:%S%.f")).or
        ((Platform.parseNaiveDate t "%Y-%m-%d").map midnight)
  (custom.or iso).map fun dt => inUnit dt unit

/-- `format_date32`. -/
def formatDate32 (days : Int) : String := (Platform.formatNaiveDate days).getD (toString days)

/-- `format_timestamp`. -/
def formatTimestamp (v : Int) (unit : TimeUnit) : String :=
  let (secs, subsecNanos) := match unit with
    | .second => (v, (0 : Nat))
    | .millisecond => (v / 1000, (v % 1000 * 1000000).toNat)
    | .microsecond => (v / 1000000, (v % 1000000 * 1000).toNat)
    | .nanosecond => (v / 1000000000, (v % 1000000000).toNat)
  (Platform.formatNaiveDateTime secs subsecNanos).getD (toString v)

/-- `parses_as`: whether `s` parses into the declared type. -/
def parsesAs (s : String) : FieldType → Bool
  | .string | .dictionary => true
  | .int64 => (parseI64 s).isSome
  | .float64 => (parseF64 s).isSome
  | .boolean => (parseBool s).isSome
  | .date32 => (parseDate32 s).isSome
  | .timestamp unit format => (parseTimestamp s unit format).isSome
  | .decimal128 scale => (parseDecimal128 s scale).isSome

end Rypipe
