import Mathlib.Algebra.Ring.Int.Defs
import Mathlib.Algebra.Ring.Nat

/-! # The string operations of the standard library

`str` methods the engine calls, on the character list of the string: trimming, parsing of numbers
and booleans, searching and replacing, and the quoting of `{:?}`. -/

namespace Rypipe

/-- `char::is_whitespace`: the Unicode `White_Space` characters. -/
def isWhitespace (c : Char) : Bool :=
  let n := c.toNat
  (9 ≤ n && n ≤ 13) || n == 0x20 || n == 0x85 || n == 0xA0 || n == 0x1680 ||
    (0x2000 ≤ n && n ≤ 0x200A) || n == 0x2028 || n == 0x2029 || n == 0x202F || n == 0x205F ||
    n == 0x3000

/-- `s.trim_start()`. -/
def trimStart (s : String) : String := String.ofList (s.toList.dropWhile isWhitespace)

/-- `s.trim_end()`. -/
def trimEnd (s : String) : String :=
  String.ofList (s.toList.reverse.dropWhile isWhitespace).reverse

/-- `s.trim()`. -/
def trim (s : String) : String := trimEnd (trimStart s)

/-- Whether every character is an ASCII digit. -/
def allDigits (cs : List Char) : Bool := cs.all Char.isDigit

/-- The value of a string of ASCII digits, most significant first. -/
def digitsValue (cs : List Char) : Nat := cs.foldl (fun acc c => 10 * acc + (c.toNat - 48)) 0

/-- The integer a numeral denotes: an optional sign, then at least one ASCII digit. -/
def parseInteger (s : String) : Option Int :=
  let (neg, cs) := match s.toList with
    | '-' :: cs => (true, cs)
    | '+' :: cs => (false, cs)
    | cs => (false, cs)
  if cs.isEmpty || !allDigits cs then none
  else some (if neg then -(digitsValue cs) else digitsValue cs)

/-- `s.parse::<T>().ok()` for the signed integer type `T` with values `-2^bits .. 2^bits - 1`. -/
def parseSigned (bits : Nat) (s : String) : Option Int :=
  (parseInteger s).filter fun v => decide (-(2 ^ bits : Int) ≤ v ∧ v < 2 ^ bits)

/-- `s.parse::<i32>().ok()`. -/
def parseI32 (s : String) : Option Int := parseSigned 31 s

/-- `s.parse::<i64>().ok()`, also `lexical::parse::<i64, _>(s)`. -/
def parseI64 (s : String) : Option Int := parseSigned 63 s

/-- `s.parse::<i128>().ok()`. -/
def parseI128 (s : String) : Option Int := parseSigned 127 s

/-- `s.parse::<bool>().ok()`. -/
def parseBool (s : String) : Option Bool :=
  if s = "true" then some true else if s = "false" then some false else none

/-- `b.to_string()`. -/
def formatBool (b : Bool) : String := if b then "true" else "false"

/-- `s.starts_with(pre)`. -/
def startsWith (s pre : String) : Bool := pre.toList.isPrefixOf s.toList

/-- `s.ends_with(suf)`. -/
def endsWith (s suf : String) : Bool := suf.toList.isSuffixOf s.toList

/-- Whether `part` occurs in the character list. -/
def occursIn (part : List Char) : List Char → Bool
  | [] => part.isEmpty
  | c :: cs => part.isPrefixOf (c :: cs) || occursIn part cs

/-- `s.contains(part)`. -/
def containsStr (s part : String) : Bool := occursIn part.toList s.toList

/-- The left-to-right scan of `replace`: `skip` characters of the current occurrence remain. -/
def replaceScan (old new : List Char) : Nat → List Char → List Char
  | _, [] => []
  | skip + 1, _ :: cs => replaceScan old new skip cs
  | 0, c :: cs =>
      if old.isPrefixOf (c :: cs) then new ++ replaceScan old new (old.length - 1) cs
      else c :: replaceScan old new 0 cs

/-- `s.replace(old, new)`: every occurrence, left to right without overlap; an empty `old` matches
between any two characters and at both ends. -/
def replaceStr (s old new : String) : String :=
  if old.toList.isEmpty then
    String.ofList (new.toList ++ s.toList.flatMap fun c => c :: new.toList)
  else String.ofList (replaceScan old.toList new.toList 0 s.toList)

/-- `s.chars().count()`. -/
def charCount (s : String) : Nat := s.toList.length

/-- The escapes of `{:?}` on a string. -/
def debugEscape (c : Char) : List Char :=
  if c = '"' then ['\\', '"']
  else if c = '\\' then ['\\', '\\']
  else if c = '\n' then ['\\', 'n']
  else if c = '\r' then ['\\', 'r']
  else if c = '\t' then ['\\', 't']
  else [c]

/-- `format!("{s:?}")` on text without other control characters. -/
def debugStr (s : String) : String :=
  String.ofList ('"' :: (s.toList.flatMap debugEscape ++ ['"']))

end Rypipe
