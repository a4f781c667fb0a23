import Rypipe.Predicate
import Rypipe.Foundation.Slices

/-! # Splitting the input into chunks

The parts of `decoder.rs` that plan chunks: how many there are, where a splitter may cut, which
positions a skip region rejects, and the declarative search for record boundaries. Inputs are lists
of bytes. -/

namespace Rypipe

/-! ## Byte search -/

/-- `memchr::memchr(byte, bytes)`: the first position of a byte. -/
def memchr (byte : UInt8) (bytes : List UInt8) : Option Nat := bytes.findIdx? (· == byte)

/-- `memchr::memrchr(byte, bytes)`: the last position of a byte. -/
def memrchr (byte : UInt8) (bytes : List UInt8) : Option Nat :=
  (memchr byte bytes.reverse).map (bytes.length - 1 - ·)

/-- `memchr::memmem::find(bytes, needle)`: the first position at which `needle` occurs. -/
def memmemFind (needle : List UInt8) : List UInt8 → Option Nat
  | [] => if needle.isEmpty then some 0 else none
  | b :: bytes =>
      if needle.isPrefixOf (b :: bytes) then some 0 else (memmemFind needle bytes).map (· + 1)

/-! ## The number of chunks -/

/-- `MIN_CHUNK_BYTES`. -/
def minChunkBytesDefault : Nat := 2 * 2 ^ 20

/-- `MAX_SPLIT_CHUNKS`. -/
def maxSplitChunks : Nat := 1024

inductive SplitMode where
  | parallel
  | streaming
  deriving DecidableEq

/-- `a.saturating_mul(b)` on `usize`. -/
def saturatingMul (a b : Nat) : Nat := min (a * b) usizeMax

/-- `plan_chunk_count_with`. -/
def planChunkCountWith (bytes threads : Nat) (mode : SplitMode) (minChunkBytes : Nat) : Nat :=
  let bySize := bytes / max minChunkBytes 1
  let cap := match mode with
    | .parallel => saturatingMul 16 threads
    | .streaming => saturatingMul 8 threads
  min (max (min bySize cap) threads) maxSplitChunks

/-! ## Skip regions -/

/-- What a `SkipRegionFinder` tells the engine. -/
structure SkipRegionFinder where
  openers : List (List UInt8)
  closerFor : List UInt8 → List UInt8
  window : Nat := 64 * 1024

/-- Whether an opener occurs in `scan` with no closer after it, at each position in turn: the `while`
loop of `in_skip_region` for one opener. -/
def unclosedOpener (opener closer : List UInt8) : List UInt8 → Bool
  | [] => opener.isEmpty
  | b :: scan =>
      let between := (b :: scan).drop opener.length
      (opener.isPrefixOf (b :: scan) &&
        (between.isEmpty || (memmemFind closer between).isNone)) ||
        unclosedOpener opener closer scan

/-- `in_skip_region`. -/
def inSkipRegion (bytes : List UInt8) (at' : Nat) (finder : SkipRegionFinder) : Bool :=
  if bytes.length < at' then false
  else if finder.openers.isEmpty then false
  else
    let scan := slice bytes (at' - finder.window) at'
    finder.openers.any fun opener => unclosedOpener opener (finder.closerFor opener) scan

/-! ## Split points -/

/-- What the default planning asks of a `Splitter`. -/
structure Splitter where
  nextRecordStart : List UInt8 → Nat → Option Nat
  skipRegions : Option SkipRegionFinder := none

namespace Splitter

variable (splitter : Splitter)

/-- The candidate of one nominal offset: the next record start, unless it lies in a skip region. -/
def candidate (bytes : List UInt8) (approx : Nat) : Option Nat :=
  (splitter.nextRecordStart bytes approx).filter fun pos =>
    !splitter.skipRegions.any fun finder => inSkipRegion bytes pos finder

/-- The candidates of the nominal offsets, sorted, without repetitions and without 0. -/
def interiorPoints (bytes : List UInt8) (n : Nat) : List Nat :=
  let points := (List.range' 1 (n - 1)).filterMap fun i =>
    splitter.candidate bytes (bytes.length / n * i)
  ((points.insertionSort (· ≤ ·)).destutter (· ≠ ·)).filter (0 < ·)

/-- `default_find_split_points`. -/
def defaultFindSplitPoints (bytes : List UInt8) (maxChunks minChunkBytes : Nat) : List Nat :=
  if maxChunks ≤ 1 || bytes.isEmpty then [0, bytes.length]
  else
    let n := planChunkCountWith bytes.length maxChunks .parallel minChunkBytes
    let points := 0 :: splitter.interiorPoints bytes n
    if points.getLast?.getD 0 ≠ bytes.length then points ++ [bytes.length] else points

end Splitter

/-- `split_points_to_ranges`. -/
def splitPointsToRanges (points : List Nat) (len : Nat) : List (Nat × Nat) :=
  if points.length < 2 then [(0, len)]
  else (ranges points).filter fun r => r.1 < r.2

/-! ## Record boundaries -/

/-- The bytes the boundary search names. -/
def newline : UInt8 := 10
def carriageReturn : UInt8 := 13
def backslash : UInt8 := 92

/-- The number of backslashes that end at `cursor`: the `while` loop of `is_continued_newline`. -/
def backslashRun (bytes : List UInt8) : Nat → Nat
  | 0 => 0
  | cursor + 1 => if bytes[cursor]? = some backslash then backslashRun bytes cursor + 1 else 0

/-- The position before a newline, or before the carriage return in front of it. -/
def contentEnd (bytes : List UInt8) (nl : Nat) : Nat :=
  if 0 < nl ∧ bytes[nl - 1]? = some carriageReturn then nl - 1 else nl

/-- `is_continued_newline`. -/
def isContinuedNewline (bytes : List UInt8) (pos : Nat) : Bool :=
  if pos = 0 ∨ bytes[pos]? ≠ some newline then false
  else backslashRun bytes (contentEnd bytes pos) % 2 == 1

/-- The closure `continued` of `find_next_record_boundary`. -/
def continued (bytes : List UInt8) (continuation : Option UInt8) (nl : Nat) : Bool :=
  continuation.any fun character =>
    let stop := contentEnd bytes nl
    if character = backslash then isContinuedNewline bytes nl
    else decide (0 < stop) && bytes[stop - 1]? == some character

/-- The start of the line that ends at `nl`: `memrchr(b'\n', &bytes[..nl]).map_or(0, |p| p + 1)`. -/
def lineStart (bytes : List UInt8) (nl : Nat) : Nat :=
  ((memrchr newline (bytes.take nl)).map (· + 1)).getD 0

/-- `comment_prefixes.iter().any(|prefix| line.starts_with(prefix))`. -/
def startsWithAny (commentPrefixes : List (List UInt8)) (line : List UInt8) : Bool :=
  commentPrefixes.any fun pre => pre.isPrefixOf line

/-- The tests the loop of `find_next_record_boundary` makes at the newline `nl`: whether it returns
there. -/
def stopsAt (bytes : List UInt8) (continuation : Option UInt8) (commentPrefixes : List (List UInt8))
    (blankLineMode : Bool) (nl : Nat) : Bool :=
  let stop := contentEnd bytes nl
  let start := lineStart bytes nl
  let line := slice bytes start nl
  -- continued newlines are skipped
  if continued bytes continuation nl then false
  else if !blankLineMode && commentPrefixes.isEmpty then true
  else if blankLineMode && (stop == 0 || bytes[stop - 1]? != some newline) then false
  else if blankLineMode && (commentPrefixes.isEmpty && !continued bytes continuation (stop - 1)) then
    true
  -- comment lines are skipped
  else if !commentPrefixes.isEmpty && startsWithAny commentPrefixes line then false
  else if blankLineMode then
    decide (0 < start) && (line.isEmpty || line == [carriageReturn]) &&
      !continued bytes continuation (start - 1) &&
      !startsWithAny commentPrefixes (slice bytes (lineStart bytes (start - 1)) (start - 1))
  else true

/-- The loop of `find_next_record_boundary` from `pos`. -/
def boundaryLoop (bytes : List UInt8) (continuation : Option UInt8)
    (commentPrefixes : List (List UInt8)) (blankLineMode : Bool) : Nat → Nat → Option Nat
  | 0, _ => none
  | fuel + 1, pos =>
      match memchr newline (bytes.drop pos) with
      | none => none
      | some rel =>
          if stopsAt bytes continuation commentPrefixes blankLineMode (pos + rel) then
            some (pos + rel + 1)
          else boundaryLoop bytes continuation commentPrefixes blankLineMode fuel (pos + rel + 1)

/-- `find_next_record_boundary`; every turn of the loop passes a newline, so that the length of the
input bounds their number. -/
def findNextRecordBoundary (bytes : List UInt8) (start : Nat) (continuation : Option UInt8)
    (commentPrefixes : List (List UInt8)) (blankLineMode : Bool) : Option Nat :=
  if continuation.isNone && commentPrefixes.isEmpty && !blankLineMode then
    if bytes.length < start then none
    else (memchr newline (bytes.drop start)).map (start + · + 1)
  else boundaryLoop bytes continuation commentPrefixes blankLineMode bytes.length start

end Rypipe
