import Rypipe.Foundation.BitMask
import Rypipe.Foundation.Quoted

/-! # Block masks (`block_masks.rs`)

A cursor over a byte buffer that answers delimiter searches from 64-byte blocks: bit `i` of a mask
says whether byte `base + i` is the delimiter, and the masks of the loaded block are kept until
another block is loaded. The buffer and the delimiter set do not change after construction, so they
are parameters of the cursor's type; the assertions of `build` are fields of `DelimiterSet`.

The searches return `none` where the code panics: on a delimiter that is not in the set, and where
`cur - self.base` would go below zero (with overflow checks on; the subtraction wraps without
them). Their loops carry fuel. `run_scans` of `BlockMasks/Cursor.lean` shows that a panic is not
reached and the fuel suffices. -/

namespace Rypipe

/-- `MAX_DELIMS`. -/
def maxDelims : Nat := 8

/-- The bytes of a slice; no slice is longer than `isize::MAX` bytes. -/
structure Buffer where
  /-- The bytes. -/
  bytes : List UInt8
  /-- The bound on a slice's size. -/
  fits : bytes.length < 2 ^ 63

/-- The delimiters of a cursor and the quote characters among them. -/
structure DelimiterSet where
  /-- `delims`. -/
  delims : List UInt8
  /-- `quotes`. -/
  quotes : List UInt8
  /-- `assert!(delims.len() <= MAX_DELIMS)`. -/
  few : delims.length ≤ maxDelims
  /-- `assert!(delims.contains(&q))` for every quote. -/
  among : ∀ q ∈ quotes, q ∈ delims

namespace DelimiterSet

variable (set : DelimiterSet)

/-- `delim_index`: the first position of a delimiter in the set. -/
def delimIndex (d : UInt8) : Option Nat := set.delims.findIdx? (· == d)

/-- `full_mask`: one bit for every delimiter of the set. -/
def fullMask : BitVec 8 :=
  if set.delims.length ≥ 8 then BitVec.allOnes 8 else (1#8 <<< set.delims.length) - 1#8

/-- Whether a byte is one of the quote characters. -/
def isQuote (b : UInt8) : Bool := set.quotes.contains b

end DelimiterSet

/-- `prefix_xor`: bit `i` becomes the parity of bits `0..=i`. -/
def prefixXor (m : BitVec 64) : BitVec 64 :=
  let m := m ^^^ (m <<< 1)
  let m := m ^^^ (m <<< 2)
  let m := m ^^^ (m <<< 4)
  let m := m ^^^ (m <<< 8)
  let m := m ^^^ (m <<< 16)
  m ^^^ (m <<< 32)

/-- `mask64`: the positions of `needle` among the first 64 bytes. -/
def mask64 (block : List UInt8) (needle : UInt8) : BitVec 64 :=
  (List.range 64).foldl
    (fun mask i => if block[i]? = some needle then mask ||| (1#64 <<< i) else mask) 0#64

/-- `masks64`: every delimiter from the same block. -/
def masks64 (block : List UInt8) (delims : List UInt8) : List (BitVec 64) :=
  delims.map (mask64 block)

/-- The last block of a buffer, copied into 64 zeroed bytes. -/
def paddedTail (bytes : List UInt8) (base : Nat) : List UInt8 :=
  bytes.drop base ++ List.replicate (64 - (bytes.length - base)) 0

/-- `compute_one`: the mask of one delimiter for the block at `base`. -/
def computeOne (buf : Buffer) (base : Nat) (d : UInt8) : BitVec 64 :=
  if base + 64 ≤ buf.bytes.length then mask64 (buf.bytes.drop base) d
  else
    let rem := buf.bytes.length - base
    if rem = 0 then 0#64
    else mask64 (paddedTail buf.bytes base) d &&& ((1#64 <<< rem) - 1#64)

/-- `fill`: the masks of all delimiters for the block at `base`, in a zeroed array. -/
def fill (buf : Buffer) (base : Nat) (delims : List UInt8) : List (BitVec 64) :=
  let zeroed := List.replicate maxDelims 0#64
  if delims.length = 0 then zeroed
  else if base + 64 ≤ buf.bytes.length then
    masks64 (buf.bytes.drop base) delims ++ zeroed.drop delims.length
  else
    let rem := buf.bytes.length - base
    if rem = 0 then zeroed
    else
      (masks64 (paddedTail buf.bytes base) delims).map (· &&& ((1#64 <<< rem) - 1#64)) ++
        zeroed.drop delims.length

/-- `BlockMasks`: the loaded block, its masks so far, and the quote state of `nextUnquoted`. -/
structure BlockMasks (buf : Buffer) (set : DelimiterSet) where
  /-- Start of the loaded block. -/
  base : Nat
  /-- Whether a block is loaded. -/
  loaded : Bool
  /-- Bit `i`: `masks[i]` is valid for the loaded block. -/
  computed : BitVec 8
  /-- `masks`. -/
  masks : List (BitVec 64)
  /-- The quote byte whose region the cursor is in, 0 outside. -/
  inQuote : UInt8
  /-- The position through which `inQuote` has been advanced. -/
  quotePos : Nat
  deriving DecidableEq, Repr

namespace BlockMasks

variable {buf : Buffer} {set : DelimiterSet}

/-- `usize::MAX`: the base before the first block is loaded. -/
def noBase : Nat := 2 ^ 64 - 1

/-- `build`. -/
def build (buf : Buffer) (set : DelimiterSet) : BlockMasks buf set where
  base := noBase
  loaded := false
  computed := 0#8
  masks := List.replicate maxDelims 0#64
  inQuote := 0
  quotePos := 0

/-- `load_at`: the masks of the old block become stale. -/
def loadAt (m : BlockMasks buf set) (base : Nat) : BlockMasks buf set :=
  { m with base := base, loaded := true, computed := 0#8 }

/-- `select_block`: the block that contains `start`. -/
def selectBlock (m : BlockMasks buf set) (start : Nat) : BlockMasks buf set :=
  let newBase := start / 64 * 64
  if newBase ≠ m.base ∨ m.loaded = false then m.loadAt newBase else m

/-- `advance_block`: the next block, if the buffer has one. -/
def advanceBlock (m : BlockMasks buf set) : Option (BlockMasks buf set) :=
  let nb := (m.base + 64) % 2 ^ 64
  if nb ≥ buf.bytes.length then none else some (m.loadAt nb)

/-- `mask_for`: the mask of `d`, computed alone if it is not there yet. -/
def maskFor (m : BlockMasks buf set) (d : UInt8) :
    Option (BitVec 64 × BlockMasks buf set) := do
  let idx ← set.delimIndex d
  let m := if m.computed.getLsbD idx then m else
    { m with masks := m.masks.set idx (computeOne buf m.base d)
             computed := m.computed ||| (1#8 <<< idx) }
  some (m.masks.getD idx 0#64, m)

/-- `ensure_all`: the masks of every delimiter. -/
def ensureAll (m : BlockMasks buf set) : BlockMasks buf set :=
  if m.computed = set.fullMask then m
  else { m with masks := fill buf m.base set.delims, computed := set.fullMask }

/-- `self.masks[self.delim_index(d)]`. -/
def maskOf (m : BlockMasks buf set) (d : UInt8) : Option (BitVec 64) :=
  (set.delimIndex d).map fun i => m.masks.getD i 0#64

/-- The block a search at `cur` looks at. -/
def seek (m : BlockMasks buf set) (cur : Nat) : BlockMasks buf set :=
  if cur < m.base ∨ m.base + 64 ≤ cur then m.selectBlock cur else m

/-- The loop of `next`. -/
def nextLoop (d : UInt8) : Nat → BlockMasks buf set → Nat →
    Option (Option Nat × BlockMasks buf set)
  | 0, _, _ => none
  | fuel + 1, m, cur => do
    let m := m.seek cur
    let (mask, m) ← m.maskFor d
    let hits := mask &&& BitMask.fromOn 64 (cur - m.base)
    if hits ≠ 0#64 then some (some (m.base + hits.ctz.toNat), m)
    else
      match m.advanceBlock with
      | none => some (none, m)
      | some m => nextLoop d fuel m m.base

/-- `next`: the next occurrence of `d` at or after `start`. -/
def next (m : BlockMasks buf set) (start : Nat) (d : UInt8) :
    Option (Option Nat × BlockMasks buf set) :=
  if start ≥ buf.bytes.length then some (none, m)
  else nextLoop d (buf.bytes.length + 1) m start

/-- The union of the masks of several delimiters. -/
def combined (m : BlockMasks buf set) : List UInt8 → Option (BitVec 64)
  | [] => some 0#64
  | d :: ds => do
    let mask ← m.maskOf d
    let rest ← m.combined ds
    some (mask ||| rest)

/-- The first of several delimiters whose mask has bit `p`. -/
def delimAt (m : BlockMasks buf set) (p : Nat) : List UInt8 → Option (Option UInt8)
  | [] => some none
  | d :: ds => do
    let mask ← m.maskOf d
    if mask.getLsbD p then some (some d) else m.delimAt p ds

/-- The loop of `next_any`. -/
def nextAnyLoop (ds : List UInt8) : Nat → BlockMasks buf set → Nat →
    Option (Option (Nat × UInt8) × BlockMasks buf set)
  | 0, _, _ => none
  | fuel + 1, m, cur => do
    let m := (m.seek cur).ensureAll
    let all ← m.combined ds
    let hits := all &&& BitMask.fromOn 64 (cur - m.base)
    if hits ≠ 0#64 then
      match ← m.delimAt hits.ctz.toNat ds with
      | some d => some (some (m.base + hits.ctz.toNat, d), m)
      | none => do
        let d ← ds.head?
        some (some (m.base + hits.ctz.toNat, d), m)
    else
      match m.advanceBlock with
      | none => some (none, m)
      | some m => nextAnyLoop ds fuel m m.base

/-- `next_any`: the next occurrence of any of `ds`, with the delimiter found. -/
def nextAny (m : BlockMasks buf set) (start : Nat) (ds : List UInt8) :
    Option (Option (Nat × UInt8) × BlockMasks buf set) :=
  if start ≥ buf.bytes.length then some (none, m)
  else nextAnyLoop ds (buf.bytes.length + 1) m start

/-- The search behind `single_quote_remaining`, over the quotes left and the index found. -/
def singleQuoteFrom (m : BlockMasks buf set) (pos : Nat) :
    List UInt8 → Option Nat → Option (Option Nat)
  | [], found => some found
  | q :: qs, found => do
    let qi ← set.delimIndex q
    if m.masks.getD qi 0#64 &&& BitMask.fromOn 64 pos ≠ 0#64 then
      if found.isSome then some none else m.singleQuoteFrom pos qs (some qi)
    else m.singleQuoteFrom pos qs found

/-- `single_quote_remaining`: the only quote type at or after `pos`, if there is exactly one. -/
def singleQuoteRemaining (m : BlockMasks buf set) (pos : Nat) : Option (Option Nat) :=
  m.singleQuoteFrom pos set.quotes none

/-- `quote_index_at`: the delimiter index of the quote byte at `p`. -/
def quoteIndexAt (m : BlockMasks buf set) (p : Nat) : List UInt8 → Option Nat
  | [] => none
  | q :: qs => do
    let qi ← set.delimIndex q
    if (m.masks.getD qi 0#64).getLsbD p then some qi else m.quoteIndexAt p qs

/-- The general path of `scan_block_unquoted`: walk from quote to quote. The result is the offset
found and the new `in_quote`. -/
def walk (m : BlockMasks buf set) (di : Nat) : Nat → UInt8 → Nat → Option (Option Nat × UInt8)
  | 0, _, _ => none
  | fuel + 1, inQuote, pos => do
    if inQuote = 0 then
      let qbits ← m.combined set.quotes
      let g := m.masks.getD di 0#64 &&& BitMask.fromOn 64 pos
      let q := qbits &&& BitMask.fromOn 64 pos
      if g ≠ 0#64 ∧ (q = 0#64 ∨ g.ctz.toNat < q.ctz.toNat) then some (some g.ctz.toNat, inQuote)
      else if q = 0#64 then some (none, inQuote)
      else do
        let qi ← m.quoteIndexAt q.ctz.toNat set.quotes
        let opened ← set.delims[qi]?
        m.walk di fuel opened (q.ctz.toNat + 1)
    else do
      let qi ← set.delimIndex inQuote
      let c := m.masks.getD qi 0#64 &&& BitMask.fromOn 64 pos
      if c = 0#64 then some (none, inQuote)
      else m.walk di fuel 0 (c.ctz.toNat + 1)

/-- `scan_block_unquoted`: the next `delims[di]` outside quotes in the loaded block, from a byte
offset on. With one quote type left, the inside of regions is a prefix XOR of its mask. -/
def scanBlockUnquoted (m : BlockMasks buf set) (offset di : Nat) :
    Option (Option Nat × UInt8) := do
  let single ← if m.inQuote = 0 then m.singleQuoteRemaining offset else some none
  match single with
  | some qi =>
    let qmask := m.masks.getD qi 0#64 &&& BitMask.fromOn 64 offset
    let hits := (m.masks.getD di 0#64 &&& BitMask.fromOn 64 offset) &&& ~~~(prefixXor qmask)
    if hits ≠ 0#64 then some (some hits.ctz.toNat, m.inQuote)
    else if qmask.cpop.toNat % 2 = 1 then do
      let opened ← set.delims[qi]?
      some (none, opened)
    else some (none, m.inQuote)
  | none => m.walk di 65 m.inQuote offset

/-- The loop of `next_unquoted`. -/
def unquotedLoop (di : Nat) : Nat → BlockMasks buf set → Nat →
    Option (Option Nat × BlockMasks buf set)
  | 0, _, _ => none
  | fuel + 1, m, cur => do
    let m := m.ensureAll
    if cur < m.base then none
    else
      let (hit, inQuote) ← m.scanBlockUnquoted (cur - m.base) di
      let m : BlockMasks buf set := { m with inQuote := inQuote }
      match hit with
      | some p => some (some (m.base + p), { m with quotePos := m.base + p + 1 })
      | none =>
        match m.advanceBlock with
        | none => some (none, { m with quotePos := (m.base + 64) % 2 ^ 64 })
        | some m => unquotedLoop di fuel { m with quotePos := m.base } m.base

/-- `next_unquoted`: the next `d` outside every quoted region. The quote state is continued when
`start` is where the cursor left off, and reset otherwise. -/
def nextUnquoted (m : BlockMasks buf set) (start : Nat) (d : UInt8) :
    Option (Option Nat × BlockMasks buf set) :=
  if set.quotes = [] then m.next start d
  else if start ≥ buf.bytes.length then some (none, m)
  else do
    let di ← set.delimIndex d
    -- Continuing keeps the loaded block as it is, whichever call loaded it.
    let m := if m.loaded = false ∨ start ≠ m.quotePos then
        { m with inQuote := 0, quotePos := start }.loadAt (start / 64 * 64)
      else m
    unquotedLoop di (buf.bytes.length + 1) m start

/-- `next_far`: `memchr` for long spans, which panics past the end of the buffer. -/
def nextFar (m : BlockMasks buf set) (start : Nat) (d : UInt8) (hint : Nat) :
    Option (Option Nat × BlockMasks buf set) :=
  if hint > 256 then
    if start ≤ buf.bytes.length then
      some (((buf.bytes.drop start).findIdx? (· == d)).map (start + ·), m)
    else none
  else m.next start d

end BlockMasks

end Rypipe
