import Rypipe.Foundation.Readers
import Rypipe.Predicate

/-! # The limit on decompressed bytes

`LimitReader` hands on what an inner reader delivers and fails once that is more than a limit. It asks
the inner reader for one byte past what remains, so that an input of exactly the limit can be told
from a longer one, and takes nothing for an empty buffer.

The module gives the reader as the code has it (`read`), what one call does to an inner reader that
delivers its content (`read_cases`), and the invariant of its calls (`Keeps`). The library of readers
carries both to any sequence of calls and to reading to the end. -/

namespace Rypipe

open Stream' (Seq)

/-- An `io::Error` that reaches the caller: the inner reader's, or the one made here. -/
inductive ReadError (ε : Type*) where
  | inner (error : ε)
  | other (message : String)

/-- A reader, how many bytes it may still deliver, and how many it might at first. -/
structure LimitReader (σ : Type*) where
  inner : σ
  remaining : Nat
  limit : Nat

namespace LimitReader

variable {σ ε : Type*}

/-- A reader that has delivered nothing. -/
def new (inner : σ) (limit : Nat) : LimitReader σ := ⟨inner, limit, limit⟩

/-- How much of a buffer the inner reader is given: what remains and one byte, as far as it fits a
`usize` and the buffer. -/
def allowed (r : LimitReader σ) (size : Nat) : Nat :=
  min (min (min r.remaining usizeMax + 1) usizeMax) size

/-- The text of the error. -/
def exceeded (limit : Nat) : String :=
  s!"decompressed output exceeds {limit} byte limit (possible decompression bomb)"

/-- `Read::read`. -/
def read (inner : Reader σ ε UInt8) : Reader (LimitReader σ) (ReadError ε) UInt8 := fun r size =>
  if size = 0 then (.ok [], r)
  else
    match inner r.inner (r.allowed size) with
    | (.error e, s) => (.error (.inner e), { r with inner := s })
    | (.ok got, s) =>
        if r.remaining < got.length then
          (.error (.other (exceeded r.limit)), { r with inner := s, remaining := 0 })
        else (.ok got, { r with inner := s, remaining := r.remaining - got.length })

/-- What is taken from the inner reader by reads with buffers of the given sizes, up to the first
error. -/
def taken (inner : Reader σ ε UInt8) (s : σ) (limit : Nat) (sizes : List Nat) : List UInt8 :=
  ((read inner.logged).reads (new (s, []) limit) sizes).state.inner.2

/-! ## One call -/

/-- A buffer with room lets the inner reader deliver a byte. -/
theorem allowed_pos (r : LimitReader σ) {size : Nat} (h : 0 < size) : 0 < r.allowed size := by
  rw [allowed, usizeMax]
  omega

/-- At most one byte more than what remains is asked for. -/
theorem allowed_le (r : LimitReader σ) (size : Nat) : r.allowed size ≤ r.remaining + 1 := by
  rw [allowed]
  omega

/-- What one call does when the inner reader delivers its content: nothing for an empty buffer, and
else what the inner reader puts in the buffer comes next and is delivered unless it is one byte too
many. -/
theorem read_cases {inner : Reader σ ε UInt8} {content : σ → Seq UInt8}
    (hinner : inner.Delivers content) (r : LimitReader σ) (size : Nat) :
    (size = 0 ∧ read inner r size = (.ok [], r)) ∨
    (0 < size ∧ ∃ got s, inner r.inner (r.allowed size) = (.ok got, s) ∧
      content r.inner = (Seq.ofList got).append (content s) ∧ (got = [] → content r.inner = .nil) ∧
      ((got.length ≤ r.remaining ∧
          read inner r size = (.ok got, ⟨s, r.remaining - got.length, r.limit⟩)) ∨
        (got.length = r.remaining + 1 ∧
          read inner r size = (.error (.other (exceeded r.limit)), ⟨s, 0, r.limit⟩)))) := by
  rcases Nat.eq_zero_or_pos size with hsize | hsize
  · refine .inl ⟨hsize, ?_⟩
    rw [read, if_pos hsize]
  · obtain ⟨got, s, hgot, hle, hcontent, hend⟩ := hinner.read r.inner _ (r.allowed_pos hsize)
    refine .inr ⟨hsize, got, s, hgot, hcontent, hend, ?_⟩
    have hbound : got.length ≤ r.remaining + 1 := hle.trans (r.allowed_le size)
    rw [read, if_neg (by omega), hgot]
    dsimp only
    by_cases hover : r.remaining < got.length
    · rw [if_pos hover]
      exact .inr ⟨by omega, rfl⟩
    · rw [if_neg hover]
      exact .inl ⟨by omega, rfl⟩

/-- The limited reader when the log of the inner reader is forgotten. -/
def unlogged (r : LimitReader (σ × List UInt8)) : LimitReader σ := ⟨r.inner.1, r.remaining, r.limit⟩

/-- The call with a log is the call without one, so that the log can be used to state what the inner
reader was asked without changing the reader. -/
theorem read_unlogged (inner : Reader σ ε UInt8) (r : LimitReader (σ × List UInt8)) (size : Nat) :
    read inner r.unlogged size =
      ((read inner.logged r size).1, (read inner.logged r size).2.unlogged) := by
  rw [read, read]
  by_cases hsize : size = 0
  · rw [if_pos hsize, if_pos hsize]
  · rw [if_neg hsize, if_neg hsize]
    have hallowed : r.unlogged.allowed size = r.allowed size := rfl
    rw [hallowed, unlogged, Reader.logged_fst inner r.inner]
    generalize inner.logged r.inner (r.allowed size) = result
    obtain ⟨outcome, s⟩ := result
    cases outcome with
    | error e => rfl
    | ok got =>
        dsimp only
        by_cases hover : r.remaining < got.length
        · rw [if_pos hover, if_pos hover]
          rfl
        · rw [if_neg hover, if_neg hover]
          rfl

/-! ## Any sequence of calls -/

/-- The invariant of the calls: what was delivered comes first in the content, what the inner reader
still has comes after it, and what remains is what is left of the limit. -/
structure Keeps (content : σ → Seq UInt8) (s : σ) (limit : Nat) (acc : List UInt8)
    (r : LimitReader σ) : Prop where
  content_eq : content s = (Seq.ofList acc).append (content r.inner)
  remaining_eq : acc.length + r.remaining = limit
  limit_eq : r.limit = limit

/-- A new reader has delivered nothing. -/
theorem keeps_new (content : σ → Seq UInt8) (s : σ) (limit : Nat) :
    Keeps content s limit [] (new s limit) where
  content_eq := by
    rw [Seq.ofList_nil, Seq.nil_append]
    rfl
  remaining_eq := Nat.zero_add limit
  limit_eq := rfl

/-- A call that delivers keeps the invariant: what it delivers is taken off the content and off the
bytes that remain, and added to what was delivered. -/
theorem Keeps.deliver {content : σ → Seq UInt8} {s s' : σ} {limit : Nat} {acc got : List UInt8}
    {r : LimitReader σ} (h : Keeps content s limit acc r)
    (hcontent : content r.inner = (Seq.ofList got).append (content s'))
    (hle : got.length ≤ r.remaining) :
    Keeps content s limit (acc ++ got) ⟨s', r.remaining - got.length, r.limit⟩ where
  content_eq := by
    rw [h.content_eq, hcontent, ← Seq.append_assoc, Seq.ofList_append]
  remaining_eq := by
    have := h.remaining_eq
    simp only [List.length_append]
    omega
  limit_eq := h.limit_eq

/-- What was delivered is the beginning of the content, and no more than the limit. -/
theorem Keeps.isPrefix {content : σ → Seq UInt8} {s : σ} {limit : Nat} {acc : List UInt8}
    {r : LimitReader σ} (h : Keeps content s limit acc r) :
    (∃ rest, content s = (Seq.ofList acc).append rest) ∧ acc.length ≤ limit := by
  have := h.remaining_eq
  exact ⟨⟨_, h.content_eq⟩, by omega⟩

/-- Any calls on a reader with a log: what is delivered before an error is the beginning of the
content, at most the limit of it, and at most one byte more is taken. -/
theorem reads_logged {inner : Reader σ ε UInt8} {content : σ → Seq UInt8}
    (hinner : inner.Delivers content) (s : σ) (limit : Nat) (sizes : List Nat) :
    let out := (read inner.logged).reads (new (s, []) limit) sizes
    (∃ rest, content s = (Seq.ofList out.delivered).append rest) ∧ out.delivered.length ≤ limit ∧
      out.state.inner.2.length ≤ limit + 1 := by
  -- while reads succeed, what was delivered is what the log holds
  have hlogged := hinner.logged
  have hrun := Reader.reads_invariant (read inner.logged)
    (I := fun acc r => Keeps (fun s => content s.1) (s, []) limit acc r ∧ r.inner.2 = acc)
    (F := fun acc _ r => (∃ rest, content s = (Seq.ofList acc).append rest) ∧
      acc.length ≤ limit ∧ r.inner.2.length ≤ limit + 1)
    (by
      rintro acc r size got r' ⟨h, hlog⟩ hread
      rcases read_cases hlogged r size with ⟨-, hempty⟩ | ⟨-, got', s', hgot, hcontent, -, hone⟩
      · rw [hempty] at hread
        cases hread
        rw [List.append_nil]
        exact ⟨h, hlog⟩
      · rcases hone with ⟨hle, hok⟩ | ⟨-, hexceeded⟩
        · rw [hok] at hread
          cases hread
          refine ⟨h.deliver hcontent hle, ?_⟩
          rw [Reader.logged_ok hgot, hlog]
        · rw [hexceeded] at hread
          cases hread)
    (by
      rintro acc r size e r' ⟨h, hlog⟩ hread
      rcases read_cases hlogged r size with ⟨-, hempty⟩ | ⟨-, got', s', hgot, -, -, hone⟩
      · rw [hempty] at hread
        cases hread
      · rcases hone with ⟨-, hok⟩ | ⟨hlength, hexceeded⟩
        · rw [hok] at hread
          cases hread
        · rw [hexceeded] at hread
          cases hread
          -- the read that fails has taken one byte too many, the probe
          have htaken := Reader.logged_ok hgot
          have hremaining := h.remaining_eq
          refine ⟨h.isPrefix.1, h.isPrefix.2, ?_⟩
          rw [htaken, hlog, List.length_append, hlength]
          omega)
    sizes [] (new (s, []) limit) ⟨keeps_new _ (s, []) limit, rfl⟩
  rcases hrun with ⟨-, h, hlog⟩ | ⟨e, -, h⟩
  · refine ⟨h.isPrefix.1, h.isPrefix.2, ?_⟩
    rw [hlog]
    exact h.isPrefix.2.trans (Nat.le_succ limit)
  · exact h

/-! ## Reading to the end -/

/-- Reading to the end with buffers that are not empty: the whole content when it is within the
limit, and otherwise the error. -/
theorem readToEnd_cases {inner : Reader σ ε UInt8} {content : σ → Seq UInt8}
    (hinner : inner.Delivers content) (s : σ) (limit : Nat) {sizes : Nat → Nat}
    (hsizes : ∀ k, 0 < sizes k) {fuel : Nat} (hfuel : limit < fuel) :
    ∃ out, (read inner).readToEnd sizes fuel 0 (new s limit) = some out ∧
      Reader.Ends (fun bytes => content s = Seq.ofList bytes ∧ bytes.length ≤ limit)
        (fun _ e => e = .other (exceeded limit) ∧
          ∃ bytes rest, content s = (Seq.ofList bytes).append rest ∧ limit < bytes.length) [] out := by
  refine Reader.readToEnd_spec hsizes remaining (I := Keeps content s limit) ?_ fuel 0 []
    (new s limit) hfuel (keeps_new content s limit)
  intro acc r size hsize h
  rcases read_cases hinner r size with ⟨hzero, -⟩ | ⟨-, got, s', -, hcontent, hend, hone⟩
  · omega
  rcases hone with ⟨hle, hok⟩ | ⟨hlength, hexceeded⟩
  · cases got with
    | nil =>
        refine .inr (.inl ⟨_, hok, ?_, h.isPrefix.2⟩)
        rw [h.content_eq, hend rfl, Seq.append_nil]
    | cons a got =>
        refine .inr (.inr ⟨a, got, _, hok, h.deliver hcontent hle, ?_⟩)
        simp only [List.length_cons] at hle ⊢
        omega
  · have hremaining := h.remaining_eq
    refine .inl ⟨_, _, hexceeded, ?_, acc ++ got, content s', ?_, ?_⟩
    · rw [h.limit_eq]
    · rw [h.content_eq, hcontent, ← Seq.append_assoc, Seq.ofList_append]
    · rw [List.length_append, hlength]
      omega

/-- **The limit is enforced exactly.** Over any reader that delivers its content, calls with any
buffers deliver the beginning of it, at most the limit, and take at most one byte more until the first
error; reading to the end succeeds exactly when the content is within the limit, and then delivers all
of it. -/
theorem limit_exact {inner : Reader σ ε UInt8} {content : σ → Seq UInt8}
    (hinner : inner.Delivers content) (s : σ) (limit : Nat) :
    (∀ sizes : List Nat,
      let out := (read inner).reads (new s limit) sizes
      (∃ rest, content s = (Seq.ofList out.delivered).append rest) ∧ out.delivered.length ≤ limit ∧
        (taken inner s limit sizes).length ≤ limit + 1) ∧
    ∀ sizes : Nat → Nat, (∀ k, 0 < sizes k) → ∃ out,
      (∀ fuel, limit < fuel → (read inner).readToEnd sizes fuel 0 (new s limit) = some out) ∧
      ((∃ bytes, out = .ok bytes) ↔
        ∃ bytes, content s = Seq.ofList bytes ∧ bytes.length ≤ limit) ∧
      ∀ bytes, out = .ok bytes → content s = Seq.ofList bytes := by
  constructor
  · intro sizes
    have himage := Reader.reads_image (read_unlogged inner) sizes (new (s, []) limit)
    have hnew : unlogged (new (s, ([] : List UInt8)) limit) = new s limit := rfl
    rw [hnew] at himage
    rw [himage]
    exact reads_logged hinner s limit sizes
  · intro sizes hsizes
    obtain ⟨out, hout, hends⟩ := readToEnd_cases hinner s limit hsizes (Nat.lt_succ_self limit)
    refine ⟨out, fun fuel hfuel => Reader.readToEnd_mono hout hfuel, ?_, ?_⟩
    · constructor
      · rintro ⟨bytes, rfl⟩
        exact ⟨bytes, hends⟩
      · rintro ⟨bytes, hbytes, hle⟩
        cases out with
        | ok delivered => exact ⟨delivered, rfl⟩
        | error e =>
            -- more than the limit would begin a content within it
            obtain ⟨-, -, taken, rest, hcontent, hlimit⟩ := hends
            have hprefix := Reader.isPrefix_of_append_eq (hcontent.symm.trans hbytes)
            have := hprefix.length_le
            omega
    · rintro bytes rfl
      exact hends.1

/-! ### Over a slice -/

/-- `Read` for a slice: as much of it as the buffer holds. -/
def sliceRead : Reader (List UInt8) ε UInt8 := fun bytes size =>
  (.ok (bytes.take size), bytes.drop size)

/-- A slice delivers its bytes. -/
theorem sliceRead_delivers : (sliceRead (ε := ε)).Delivers (fun bytes => Seq.ofList bytes) where
  read := by
    intro bytes size hsize
    refine ⟨bytes.take size, bytes.drop size, rfl, List.length_take_le size bytes, ?_, ?_⟩
    · rw [← Seq.ofList_append, List.take_append_drop]
    · intro hempty
      rcases List.take_eq_nil_iff.mp hempty with hzero | rfl
      · omega
      · exact Seq.ofList_nil

/-- Nine bytes under a limit of three: an empty buffer takes nothing and a large one fails after
four bytes; reading to the end with buffers of two bytes fails. -/
theorem limit_exact_slice :
    let nine : List UInt8 := [49, 50, 51, 52, 53, 54, 55, 56, 57]
    let read := LimitReader.read (sliceRead (ε := Empty))
    (read.reads (new nine 3) [0, 1024]).delivered.length ≤ 3 ∧
      (taken (sliceRead (ε := Empty)) nine 3 [0, 1024]).length ≤ 4 ∧
      ∃ out, read.readToEnd (fun _ => 2) 4 0 (new nine 3) = some out ∧ ¬ ∃ bytes, out = .ok bytes := by
  intro nine read
  obtain ⟨hreads, hends⟩ := limit_exact (sliceRead_delivers (ε := Empty)) nine 3
  obtain ⟨-, hdelivered, htaken⟩ := hreads [0, 1024]
  obtain ⟨out, hout, hiff, -⟩ := hends (fun _ => 2) (fun _ => Nat.two_pos)
  refine ⟨hdelivered, htaken, out, hout 4 (Nat.lt_succ_self 3), ?_⟩
  rw [hiff]
  rintro ⟨bytes, hbytes, hle⟩
  rw [← Seq.ofList_injective hbytes] at hle
  exact absurd hle (by decide)

example : taken (sliceRead (ε := Empty)) [49, 50, 51, 52, 53] 3 [0, 1024] = [49, 50, 51, 52] := by
  decide

end LimitReader

end Rypipe
