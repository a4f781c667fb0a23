import Rypipe.BlockMasks.Cursor

/-! # Interleaved calls

Runs of a cursor: the four searches in any order, each call on the cursor the one before left. The
calls share the loaded block, so a `next` in between may move it away from where `next_unquoted`
left off; `InStep` is the condition under which a continued scan still finds its block. In every
run that keeps it, all answers are those of the byte-by-byte scans (`run_scans`). -/

namespace Rypipe.BlockMasks

variable {buf : Buffer} {set : DelimiterSet}

/-- A search call. -/
inductive Call where
  /-- `next(start, d)`. -/
  | next (start : Nat) (d : UInt8)
  /-- `next_any(start, ds)`. -/
  | nextAny (start : Nat) (ds : List UInt8)
  /-- `next_unquoted(start, d)`. -/
  | nextUnquoted (start : Nat) (d : UInt8)
  /-- `next_far(start, d, hint)`. -/
  | nextFar (start : Nat) (d : UInt8) (hint : Nat)

/-- What a call returns. -/
inductive Answer where
  /-- A position. -/
  | position (r : Option Nat)
  /-- A position and the delimiter found there. -/
  | named (r : Option (Nat × UInt8))
  deriving DecidableEq

/-- One call. -/
def call (m : BlockMasks buf set) : Call → Option (Answer × BlockMasks buf set)
  | .next start d => (m.next start d).map fun r => (.position r.1, r.2)
  | .nextAny start ds => (m.nextAny start ds).map fun r => (.named r.1, r.2)
  | .nextUnquoted start d => (m.nextUnquoted start d).map fun r => (.position r.1, r.2)
  | .nextFar start d hint => (m.nextFar start d hint).map fun r => (.position r.1, r.2)

/-- The unquoted scan so far: the start of its first call and its last answer. -/
abbrev Scan := Option (Nat × Option Nat)

namespace Scan

/-- Where the scan started, for a call that starts at `start`. -/
def origin (scan : Scan) (start : Nat) : Nat := (scan.map Prod.fst).getD start

/-- Only `next_unquoted` goes on with the scan. -/
def after (scan : Scan) : Call → Answer → Scan
  | .nextUnquoted start _, .position r => some (scan.origin start, r)
  | _, _ => scan

/-- A call of the scan starts anywhere at first, then just after the last answer; when nothing was
found, at the end of the buffer. -/
def Follows (buf : Buffer) (start : Nat) : Scan → Prop
  | none => True
  | some (_, some p) => start = p + 1
  | some (_, none) => buf.bytes.length ≤ start

end Scan

/-- The calls the searches are meant for. -/
def Allowed (buf : Buffer) (set : DelimiterSet) (scan : Scan) : Call → Prop
  | .next start d => start ≤ buf.bytes.length ∧ d ∈ set.delims
  | .nextAny start ds => start ≤ buf.bytes.length ∧ ∀ d ∈ ds, d ∈ set.delims
  | .nextUnquoted start d => d ∈ set.delims ∧ d ∉ set.quotes ∧ scan.Follows buf start
  | .nextFar start d _ => start ≤ buf.bytes.length ∧ d ∈ set.delims

/-- The answer of the byte-by-byte scan. -/
def Right (buf : Buffer) (set : DelimiterSet) (scan : Scan) : Call → Answer → Prop
  | .next start d, .position r => Least (Holds buf d) start r
  | .nextAny start ds, .named r => Least (HoldsAny buf ds) start (r.map Prod.fst) ∧ Named buf r
  | .nextUnquoted start d, .position r =>
    Least (Free set.isQuote buf.bytes (scan.origin start) d) start r
  | .nextFar start d _, .position r => Least (Holds buf d) start r
  | _, _ => False

/-- A condition on every call of a run, on the scan and the cursor it finds. -/
def Along (P : Scan → BlockMasks buf set → Call → Prop) (scan : Scan) (m : BlockMasks buf set) :
    List Call → Prop
  | [] => True
  | c :: calls => P scan m c ∧
      ∀ a m', m.call c = some (a, m') → Along P (scan.after c a) m' calls

/-- A condition on a run, one call at a time. -/
theorem along_cons {P : Scan → BlockMasks buf set → Call → Prop} {scan : Scan}
    {m m' : BlockMasks buf set} {c : Call} {calls : List Call} {a : Answer}
    (hcall : m.call c = some (a, m')) (hP : P scan m c) (hrest : Along P (scan.after c a) m' calls) :
    Along P scan m (c :: calls) := by
  refine ⟨hP, fun a' m'' hcall' => ?_⟩
  obtain ⟨rfl, rfl⟩ := Prod.mk.inj (Option.some.inj (hcall.symm.trans hcall'))
  exact hrest

/-- No call of the run panics, and every answer is the right one. -/
def Answered (scan : Scan) (m : BlockMasks buf set) : List Call → Prop
  | [] => True
  | c :: calls => ∃ a m', m.call c = some (a, m') ∧ Right buf set scan c a ∧
      Answered (scan.after c a) m' calls

/-- The condition of a call: one that continues the unquoted scan finds its block, and takes no region of
NUL for being outside. -/
def CallInStep (m : BlockMasks buf set) : Call → Prop
  | .nextUnquoted start d => m.InStep start d
  | _ => True

/-- What holds between calls: until the scan has come to its end, the cursor is outside every
region, and the scan is outside where it goes on. -/
structure Between (scan : Scan) (m : BlockMasks buf set) : Prop where
  /-- The cached masks are those of the block. -/
  cached : Cached m
  /-- Before the scan the cursor is outside. -/
  fresh : scan = none → m.inQuote = 0
  /-- After an answer it is outside, and so is the position after it. -/
  found : ∀ s p, scan = some (s, some p) → m.inQuote = 0 ∧ s ≤ p ∧
    regionAt set.isQuote buf.bytes s (p + 1) = none

theorem between_build (buf : Buffer) (set : DelimiterSet) : Between none (build buf set) :=
  ⟨cached_build buf set, fun _ => rfl, fun _ _ h => by simp at h⟩

/-- A search that leaves the quote state alone keeps the invariant. -/
theorem Between.of_same_quote {scan : Scan} {m m' : BlockMasks buf set} (h : Between scan m)
    (hcached : Cached m') (hquote : m'.inQuote = m.inQuote) : Between scan m' :=
  ⟨hcached, fun hnone => hquote.trans (h.fresh hnone), fun s p hscan =>
    ⟨hquote.trans (h.found s p hscan).1, (h.found s p hscan).2⟩⟩

/-- After an answer the next position is outside: the delimiter found is no quote. -/
theorem Between.of_found {scan : Scan} {m' : BlockMasks buf set} {start : Nat} {d : UInt8}
    {r : Option Nat} (hplain : d ∉ set.quotes) (horigin : scan.origin start ≤ start)
    (hleast : Least (Free set.isQuote buf.bytes (scan.origin start) d) start r)
    (hcached : Cached m') (hquote : r ≠ none → m'.inQuote = 0) :
    Between (some (scan.origin start, r)) m' := by
  refine ⟨hcached, fun hnone => by simp at hnone, ?_⟩
  rintro s p hscan
  obtain ⟨rfl, rfl⟩ := Prod.mk.inj (Option.some.inj hscan)
  have hle : scan.origin start ≤ p := horigin.trans hleast.1
  refine ⟨hquote (by simp), hle, ?_⟩
  rw [regionAt_succ hle hleast.2.1.1, hleast.2.1.2, quoteStep, if_neg]
  simpa [DelimiterSet.isQuote] using hplain

/-- **One call.** An allowed call in step gives the answer of the byte-by-byte scan and keeps the
invariant. Plain searches are answered from the masks of the block they load; an unquoted one
goes on from the block and the quote state that the last one left, which is where being in step
is used. -/
theorem Between.call {scan : Scan} {m : BlockMasks buf set} (h : Between scan m) {c : Call}
    (hallowed : Allowed buf set scan c) (hstep : m.CallInStep c) :
    ∃ a m', m.call c = some (a, m') ∧ Right buf set scan c a ∧ Between (scan.after c a) m' := by
  cases c with
  | next start d =>
    obtain ⟨r, m', hrun, hleast, hcached, hquote⟩ := next_spec hallowed.2 start h.cached
    exact ⟨.position r, m', by simp [BlockMasks.call, hrun], hleast,
      h.of_same_quote hcached hquote⟩
  | nextAny start ds =>
    obtain ⟨r, m', hrun, hleast, hnamed, hcached, hquote⟩ :=
      nextAny_spec hallowed.2 start h.cached
    exact ⟨.named r, m', by simp [BlockMasks.call, hrun], ⟨hleast, hnamed⟩,
      h.of_same_quote hcached hquote⟩
  | nextFar start d hint =>
    obtain ⟨r, m', hrun, hleast, hcached, hquote⟩ :=
      nextFar_spec hallowed.2 hallowed.1 hint h.cached
    exact ⟨.position r, m', by simp [BlockMasks.call, hrun], hleast,
      h.of_same_quote hcached hquote⟩
  | nextUnquoted start d =>
    obtain ⟨hd, hplain, hfollows⟩ := hallowed
    rcases scan with _ | ⟨s, _ | p⟩
    · -- The first call: the scan starts here.
      obtain ⟨r, m', hrun, hleast, hcached, hquote⟩ :=
        nextUnquoted_spec hd hplain h.cached (h.fresh rfl) hstep
      exact ⟨.position r, m', by simp [BlockMasks.call, hrun], hleast,
        Between.of_found hplain (Nat.le_refl _) hleast hcached hquote⟩
    · -- The scan is over.
      have hnone : Least (Free set.isQuote buf.bytes s d) start none :=
        least_none_of_bound (fun i hi => hi.lt_length) hfollows
      exact ⟨.position none, m, by simp [BlockMasks.call, nextUnquoted_of_end m d hfollows], hnone,
        h.cached, fun hscan => by simp [Scan.after] at hscan, fun _ _ hscan => by
          simp [Scan.after] at hscan⟩
    · -- Just after the last answer, which is outside.
      obtain ⟨hout, hle, hregion⟩ := h.found s p rfl
      obtain rfl : start = p + 1 := hfollows
      obtain ⟨r, m', hrun, hleast, hcached, hquote⟩ :=
        nextUnquoted_spec hd hplain h.cached hout hstep
      have hscan : Least (Free set.isQuote buf.bytes s d) (p + 1) r := by
        refine hleast.congr fun i hi => ?_
        rw [Free, Free, regionAt_restart (by omega) hi hregion]
      have horigin : Scan.origin (some (s, some p)) (p + 1) ≤ p + 1 := by
        simp only [Scan.origin, Option.map_some, Option.getD_some]
        omega
      exact ⟨.position r, m', by simp [BlockMasks.call, hrun], hscan,
        Between.of_found hplain horigin hscan hcached hquote⟩

/-- **A run of calls.** By induction on the calls: each is answered as the scan would answer it, and
leaves the cursor in a state between calls again. -/
theorem Between.answered {scan : Scan} {m : BlockMasks buf set} (h : Between scan m)
    (calls : List Call)
    (hallowed : Along (fun scan _ c => Allowed buf set scan c) scan m calls)
    (hstep : Along (fun _ m c => m.CallInStep c) scan m calls) : Answered scan m calls := by
  induction calls generalizing scan m with
  | nil => exact True.intro
  | cons c calls ih =>
    obtain ⟨a, m', hcall, hright, hnext⟩ := h.call hallowed.1 hstep.1
    exact ⟨a, m', hcall, hright,
      ih hnext (hallowed.2 a m' hcall) (hstep.2 a m' hcall)⟩

/-- **The cursor is the byte-by-byte scan.** In every run of allowed calls whose unquoted calls are
in step, no call panics and every answer is that of the scan from the first unquoted start. -/
theorem run_scans (buf : Buffer) (set : DelimiterSet) (calls : List Call)
    (hallowed : Along (fun scan _ c => Allowed buf set scan c) none (build buf set) calls)
    (hstep : Along (fun _ m c => m.CallInStep c) none (build buf set) calls) :
    Answered none (build buf set) calls :=
  (between_build buf set).answered calls hallowed hstep

/-! ## A scan that loses its block -/

section Examples

/-- `<`, 64 other bytes, and `<x`. -/
def twoTags : Buffer := ⟨60 :: List.replicate 64 120 ++ [60, 120], by decide⟩

/-- `<` and the double quote. -/
def tagDelims : DelimiterSet := ⟨[60, 34], [34], by decide, by simp⟩

/-- The cursor after a first call found the `<` of a block. -/
def foundAt (base quotePos : Nat) (mask : BitVec 64) : BlockMasks twoTags tagDelims where
  base := base
  loaded := true
  computed := 3#8
  masks := mask :: List.replicate 7 0#64
  inQuote := 0
  quotePos := quotePos

/-- A `<` between two NULs, and one after them. -/
def nulText : Buffer := ⟨[0, 60, 0, 60], by decide⟩

/-- `<` and NUL, as the quote. -/
def nulDelims : DelimiterSet := ⟨[60, 0], [0], by decide, by simp⟩

/-- The region of NUL ends in its block. -/
theorem nulContained_nulText : NulContained nulText nulDelims 0 60 := by
  intro i _ hopens
  have hlt : i < 4 := hopens.holds.lt_length
  refine ⟨by decide, fun q hq _ _ _ _ => List.mem_singleton.mp hq, .inl ⟨3, by omega, by omega, ?_⟩⟩
  exact ⟨rfl, by decide⟩

/-- With the block of the scan kept in between, the second unquoted call finds the second `<`; and the `<`
after two NUL quotes is found. -/
theorem run_scans_twoTags :
    Answered none (build twoTags tagDelims)
        [.nextUnquoted 0 60, .next 0 60, .nextUnquoted 1 60] ∧
      Answered none (build nulText nulDelims) [.nextUnquoted 0 60] := by
  have hfirst : (build twoTags tagDelims).call (.nextUnquoted 0 60) =
      some (.position (some 0), foundAt 0 1 1#64) := by decide +kernel
  have hsecond : (foundAt 0 1 1#64).call (.next 0 60) =
      some (.position (some 0), foundAt 0 1 1#64) := by decide +kernel
  have hnul : ∀ start, NulContained twoTags tagDelims start 60 := fun _ _ _ hopens =>
    absurd hopens.quote (by decide)
  constructor
  · apply run_scans
    · apply along_cons hfirst ⟨by decide, by decide, trivial⟩
      apply along_cons hsecond ⟨by decide, by decide⟩
      exact ⟨⟨by decide, by decide, rfl⟩, fun _ _ _ => trivial⟩
    · apply along_cons hfirst ⟨fun _ _ hloaded => by simp [build] at hloaded, hnul 0⟩
      apply along_cons hsecond trivial
      exact ⟨⟨fun _ _ _ _ => by simp [foundAt], hnul 1⟩, fun _ _ _ => trivial⟩
  · apply run_scans
    · exact ⟨⟨by decide, by decide, trivial⟩, fun _ _ _ => trivial⟩
    · exact ⟨⟨fun _ _ hloaded => by simp [build] at hloaded, nulContained_nulText⟩,
        fun _ _ _ => trivial⟩

/-- A `next` that moves the block back makes the scan return a position before its start. -/
theorem run_scans_falls :
    ¬ ∀ (buf : Buffer) (set : DelimiterSet) (calls : List Call),
      Along (fun scan _ c => Allowed buf set scan c) none (build buf set) calls →
        Answered none (build buf set) calls := by
  intro hall
  have hfirst : (build twoTags tagDelims).call (.nextUnquoted 65 60) =
      some (.position (some 65), foundAt 64 66 2#64) := by decide +kernel
  have hsecond : (foundAt 64 66 2#64).call (.next 0 60) =
      some (.position (some 0), { foundAt 0 66 1#64 with computed := 1#8 }) := by decide +kernel
  have hthird : (({ foundAt 0 66 1#64 with computed := 1#8 } :
      BlockMasks twoTags tagDelims).call (.nextUnquoted 66 60)).map Prod.fst =
        some (.position (some 65)) := by decide +kernel
  obtain ⟨a₁, m₁, hcall₁, -, a₂, m₂, hcall₂, -, a₃, m₃, hcall₃, hright, -⟩ :=
    hall twoTags tagDelims [.nextUnquoted 65 60, .next 0 60, .nextUnquoted 66 60] (by
      apply along_cons hfirst ⟨by decide, by decide, trivial⟩
      apply along_cons hsecond ⟨by decide, by decide⟩
      exact ⟨⟨by decide, by decide, rfl⟩, fun _ _ _ => trivial⟩)
  obtain ⟨rfl, rfl⟩ := Prod.mk.inj (Option.some.inj (hfirst.symm.trans hcall₁))
  obtain ⟨rfl, rfl⟩ := Prod.mk.inj (Option.some.inj (hsecond.symm.trans hcall₂))
  rw [hcall₃] at hthird
  obtain rfl := Option.some.inj hthird
  exact absurd hright.1 (by decide)

end Examples

end Rypipe.BlockMasks
