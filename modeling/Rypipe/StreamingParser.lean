import Mathlib.Order.Nat

/-! # Incremental parsing of a byte feed

`RecordStream` of `streaming_parser.rs`: it owns a buffer and the offset of its unconsumed part, and
calls a parser on that part. For a parser that treats its input as a stream, what a stream emits and
leaves does not depend on how the input is fed or when it is parsed. -/

namespace Rypipe

universe u v w

/-- What one call of `parse_available` did: the records it emitted, the parser it left, and the number
of bytes consumed or an error. -/
structure Parsed (σ : Type u) (ρ : Type v) (ε : Type w) where
  emitted : List ρ
  parser : σ
  consumed : Except ε Nat

/-- A `StreamingRecordParser` with parser state `σ`, records `ρ` and errors `ε`. -/
structure StreamingRecordParser (σ : Type u) (ρ : Type v) (ε : Type w) where
  validate : σ → List UInt8 → Except ε Unit
  parseAvailable : σ → List UInt8 → Bool → Parsed σ ρ ε

/-- `RecordStream` without its parser's functions; the offset stays inside the buffer. -/
structure RecordStream (σ : Type u) where
  parser : σ
  buffer : List UInt8
  start : Nat
  eof : Bool
  start_le : start ≤ buffer.length

/-- `StreamState`. -/
inductive StreamState where
  | rows
  | needMore
  | eof
  deriving DecidableEq

/-- `COMPACT_AFTER`. -/
def compactAfter : Nat := 64 * 1024

namespace RecordStream

variable {σ : Type u} {ρ : Type v} {ε : Type w}

/-- `RecordStream::new`. -/
def new (parser : σ) : RecordStream σ := ⟨parser, [], 0, false, Nat.zero_le _⟩

/-- The bytes `pending` counts. -/
def pendingBytes (stream : RecordStream σ) : List UInt8 := stream.buffer.drop stream.start

/-- `pending`. -/
def pending (stream : RecordStream σ) : Nat := stream.buffer.length - stream.start

/-- `self.buffer.extend_from_slice(chunk)`. -/
def extend (stream : RecordStream σ) (chunk : List UInt8) : RecordStream σ :=
  { stream with
    buffer := stream.buffer ++ chunk
    start_le := by
      rw [List.length_append]
      exact stream.start_le.trans (Nat.le_add_right _ _) }

/-- `feed`. -/
def feed (P : StreamingRecordParser σ ρ ε) (stream : RecordStream σ) (chunk : List UInt8) :
    Except ε (RecordStream σ) :=
  (P.validate stream.parser chunk).map fun _ => stream.extend chunk

/-- `finish`. -/
def finish (stream : RecordStream σ) : RecordStream σ := { stream with eof := true }

/-- The offset after `consumed` more bytes, and the buffer without the part before it when that part
is everything or long. -/
def advance (stream : RecordStream σ) (consumed : Nat) : RecordStream σ :=
  if h : stream.buffer.length ≤ stream.start + consumed ∨ compactAfter ≤ stream.start + consumed then
    { stream with
      buffer := stream.buffer.drop (stream.start + consumed)
      start := 0
      start_le := Nat.zero_le _ }
  else
    { stream with
      start := stream.start + consumed
      start_le := Nat.le_of_not_le (not_or.mp h).1 }

/-- `parse`: the records emitted, the stream after the call, and its state with the number of bytes the
parser consumed. -/
def parse (P : StreamingRecordParser σ ρ ε) (stream : RecordStream σ) :
    List ρ × RecordStream σ × Except ε (StreamState × Nat) :=
  let parsed := P.parseAvailable stream.parser stream.pendingBytes stream.eof
  let stream := { stream with parser := parsed.parser }
  match parsed.consumed with
  | .error e => (parsed.emitted, stream, .error e)
  | .ok consumed =>
      let state :=
        if stream.eof then StreamState.eof
        else if consumed = 0 then StreamState.needMore else StreamState.rows
      (parsed.emitted, stream.advance consumed, .ok (state, consumed))

/-- A call a user of a stream makes. -/
inductive Call where
  | feed (chunk : List UInt8)
  | parse
  | finish

/-- The bytes a list of calls feeds. -/
def fed : List Call → List UInt8
  | [] => []
  | .feed chunk :: calls => chunk ++ fed calls
  | _ :: calls => fed calls

/-- A run of calls: the stream, everything emitted so far, and the number of bytes consumed so far; a
run stops at its first error. -/
structure Run (σ : Type u) (ρ : Type v) (ε : Type w) where
  stream : RecordStream σ
  emitted : List ρ := []
  consumed : Nat := 0
  error : Option ε := none

/-- One call. -/
def Run.step (P : StreamingRecordParser σ ρ ε) (run : Run σ ρ ε) (call : Call) : Run σ ρ ε :=
  if run.error.isSome then run
  else
    match call with
    | .finish => { run with stream := run.stream.finish }
    | .feed chunk =>
        match run.stream.feed P chunk with
        | .ok stream => { run with stream := stream }
        | .error e => { run with error := some e }
    | .parse =>
        match run.stream.parse P with
        | (records, stream, .ok (_, consumed)) =>
            { run with
              stream := stream
              emitted := run.emitted ++ records
              consumed := run.consumed + consumed }
        | (records, stream, .error e) =>
            { run with stream := stream, emitted := run.emitted ++ records, error := some e }

/-- The calls in order, on a new stream. -/
def run (P : StreamingRecordParser σ ρ ε) (parser : σ) (calls : List Call) : Run σ ρ ε :=
  calls.foldl (Run.step P) { stream := new parser }

/-! ## The buffer -/

/-- Compaction keeps the unconsumed bytes. -/
@[simp] theorem pendingBytes_advance (stream : RecordStream σ) (consumed : Nat) :
    (stream.advance consumed).pendingBytes = stream.pendingBytes.drop consumed := by
  unfold advance pendingBytes
  rw [List.drop_drop]
  split
  · rw [List.drop_zero]
  · rfl

@[simp] theorem parser_advance (stream : RecordStream σ) (consumed : Nat) :
    (stream.advance consumed).parser = stream.parser := by
  unfold advance
  split <;> rfl

/-- Fed bytes join the unconsumed ones. -/
@[simp] theorem pendingBytes_extend (stream : RecordStream σ) (chunk : List UInt8) :
    (stream.extend chunk).pendingBytes = stream.pendingBytes ++ chunk :=
  List.drop_append_of_le_length stream.start_le

@[simp] theorem parser_extend (stream : RecordStream σ) (chunk : List UInt8) :
    (stream.extend chunk).parser = stream.parser := rfl

@[simp] theorem pendingBytes_finish (stream : RecordStream σ) :
    stream.finish.pendingBytes = stream.pendingBytes := rfl

@[simp] theorem parser_finish (stream : RecordStream σ) :
    stream.finish.parser = stream.parser := rfl

/-- `pending` is the number of unconsumed bytes. -/
theorem pending_eq_length (stream : RecordStream σ) :
    stream.pending = stream.pendingBytes.length := by
  rw [pending, pendingBytes, List.length_drop]

end RecordStream

/-! ## Incremental parsers -/

/-- `p`, which consumed `k` bytes, and then `q` on what is left. -/
def Parsed.andThen {σ : Type u} {ρ : Type v} {ε : Type w} (emitted : List ρ) (k : Nat)
    (q : Parsed σ ρ ε) : Parsed σ ρ ε :=
  ⟨emitted ++ q.emitted, q.parser, q.consumed.map (k + ·)⟩

/-- A parser that treats its input as a stream: it accepts all bytes, ignores `eof`, consumes a prefix,
and on `bytes` followed by `more` does what it does on `bytes` and then what it does on the unconsumed
rest followed by `more`. -/
structure StreamingRecordParser.Incremental {σ : Type u} {ρ : Type v} {ε : Type w}
    (P : StreamingRecordParser σ ρ ε) : Prop where
  validate_eq : ∀ parser bytes, P.validate parser bytes = .ok ()
  ignores_eof : ∀ parser bytes eof,
    P.parseAvailable parser bytes eof = P.parseAvailable parser bytes false
  consumed_le : ∀ parser bytes k,
    (P.parseAvailable parser bytes false).consumed = .ok k → k ≤ bytes.length
  append : ∀ parser bytes more k, (P.parseAvailable parser bytes false).consumed = .ok k →
    P.parseAvailable parser (bytes ++ more) false =
      .andThen (P.parseAvailable parser bytes false).emitted k
        (P.parseAvailable (P.parseAvailable parser bytes false).parser (bytes.drop k ++ more) false)
  append_error : ∀ parser bytes more e,
    (P.parseAvailable parser bytes false).consumed = .error e →
    P.parseAvailable parser (bytes ++ more) false = P.parseAvailable parser bytes false

namespace RecordStream

variable {σ : Type u} {ρ : Type v} {ε : Type w} {P : StreamingRecordParser σ ρ ε}

/-- What a run without an error has done so far: its stream holds the fed bytes without the consumed
prefix, and parsing the fed bytes with more to come in one call is what was done and then parsing what
is pending. -/
structure Resumes (P : StreamingRecordParser σ ρ ε) (parser : σ) (bytes : List UInt8)
    (run : Run σ ρ ε) : Prop where
  consumed_le : run.consumed ≤ bytes.length
  pending : run.stream.pendingBytes = bytes.drop run.consumed
  whole : ∀ more, P.parseAvailable parser (bytes ++ more) false =
    .andThen run.emitted run.consumed
      (P.parseAvailable run.stream.parser (run.stream.pendingBytes ++ more) false)

/-- The runs that agree with one call on the fed bytes: those of `Resumes`, and the failed ones that
stopped where that call stops. -/
def Agrees (P : StreamingRecordParser σ ρ ε) (parser : σ) (bytes : List UInt8)
    (run : Run σ ρ ε) : Prop :=
  match run.error with
  | none => Resumes P parser bytes run
  | some e => ∀ more, P.parseAvailable parser (bytes ++ more) false =
      ⟨run.emitted, run.stream.parser, .error e⟩

/-- A run without an error that agrees can be resumed. -/
theorem Agrees.resumes {parser : σ} {bytes : List UInt8} {run : Run σ ρ ε}
    (h : Agrees P parser bytes run) (herror : run.error = none) : Resumes P parser bytes run := by
  unfold Agrees at h
  rwa [herror] at h

/-- A failed run that agrees did what one call does. -/
theorem Agrees.failed {parser : σ} {bytes : List UInt8} {run : Run σ ρ ε}
    (h : Agrees P parser bytes run) {e : ε} (herror : run.error = some e) (more : List UInt8) :
    P.parseAvailable parser (bytes ++ more) false = ⟨run.emitted, run.stream.parser, .error e⟩ := by
  unfold Agrees at h
  rw [herror] at h
  exact h more

/-- Nothing emitted and nothing consumed before a parse is the parse. -/
theorem nil_andThen (q : Parsed σ ρ ε) : Parsed.andThen [] 0 q = q := by
  cases q with
  | mk emitted parser consumed =>
      cases consumed with
      | error e => rfl
      | ok k => simp [Parsed.andThen, Except.map]

/-- What two parses emit and consume before a third one adds up. -/
theorem andThen_andThen (emitted emitted' : List ρ) (k k' : Nat) (q : Parsed σ ρ ε) :
    Parsed.andThen emitted k (Parsed.andThen emitted' k' q) =
      Parsed.andThen (emitted ++ emitted') (k + k') q := by
  cases q with
  | mk emitted parser consumed =>
      cases consumed with
      | error e => simp [Parsed.andThen, Except.map]
      | ok n => simp [Parsed.andThen, Except.map, Nat.add_assoc]

/-- A new stream agrees before anything is fed. -/
theorem agrees_new (parser : σ) : Agrees P parser [] { stream := new parser } := by
  refine ⟨Nat.zero_le _, rfl, ?_⟩
  intro more
  exact (nil_andThen _).symm

/-- Fed bytes keep a run in agreement. They are put behind those that were not consumed, and nothing
is parsed before the next call. -/
theorem Agrees.feed (hP : P.Incremental) {parser : σ} {bytes : List UInt8} {run : Run σ ρ ε}
    (h : Agrees P parser bytes run) (chunk : List UInt8) :
    Agrees P parser (bytes ++ chunk) (run.step P (.feed chunk)) := by
  unfold Run.step
  cases herror : run.error with
  | some e =>
      simp only [Option.isSome_some, if_true]
      unfold Agrees at h ⊢
      rw [herror] at h ⊢
      intro more
      rw [List.append_assoc]
      exact h (chunk ++ more)
  | none =>
      have hr := h.resumes herror
      simp only [Option.isSome_none, Bool.false_eq_true, if_false, RecordStream.feed,
        hP.validate_eq, Except.map]
      refine ⟨?_, ?_, ?_⟩
      · rw [List.length_append]
        exact hr.consumed_le.trans (Nat.le_add_right _ _)
      · rw [pendingBytes_extend, hr.pending, List.drop_append_of_le_length hr.consumed_le]
      · intro more
        rw [List.append_assoc, hr.whole, parser_extend, pendingBytes_extend, List.append_assoc]

/-- A parse keeps a run in agreement. It sees what is left of the bytes, and an incremental parser
gives the records there that it would have given in one call. -/
theorem Agrees.parse (hP : P.Incremental) {parser : σ} {bytes : List UInt8} {run : Run σ ρ ε}
    (h : Agrees P parser bytes run) : Agrees P parser bytes (run.step P .parse) := by
  unfold Run.step
  cases herror : run.error with
  | some e =>
      simp only [Option.isSome_some, if_true]
      exact h
  | none =>
      have hr := h.resumes herror
      have heof := hP.ignores_eof run.stream.parser run.stream.pendingBytes run.stream.eof
      simp only [Option.isSome_none, Bool.false_eq_true, if_false, RecordStream.parse, heof]
      cases hc : (P.parseAvailable run.stream.parser run.stream.pendingBytes false).consumed with
      -- an error stays, whatever bytes come after it
      | error e =>
          unfold Agrees
          dsimp only
          intro more
          rw [hr.whole, hP.append_error _ _ _ e hc]
          unfold Parsed.andThen
          rw [hc]
          rfl
      -- what was consumed is dropped from the pending bytes, and the rest is parsed with what
      -- comes
      | ok k =>
          have hk := hP.consumed_le _ _ _ hc
          rw [hr.pending, List.length_drop] at hk
          have hle := hr.consumed_le
          refine ⟨?_, ?_, ?_⟩
          · show run.consumed + k ≤ bytes.length
            omega
          · rw [pendingBytes_advance]
            show List.drop k run.stream.pendingBytes = _
            rw [hr.pending, List.drop_drop]
          · intro more
            rw [hr.whole, hP.append _ _ _ k hc, andThen_andThen, parser_advance,
              pendingBytes_advance]
            rfl

/-- The end of the feed changes nothing, since an incremental parser ignores the mark. -/
theorem Agrees.finish {parser : σ} {bytes : List UInt8} {run : Run σ ρ ε}
    (h : Agrees P parser bytes run) : Agrees P parser bytes (run.step P .finish) := by
  unfold Run.step
  cases herror : run.error with
  | some e =>
      simp only [Option.isSome_some, if_true]
      exact h
  | none =>
      have hr := h.resumes herror
      simp only [Option.isSome_none, Bool.false_eq_true, if_false]
      exact ⟨hr.consumed_le, hr.pending, hr.whole⟩

/-- A run agrees with one call on what it was fed. By induction on the calls, each of which keeps it
in agreement. -/
theorem agrees_run (hP : P.Incremental) (parser : σ) (calls : List Call) :
    Agrees P parser (fed calls) (run P parser calls) := by
  have key : ∀ (calls : List Call) (bytes : List UInt8) (r : Run σ ρ ε), Agrees P parser bytes r →
      Agrees P parser (bytes ++ fed calls) (calls.foldl (Run.step P) r) := by
    intro calls
    induction calls with
    | nil =>
        intro bytes r h
        rw [fed, List.append_nil]
        exact h
    | cons call calls ih =>
        intro bytes r h
        rw [List.foldl_cons]
        cases call with
        | feed chunk =>
            rw [fed, ← List.append_assoc]
            exact ih _ _ (h.feed hP chunk)
        | parse => exact ih _ _ (h.parse hP)
        | finish => exact ih _ _ h.finish
  exact key calls [] _ (agrees_new parser)

/-- What a run did, as one call would report it. -/
def Run.outcome (run : Run σ ρ ε) : Parsed σ ρ ε :=
  ⟨run.emitted, run.stream.parser,
    match run.error with
    | none => .ok run.consumed
    | some e => .error e⟩

/-- After a parse a run did what one call on everything fed does. -/
theorem outcome_run_parse (hP : P.Incremental) (parser : σ) (calls : List Call) :
    (run P parser (calls ++ [.parse])).outcome = P.parseAvailable parser (fed calls) false := by
  have h := agrees_run hP parser calls
  have hrun : run P parser (calls ++ [.parse]) = (run P parser calls).step P .parse := by
    rw [run, List.foldl_append]
    rfl
  rw [hrun]
  generalize run P parser calls = run at h
  unfold Run.step
  cases herror : run.error with
  | some e =>
      have hfailed := h.failed herror []
      rw [List.append_nil] at hfailed
      rw [hfailed]
      simp [Run.outcome, herror]
  | none =>
      have hwhole := (h.resumes herror).whole []
      rw [List.append_nil, List.append_nil] at hwhole
      have heof := hP.ignores_eof run.stream.parser run.stream.pendingBytes run.stream.eof
      simp only [Option.isSome_none, Bool.false_eq_true, if_false, RecordStream.parse, heof]
      rw [hwhole]
      unfold Run.outcome Parsed.andThen
      cases (P.parseAvailable run.stream.parser run.stream.pendingBytes false).consumed with
      | error e => rfl
      | ok k => simp [Except.map]

/-- Runs with one outcome fail alike, or consumed alike. -/
theorem Run.consumed_of_outcome {r r' : Run σ ρ ε} (h : r.outcome = r'.outcome) :
    r.error = r'.error ∧ (r.error = none → r.consumed = r'.consumed) := by
  have hconsumed := congrArg Parsed.consumed h
  unfold Run.outcome at hconsumed
  cases he : r.error with
  | none =>
      cases he' : r'.error with
      | none =>
          simp only [he, he', Except.ok.injEq] at hconsumed
          exact ⟨rfl, fun _ => hconsumed⟩
      | some e' => simp [he, he'] at hconsumed
  | some e =>
      cases he' : r'.error with
      | none => simp [he, he'] at hconsumed
      | some e' =>
          simp only [he, he', Except.error.injEq] at hconsumed
          exact ⟨congrArg some hconsumed, nofun⟩

/-- Runs of a parser that never fails have no error. -/
theorem error_run_eq_none (hP : P.Incremental)
    (htotal : ∀ parser bytes e, (P.parseAvailable parser bytes false).consumed ≠ .error e)
    (parser : σ) (calls : List Call) : (run P parser calls).error = none := by
  cases herror : (run P parser calls).error with
  | none => rfl
  | some e =>
      have hfailed := (agrees_run hP parser calls).failed herror []
      exact absurd (congrArg Parsed.consumed hfailed) (htotal _ _ e)

/-- The bytes fed by two lists of calls are those of the first and then those of the second. -/
theorem fed_append (calls calls' : List Call) : fed (calls ++ calls') = fed calls ++ fed calls' := by
  induction calls with
  | nil => rfl
  | cons call calls ih => cases call <;> simp [fed, ih]

/-- **Slicing does not matter.** For an incremental parser, any calls that feed an input piece by piece,
parse in between and parse last emit the records, fail as and leave the bytes that feeding the whole
input and parsing once does, and a parser that never fails gives runs without an error; and after any
calls the pending bytes are the fed ones without the consumed prefix. -/
theorem slicing_independent (hP : P.Incremental) (parser : σ) (calls : List Call) :
    let sliced := run P parser (calls ++ [.parse])
    let whole := run P parser [.feed (fed calls), .parse]
    (sliced.emitted = whole.emitted ∧ sliced.error = whole.error ∧
      (whole.error = none → sliced.stream.pendingBytes = whole.stream.pendingBytes)) ∧
    ((∀ parser bytes e, (P.parseAvailable parser bytes false).consumed ≠ .error e) →
      whole.error = none ∧ (run P parser calls).error = none) ∧
    ((run P parser calls).error = none →
      (run P parser calls).consumed ≤ (fed calls).length ∧
      (run P parser calls).stream.pendingBytes = (fed calls).drop (run P parser calls).consumed) := by
  intro sliced whole
  have hsliced : sliced.outcome = P.parseAvailable parser (fed calls) false :=
    outcome_run_parse hP parser calls
  have hwhole : whole.outcome = P.parseAvailable parser (fed calls) false := by
    have h := outcome_run_parse hP parser [.feed (fed calls)]
    rwa [fed, fed, List.append_nil] at h
  have heq : sliced.outcome = whole.outcome := hsliced.trans hwhole.symm
  obtain ⟨herror, hconsumed⟩ := Run.consumed_of_outcome heq
  refine ⟨⟨congrArg Parsed.emitted heq, herror, ?_⟩, ?_, ?_⟩
  · intro hnone
    have hs := (agrees_run hP parser (calls ++ [.parse])).resumes (herror.trans hnone)
    have hw := (agrees_run hP parser [.feed (fed calls), .parse]).resumes hnone
    calc sliced.stream.pendingBytes
        = (fed (calls ++ [.parse])).drop sliced.consumed := hs.pending
      _ = (fed [.feed (fed calls), .parse]).drop whole.consumed := by
          rw [hconsumed (herror.trans hnone)]
          simp only [fed_append, fed]
      _ = whole.stream.pendingBytes := hw.pending.symm
  · intro htotal
    exact ⟨error_run_eq_none hP htotal parser _, error_run_eq_none hP htotal parser calls⟩
  · intro hnone
    have h := (agrees_run hP parser calls).resumes hnone
    exact ⟨h.consumed_le, h.pending⟩

end RecordStream

/-! ## A parser of lines -/

/-- The nonempty lines of `bytes` that a newline ends, the first one begun by `line`, and the number
of bytes up to the last newline. -/
def scanLines : List UInt8 → List UInt8 → List (List UInt8) × Nat
  | _, [] => ([], 0)
  | line, b :: bytes =>
      if b = 10 then
        let (records, consumed) := scanLines [] bytes
        (if line.isEmpty then records else line :: records, line.length + 1 + consumed)
      else scanLines (line ++ [b]) bytes

/-- The line parser: one record for every line, no state and no errors. -/
def lineParser : StreamingRecordParser Unit (List UInt8) Unit where
  validate _ _ := .ok ()
  parseAvailable _ bytes _ := ⟨(scanLines [] bytes).1, (), .ok (scanLines [] bytes).2⟩

/-- Bytes without a newline join the line begun. -/
theorem scanLines_append_clean {clean : List UInt8} (h : ∀ b ∈ clean, b ≠ 10)
    (line bytes : List UInt8) : scanLines line (clean ++ bytes) = scanLines (line ++ clean) bytes := by
  induction clean generalizing line with
  | nil => rw [List.nil_append, List.append_nil]
  | cons b clean ih =>
      rw [List.cons_append, scanLines, if_neg (h b List.mem_cons_self),
        ih (fun b' hb' => h b' (List.mem_cons_of_mem b hb')), List.append_assoc]
      rfl

/-- The lines that are scanned do not consume more than there is. -/
theorem scanLines_le (line bytes : List UInt8) :
    (scanLines line bytes).2 ≤ line.length + bytes.length := by
  induction bytes generalizing line with
  | nil => exact Nat.zero_le _
  | cons b bytes ih =>
      unfold scanLines
      split
      · have := ih []
        simp only [List.length_nil] at this
        simp only [List.length_cons]
        omega
      · have := ih (line ++ [b])
        simp only [List.length_append, List.length_cons, List.length_nil] at this ⊢
        omega

/-- Lines of an input followed by more. The bytes that the first scan has not consumed come before
the new ones in the second. -/
theorem scanLines_append {line : List UInt8} (h : ∀ b ∈ line, b ≠ 10) (bytes more : List UInt8) :
    scanLines line (bytes ++ more) =
      ((scanLines line bytes).1 ++
          (scanLines [] ((line ++ bytes).drop (scanLines line bytes).2 ++ more)).1,
        (scanLines line bytes).2 +
          (scanLines [] ((line ++ bytes).drop (scanLines line bytes).2 ++ more)).2) := by
  induction bytes generalizing line with
  | nil =>
      have hclean := scanLines_append_clean h [] more
      simp only [scanLines, List.nil_append, List.append_nil, List.drop_zero, Nat.zero_add] at hclean ⊢
      rw [hclean]
  | cons b bytes ih =>
      by_cases hb : b = 10
      · have hrest := ih (List.forall_mem_nil (· ≠ 10))
        have hdrop : ∀ k, (line ++ b :: bytes).drop (line.length + 1 + k) = bytes.drop k := by
          intro k
          rw [Nat.add_assoc, List.drop_append, Nat.add_comm 1 k]
          simp
        simp only [List.cons_append, scanLines, if_pos hb, hdrop]
        rw [hrest]
        cases line.isEmpty <;> simp [Nat.add_assoc]
      · have hline : ∀ b' ∈ line ++ [b], b' ≠ 10 := by
          intro b' hb'
          rcases List.mem_append.mp hb' with hb' | hb'
          · exact h b' hb'
          · rwa [List.mem_singleton.mp hb']
        have hrest := ih hline
        simp only [List.append_assoc, List.singleton_append] at hrest
        simp only [List.cons_append, scanLines, if_neg hb]
        exact hrest

/-- The line parser treats its input as a stream. -/
theorem incremental_lineParser : lineParser.Incremental where
  validate_eq _ _ := rfl
  ignores_eof _ _ _ := rfl
  consumed_le _ bytes k h := by
    have hle := scanLines_le [] bytes
    rw [List.length_nil, Nat.zero_add] at hle
    exact Except.ok.inj h ▸ hle
  append _ bytes more k h := by
    obtain rfl := Except.ok.inj h
    unfold lineParser Parsed.andThen
    dsimp only
    rw [scanLines_append (List.forall_mem_nil _)]
    rfl
  append_error _ _ _ _ h := nomatch h

/-- Two lines fed in two pieces with a parse between, as one. -/
theorem lineParser_sliced :
    let calls := [.feed [65, 10, 66], .parse, .feed [67, 10]]
    (RecordStream.run lineParser () (calls ++ [.parse])).emitted = [[65], [66, 67]] := by
  intro calls
  have h := (RecordStream.slicing_independent incremental_lineParser () calls).1.1
  rw [h]
  rfl

end Rypipe
