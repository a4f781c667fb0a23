import Rypipe.Decoder
import Rypipe.Engine.Strict
import Rypipe.Foundation.Guarded
import Rypipe.Stream.Coordinator

/-! # The memory limit of a builder

Under a strict memory budget every call of the row interface first reserves memory
(`table_builder/memory.rs`), and does nothing when the reservation is refused. The refusal is recorded
with the strict-types violations, in an error that only `finish` takes: a run in which a call was
refused ends in an error, and a run that ends well is one of a builder without the limit.

The capacity of the builder depends on the allocator and on everything that happened before, so the
capacity that is read at a call comes with the call. -/

namespace Rypipe

section Memory

variable [Platform]

/-- `matches!(err, Error::Memory { .. })`. -/
def Error.isMemory : Error → Bool
  | .memory _ _ => true
  | _ => false

/-- The length in bytes of the name a put is given. -/
def Put.nameLen : Put → Nat
  | .field name _ | .fieldResolved name _ | .resolveAndPut name _ => name.utf8ByteSize

namespace TableBuilder

/-- `reserve_memory`: whether the builder may grow by `additional` bytes from `capacity`; the first
refusal is recorded. -/
def reserveMemory (b : TableBuilder) (memoryLimit : Option Nat) (capacity additional : Nat) :
    TableBuilder × Bool :=
  match memoryLimit with
  | none => (b, true)
  | some limit =>
      if b.strictError.any (·.isMemory) then (b, false)
      else
        let used := Stream.saturatingAdd capacity additional
        if used ≤ limit then (b, true)
        else ({ b with strictError := b.strictError.or (some (.memory used limit)) }, false)

/-- `reserve_field_memory`: a value takes the bytes of its text, or 32. -/
def reserveFieldMemory (b : TableBuilder) (memoryLimit : Option Nat) (capacity nameLen : Nat)
    (value : Value) : TableBuilder × Bool :=
  if memoryLimit.isNone then (b, true)
  else
    let valueBytes := (value.asStr.map String.utf8ByteSize).getD 32
    b.reserveMemory memoryLimit capacity
      (saturatingMul (Stream.saturatingAdd valueBytes nameLen) 2)

/-- What a call reserves before anything else. -/
def reserve (b : TableBuilder) (memoryLimit : Option Nat) (capacity : Nat) :
    Call → TableBuilder × Bool
  | .beginRow | .endRow => b.reserveMemory memoryLimit capacity 0
  | .put p => b.reserveFieldMemory memoryLimit capacity p.nameLen p.value
  | .putFieldAt _ value => b.reserveFieldMemory memoryLimit capacity 0 value
  | .putStrAt _ value => b.reserveFieldMemory memoryLimit capacity 0 (.str value)

/-- A call under a memory limit: it is skipped when the reservation is refused. With a limit
`put_str_at` takes the path of `put_field_at`. -/
def callWithin (memoryLimit : Option Nat) (b : TableBuilder) (c : Call × Nat) : TableBuilder :=
  let (b, granted) := b.reserve memoryLimit c.2 c.1
  if granted then
    match c.1 with
    | .putStrAt slot value =>
        if memoryLimit.isSome then b.putFieldAt slot (.str value) else b.putStrAt slot value
    | c => b.call c
  else b

/-- A list of calls under a memory limit, each with the capacity it finds. -/
def callAllWithin (memoryLimit : Option Nat) (b : TableBuilder) (calls : List (Call × Nat)) :
    TableBuilder := calls.foldl (callWithin memoryLimit) b

/-- The reservation of the call is refused. -/
def Refuses (memoryLimit : Option Nat) (b : TableBuilder) (c : Call × Nat) : Prop :=
  (b.reserve memoryLimit c.2 c.1).2 = false

/-- `check_memory_budget`: a recorded refusal, or a capacity above the limit. -/
def checkMemoryBudget (b : TableBuilder) (memoryLimit : Option Nat) (capacity : Nat) :
    Except Error Unit :=
  match b.strictError with
  | some (.memory used limit) => .error (.memory used limit)
  | _ =>
      match memoryLimit with
      | some limit => if limit < capacity then .error (.memory capacity limit) else .ok ()
      | none => .ok ()

/-- `prepare_finish` under a memory limit: the recorded errors are taken first. -/
def prepareFinishWithin (b : TableBuilder) (memoryLimit : Option Nat) (capacity : Nat) :
    Except Error TableBuilder :=
  match b.unknownError, b.strictError with
  | some message, _ => .error (.merge message)
  | none, some err => .error err
  | none, none => do
      b.checkMemoryBudget memoryLimit capacity
      b.prepareFinish

/-- `finish` under a memory limit. -/
def finishWithin (b : TableBuilder) (memoryLimit : Option Nat) (capacity : Nat) :
    Except Error RecordBatch := do
  let _ ← b.prepareFinishWithin memoryLimit capacity
  b.finish

/-! ## Refusals -/

section Refusals

variable {memoryLimit : Option Nat} {b : TableBuilder} {capacity : Nat}

/-- A reservation that is granted changes nothing, and one that is refused leaves an error. -/
theorem reserveMemory_cases (memoryLimit : Option Nat) (b : TableBuilder)
    (capacity additional : Nat) :
    b.reserveMemory memoryLimit capacity additional = (b, true) ∨
      ∃ err, b.reserveMemory memoryLimit capacity additional =
        ({ b with strictError := some err }, false) := by
  cases memoryLimit with
  | none => exact .inl rfl
  | some limit =>
      rw [reserveMemory]
      dsimp only
      split
      · next hmemory =>
        cases hstrict : b.strictError with
        | none =>
            rw [hstrict] at hmemory
            cases hmemory
        | some err => exact .inr ⟨err, by rw [← hstrict]⟩
      · split
        · exact .inl rfl
        · cases b.strictError with
          | none => exact .inr ⟨_, rfl⟩
          | some err => exact .inr ⟨err, rfl⟩

theorem reserve_cases (memoryLimit : Option Nat) (b : TableBuilder) (capacity : Nat) (c : Call) :
    b.reserve memoryLimit capacity c = (b, true) ∨
      ∃ err, b.reserve memoryLimit capacity c = ({ b with strictError := some err }, false) := by
  have hfield : ∀ nameLen value,
      b.reserveFieldMemory memoryLimit capacity nameLen value = (b, true) ∨
        ∃ err, b.reserveFieldMemory memoryLimit capacity nameLen value =
          ({ b with strictError := some err }, false) := by
    intro nameLen value
    rw [reserveFieldMemory]
    split
    · exact .inl rfl
    · exact reserveMemory_cases memoryLimit b capacity _
  cases c with
  | beginRow => exact reserveMemory_cases memoryLimit b capacity 0
  | put p => exact hfield p.nameLen p.value
  | putFieldAt slot value => exact hfield 0 value
  | putStrAt slot value => exact hfield 0 (.str value)
  | endRow => exact reserveMemory_cases memoryLimit b capacity 0

/-- A call that is not refused is the call without the limit: the reservation changes nothing
else. -/
theorem callWithin_of_granted {c : Call × Nat}
    (h : b.reserve memoryLimit c.2 c.1 = (b, true)) : b.callWithin memoryLimit c = b.call c.1 := by
  obtain ⟨c, capacity⟩ := c
  rw [callWithin, h]
  cases c with
  | putStrAt slot value =>
      show (if memoryLimit.isSome then b.putFieldAt slot (.str value) else b.putStrAt slot value) =
        b.putStrAt slot value
      rw [putStrAt_eq, ite_self]
  | _ => rfl

/-- Without a limit every call is made. -/
@[simp] theorem callWithin_none (b : TableBuilder) (c : Call × Nat) :
    b.callWithin none c = b.call c.1 := by
  obtain ⟨c, capacity⟩ := c
  apply callWithin_of_granted
  cases c with
  | _ => rfl

/-- A refused call only leaves an error. -/
theorem callWithin_of_refuses {c : Call × Nat} (h : b.Refuses memoryLimit c) :
    ∃ err, b.callWithin memoryLimit c = { b with strictError := some err } := by
  rcases reserve_cases memoryLimit b c.2 c.1 with heq | ⟨err, heq⟩
  · rw [Refuses, heq] at h
    cases h
  · refine ⟨err, ?_⟩
    rw [callWithin, heq]
    rfl

theorem not_noError_of_refuses {c : Call × Nat} (h : b.Refuses memoryLimit c) :
    ¬ (b.callWithin memoryLimit c).NoError := by
  obtain ⟨err, heq⟩ := callWithin_of_refuses h
  rw [heq]
  intro hok
  cases hok.strict

/-- **The limit guards the calls**: a call under it is the call without it, or leaves an error, and
errors stay. -/
theorem guards_callWithin (memoryLimit : Option Nat) :
    Guards (fun b c => b.call c.1) (callWithin memoryLimit) fun b => ¬ b.NoError := by
  have hrefused : ∀ {b : TableBuilder} {c : Call × Nat} {err : Error},
      b.reserve memoryLimit c.2 c.1 = ({ b with strictError := some err }, false) →
      b.Refuses memoryLimit c := fun heq => by rw [Refuses, heq]
  refine ⟨fun b c herr => ?_, fun b c => ?_⟩
  · rcases reserve_cases memoryLimit b c.2 c.1 with heq | ⟨err, heq⟩
    · rw [callWithin_of_granted heq]
      exact fun hok => herr hok.of_call
    · exact not_noError_of_refuses (hrefused heq)
  · rcases reserve_cases memoryLimit b c.2 c.1 with heq | ⟨err, heq⟩
    · exact .inr (callWithin_of_granted heq)
    · exact .inl (not_noError_of_refuses (hrefused heq))

theorem foldl_call (b : TableBuilder) (calls : List (Call × Nat)) :
    calls.foldl (fun b c => b.call c.1) b = b.callAll (calls.map Prod.fst) := by
  rw [callAll, List.foldl_map]

/-! ## The end of the run -/

/-- What is prepared within the limit is what is prepared without it. -/
theorem prepareFinish_of_within {b' : TableBuilder}
    (h : b.prepareFinishWithin memoryLimit capacity = .ok b') : b.prepareFinish = .ok b' := by
  rw [prepareFinishWithin] at h
  split at h
  · cases h
  · cases h
  · cases hcheck : b.checkMemoryBudget memoryLimit capacity with
    | error err => simp [hcheck, bind, Except.bind] at h
    | ok _ => simpa [hcheck, bind, Except.bind] using h

/-- A batch exported within the limit is exported without it. -/
theorem finish_of_within {batch : RecordBatch}
    (h : b.finishWithin memoryLimit capacity = .ok batch) : b.finish = .ok batch := by
  rw [finishWithin] at h
  cases hprep : b.prepareFinishWithin memoryLimit capacity with
  | error err => simp [hprep, bind, Except.bind] at h
  | ok b' => simpa [hprep, bind, Except.bind] using h

/-- A builder with an error is not exported. -/
theorem finishWithin_of_error (h : ¬ b.NoError) :
    ∃ err, b.finishWithin memoryLimit capacity = .error err := by
  cases hfinish : b.finishWithin memoryLimit capacity with
  | error err => exact ⟨err, rfl⟩
  | ok batch =>
      obtain ⟨hunknown, hstrict⟩ := errors_of_finish (finish_of_within hfinish)
      exact absurd ⟨hunknown, hstrict⟩ h

end Refusals

end TableBuilder

end Memory

end Rypipe
