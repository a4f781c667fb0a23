import Rypipe.Foundation.Labelled
import Mathlib.Data.List.Infix

/-! # A producer thread behind an iterator

A producer calls a consumer with its items, one at a time, and ends with a result or a panic. Here it
runs in a thread of its own, its consumer is the sending end of a bounded channel, and the caller of an
iterator reads the other end. `Handoff.served` says what the calls of the iterator return in every
interleaving of the two; `Handoff.progress` and `Handoff.length_le_of_quiet`, that every call returns,
and that the thread ends once the iterator is dropped, if the producer itself does not get stuck. -/

namespace Rypipe

namespace Handoff

universe u v w x

/-- How a producer ends: with a result, or with a panic that is reported as an error. -/
inductive Exit (ε : Type x) where
  | finished (result : Except ε Unit)
  | panicked (report : ε)

/-- A producer: its steps, the call of the consumer that a step makes, with the answer (`none` for
`Ok`), and how it ends. -/
structure Producer (σ : Type u) (α : Type v) (β : Type w) (ε : Type x) where
  step : σ → α → σ → Prop
  call : α → Option (β × Option ε)
  exit : σ → Option (Exit ε)

/-- How the two ends are set up. -/
structure Channel (ε : Type x) where
  /-- The capacity; zero for a rendezvous. -/
  capacity : Nat
  /-- What the consumer answers when the receiver is gone. -/
  disconnected : ε
  /-- Whether the iterator ends with an error it receives. -/
  stopsAtError : Bool

/-- Where the thread of the producer is. -/
inductive Thread (ε : Type x) where
  | running
  /-- Sending the error of the producer. -/
  | reporting (err : ε)
  /-- Its senders are dropped; a panic is still to be reported. -/
  | leaving (panic : Option ε)
  | ended (panic : Option ε)

/-- Where the caller of the iterator is. -/
inductive Caller where
  | between
  /-- At `recv`. -/
  | receiving
  /-- At `join`. -/
  | joining
  /-- The iterator, and its receiver, are dropped. -/
  | gone
  deriving DecidableEq

/-- A state of both threads. -/
structure State (σ : Type u) (β : Type w) (ε : Type x) where
  producer : σ
  thread : Thread ε := .running
  channel : List (Except ε β) := []
  caller : Caller := .between
  done : Bool := false

/-- What happens in a step. -/
inductive Event (α : Type v) (β : Type w) (ε : Type x) where
  /-- The producer takes a step. -/
  | produced (a : α)
  /-- Its thread goes on to its end. -/
  | wound
  /-- The caller calls `next`. -/
  | called
  /-- `next` returns an item of the channel. -/
  | received (item : Except ε β)
  /-- `next` finds the channel closed. -/
  | hungUp
  /-- `next` has joined the thread, and returns its panic. -/
  | joined (panic : Option ε)
  /-- `next` is called again, and returns `None`. -/
  | exhausted
  /-- The caller drops the iterator. -/
  | dropped

variable {σ : Type u} {α : Type v} {β : Type w} {ε : Type x}

/-- What `next` returns in a step, if it returns. -/
def Event.item : Event α β ε → Option (Option (Except ε β))
  | .received item => some (some item)
  | .joined panic => some (panic.map .error)
  | .exhausted => some none
  | .produced _ | .wound | .called | .hungUp | .dropped => none

/-- The step of the producer in a step of both. -/
def Event.produces : Event α β ε → Option α
  | .produced a => some a
  | .wound | .called | .received _ | .hungUp | .joined _ | .exhausted | .dropped => none

/-- The caller is not taking a step of its own accord. -/
def Event.quiet : Event α β ε → Bool
  | .called | .exhausted | .dropped => false
  | .produced _ | .wound | .received _ | .hungUp | .joined _ => true

/-- What the calls of `next` have returned. -/
def items (log : List (Event α β ε)) : List (Option (Except ε β)) := log.filterMap Event.item

/-- The steps of the producer. -/
def produced (log : List (Event α β ε)) : List α := log.filterMap Event.produces

namespace Producer

variable (P : Producer σ α β ε)

/-- The item that the consumer takes in a step. -/
def takes (a : α) : Option β :=
  match P.call a with
  | some (b, none) => some b
  | some (_, some _) | none => none

/-- The items that the consumer has taken. -/
def taken (log : List α) : List β := log.filterMap P.takes

end Producer

/-- What the iterator is to return after the items of a producer that ends so. -/
def Exit.items : Exit ε → List (Option (Except ε β))
  | .finished (.ok ()) => []
  | .finished (.error err) => [some (.error err)]
  | .panicked report => [some (.error report)]

/-- The error that is sent through the channel. -/
def Exit.sent : Exit ε → List (Except ε β)
  | .finished (.error err) => [.error err]
  | .finished (.ok ()) | .panicked _ => []

/-- The panic that is reported when the thread is joined. -/
def Exit.panic : Exit ε → Option ε
  | .panicked report => some report
  | .finished _ => none

variable (P : Producer σ α β ε) (c : Channel ε)

/-- A send goes through: there is room in the channel, or the receiver waits at a rendezvous. -/
def State.Room (s : State σ β ε) : Prop :=
  s.channel.length < c.capacity ∨ c.capacity = 0 ∧ s.channel = [] ∧ s.caller = .receiving

/-- One action of the thread of the producer, or of the caller. -/
inductive Step : State σ β ε → Event α β ε → State σ β ε → Prop
  /-- The producer goes on by itself. -/
  | produce {s : State σ β ε} (a : α) (p : σ) (hthread : s.thread = .running)
      (hexit : P.exit s.producer = none) (hstep : P.step s.producer a p) (hcall : P.call a = none) :
      Step s (.produced a) { s with producer := p }
  /-- The consumer takes an item and sends it. -/
  | deliver {s : State σ β ε} (a : α) (p : σ) (b : β) (hthread : s.thread = .running)
      (hexit : P.exit s.producer = none) (hstep : P.step s.producer a p)
      (hcall : P.call a = some (b, none)) (halive : s.caller ≠ .gone) (hroom : s.Room c) :
      Step s (.produced a) { s with producer := p, channel := s.channel ++ [.ok b] }
  /-- The consumer finds the receiver gone. -/
  | refuse {s : State σ β ε} (a : α) (p : σ) (b : β) (hthread : s.thread = .running)
      (hexit : P.exit s.producer = none) (hstep : P.step s.producer a p)
      (hcall : P.call a = some (b, some c.disconnected)) (hgone : s.caller = .gone) :
      Step s (.produced a) { s with producer := p }
  /-- The producer has ended; its thread sends an error on. -/
  | finish {s : State σ β ε} (exit : Exit ε) (hthread : s.thread = .running)
      (hexit : P.exit s.producer = some exit) :
      Step s .wound { s with
        thread := match exit with
          | .finished (.error err) => .reporting err
          | .finished (.ok ()) => .leaving none
          | .panicked report => .leaving (some report) }
  | report {s : State σ β ε} (err : ε) (hthread : s.thread = .reporting err)
      (halive : s.caller ≠ .gone) (hroom : s.Room c) :
      Step s .wound { s with thread := .leaving none, channel := s.channel ++ [.error err] }
  | lose {s : State σ β ε} (err : ε) (hthread : s.thread = .reporting err)
      (hgone : s.caller = .gone) : Step s .wound { s with thread := .leaving none }
  | leave {s : State σ β ε} (panic : Option ε) (hthread : s.thread = .leaving panic) :
      Step s .wound { s with thread := .ended panic }
  /-- `next` is called. -/
  | call {s : State σ β ε} (hcaller : s.caller = .between) (hdone : s.done = false) :
      Step s .called { s with caller := .receiving }
  /-- An iterator that is done returns `None`. -/
  | exhaust {s : State σ β ε} (hcaller : s.caller = .between) (hdone : s.done = true) :
      Step s .exhausted s
  /-- `next` receives the oldest item. -/
  | receive {s : State σ β ε} (item : Except ε β) (rest : List (Except ε β))
      (hcaller : s.caller = .receiving) (hchannel : s.channel = item :: rest) :
      Step s (.received item) { s with
        channel := rest
        caller := .between
        done := match item with
          | .error _ => c.stopsAtError
          | .ok _ => false }
  /-- The channel is empty and its senders are dropped. -/
  | hangUp {s : State σ β ε} (panic : Option ε) (hcaller : s.caller = .receiving)
      (hchannel : s.channel = []) (hthread : s.thread = .leaving panic ∨ s.thread = .ended panic) :
      Step s .hungUp { s with caller := .joining, done := true }
  /-- The thread is joined. -/
  | join {s : State σ β ε} (panic : Option ε) (hcaller : s.caller = .joining)
      (hthread : s.thread = .ended panic) :
      Step s (.joined panic) { s with caller := .between }
  /-- The iterator is dropped. -/
  | drop {s : State σ β ε} (hcaller : s.caller = .between) :
      Step s .dropped { s with caller := .gone, channel := [] }

/-! ## What the iterator returns -/

section Safety

variable {P : Producer σ α β ε} {c : Channel ε} {s s' : State σ β ε} {p₀ : σ}
  {log : List (Event α β ε)} {e : Event α β ε}

/-- The item that a step takes from the channel. -/
def Event.receives : Event α β ε → Option (Except ε β)
  | .received item => some item
  | .produced _ | .wound | .called | .hungUp | .joined _ | .exhausted | .dropped => none

/-- What was taken from the channel. -/
def received (log : List (Event α β ε)) : List (Except ε β) := log.filterMap Event.receives

/-- A step adds what `next` returns in it, if it returns. -/
theorem items_append (log : List (Event α β ε)) (e : Event α β ε) :
    items (log ++ [e]) = items log ++ e.item.toList := by
  rw [items, List.filterMap_append]
  cases e <;> rfl

/-- A step adds what it takes from the channel, if it does. -/
theorem received_append (log : List (Event α β ε)) (e : Event α β ε) :
    received (log ++ [e]) = received log ++ e.receives.toList := by
  rw [received, List.filterMap_append]
  cases e <;> rfl

/-- A step adds the step of the producer in it, if there is one. -/
theorem produced_append (log : List (Event α β ε)) (e : Event α β ε) :
    produced (log ++ [e]) = produced log ++ e.produces.toList := by
  rw [produced, List.filterMap_append]
  cases e <;> rfl

/-- A step in which `next` does not return leaves the items. -/
theorem items_of_none (log : List (Event α β ε)) (h : e.item = none) :
    items (log ++ [e]) = items log := by
  rw [items_append, h, Option.toList_none, List.append_nil]

/-- A step that takes nothing from the channel leaves what was received. -/
theorem received_of_none (log : List (Event α β ε)) (h : e.receives = none) :
    received (log ++ [e]) = received log := by
  rw [received_append, h, Option.toList_none, List.append_nil]

/-- A step of the caller leaves the run of the producer. -/
theorem produced_of_none (log : List (Event α β ε)) (h : e.produces = none) :
    produced (log ++ [e]) = produced log := by
  rw [produced_append, h, Option.toList_none, List.append_nil]

/-- A step of the producer adds the item that the consumer takes in it. -/
theorem Producer.taken_append (P : Producer σ α β ε) (log : List α) (a : α) :
    P.taken (log ++ [a]) = P.taken log ++ (P.takes a).toList := by
  rw [Producer.taken, List.filterMap_append]
  cases h : P.takes a <;> simp [Producer.taken, h]

/-- No call of the consumer has failed. -/
def Producer.Unrefused (P : Producer σ α β ε) (log : List α) : Prop :=
  ∀ a ∈ log, ∀ b err, P.call a ≠ some (b, some err)

/-- What the calls have returned when all of a producer's items have been received: the items, the
error or the panic if there was one, and then nothing more. -/
def Complete (P : Producer σ α β ε) (log : List (Event α β ε)) (p : σ) : Prop :=
  P.Unrefused (produced log) ∧ ∃ exit k, P.exit p = some exit ∧ items log =
    (P.taken (produced log)).map (fun b => some (.ok b)) ++ exit.items ++ List.replicate k none

/-- What the calls have returned: the first of the producer's items, or all and its end. -/
def Served (P : Producer σ α β ε) (log : List (Event α β ε)) (p : σ) : Prop :=
  (∃ bs, bs <+: P.taken (produced log) ∧ items log = bs.map fun b => some (.ok b)) ∨
    Complete P log p

/-- What the channel has after the items of the producer. -/
def State.tail (P : Producer σ α β ε) (s : State σ β ε) : List (Except ε β) :=
  match s.thread with
  | .running | .reporting _ => []
  | .leaving _ | .ended _ => ((P.exit s.producer).map Exit.sent).getD []

/-- The thread goes on as its producer has ended. -/
def State.Winds (P : Producer σ α β ε) (s : State σ β ε) : Prop :=
  match s.thread with
  | .running => True
  | .reporting err => P.exit s.producer = some (.finished (.error err))
  | .leaving panic | .ended panic => ∃ exit, P.exit s.producer = some exit ∧ panic = exit.panic

/-- The senders are dropped. -/
def State.Left (s : State σ β ε) : Prop :=
  ∃ panic, s.thread = .leaving panic ∨ s.thread = .ended panic

/-- The invariant of a run. -/
structure Inv (P : Producer σ α β ε) (p₀ : σ) (log : List (Event α β ε)) (s : State σ β ε) : Prop where
  run : Steps P.step p₀ (produced log) s.producer
  winds : s.Winds P
  accepted : s.caller ≠ .gone → P.Unrefused (produced log)
  sent : s.caller ≠ .gone →
    received log ++ s.channel = (P.taken (produced log)).map .ok ++ s.tail P
  undone : s.caller ≠ .gone → s.done = false → items log = (received log).map some
  done : s.caller = .between → s.done = true → Complete P log s.producer
  receiving : s.caller = .receiving → s.done = false
  joining : s.caller = .joining →
    s.done = true ∧ s.channel = [] ∧ s.Left ∧ items log = (received log).map some
  gone : s.caller = .gone → Served P log s.producer

/-- The state in which the iterator is made. -/
def started (p₀ : σ) : State σ β ε := { producer := p₀ }

/-- The invariant holds before the first step, when nothing has been produced, sent or received. -/
theorem inv_started (P : Producer σ α β ε) (p₀ : σ) : Inv P p₀ [] (started p₀) where
  run := .refl
  winds := trivial
  accepted _ a h := by cases h
  sent _ := rfl
  undone _ _ := rfl
  done _ h := by cases h
  receiving h := by cases h
  joining h := by cases h
  gone h := by cases h

/-- At most one error is sent through the channel at the end. -/
theorem Exit.sent_length (exit : Exit ε) : (exit.sent (β := β)).length ≤ 1 := by
  rcases exit with (err | ⟨⟩) | report <;> simp [Exit.sent]

/-- At most one item is still to come after those of the channel. -/
theorem State.tail_length (P : Producer σ α β ε) (s : State σ β ε) : (s.tail P).length ≤ 1 := by
  rw [tail]
  split
  · exact Nat.zero_le _
  · exact Nat.zero_le _
  · cases P.exit s.producer with
    | none => exact Nat.zero_le _
    | some exit => exact exit.sent_length
  · cases P.exit s.producer with
    | none => exact Nat.zero_le _
    | some exit => exact exit.sent_length

/-- What a thread sends after the items of its producer is the error of the producer. -/
theorem State.error_of_tail {x : Except ε β} (h : s.tail P = [x]) :
    ∃ err, P.exit s.producer = some (.finished (.error err)) ∧ x = .error err := by
  rw [tail] at h
  split at h
  · cases h
  · cases h
  all_goals
    cases hexit : P.exit s.producer with
    | none =>
        rw [hexit] at h
        cases h
    | some exit =>
        rw [hexit] at h
        rcases exit with (err | ⟨⟩) | report
        · cases h
          exact ⟨err, rfl, rfl⟩
        · cases h
        · cases h

/-- Only the last item of the channel can be an error: if an error is found in items that end with
at most one exit, all before it are results and nothing is behind it. -/
theorem eq_of_append_error {xs rest tail : List (Except ε β)} {bs : List β} {err : ε}
    (htail : tail.length ≤ 1) (h : xs ++ .error err :: rest = bs.map .ok ++ tail) :
    xs = bs.map .ok ∧ tail = [.error err] ∧ rest = [] := by
  rcases tail with _ | ⟨x, _ | ⟨y, ys⟩⟩
  · rw [List.append_nil] at h
    have hmem : Except.error err ∈ bs.map (Except.ok (ε := ε)) := h ▸ by simp
    obtain ⟨b, -, hb⟩ := List.mem_map.mp hmem
    cases hb
  · rcases rest.eq_nil_or_concat with rfl | ⟨rest', y, rfl⟩
    · obtain ⟨hxs, hx⟩ := List.append_inj' h rfl
      exact ⟨hxs, hx.symm, rfl⟩
    · rw [List.concat_eq_append, ← List.cons_append, ← List.append_assoc] at h
      obtain ⟨hxs, -⟩ := List.append_inj' h rfl
      have hmem : Except.error err ∈ bs.map (Except.ok (ε := ε)) := hxs ▸ by simp
      obtain ⟨b, -, hb⟩ := List.mem_map.mp hmem
      cases hb
  · simp at htail

/-- A thread that runs, or reports an error, has not dropped its senders. -/
theorem State.not_left {s : State σ β ε}
    (hthread : s.thread = .running ∨ ∃ err, s.thread = .reporting err) : ¬ s.Left := by
  rintro ⟨panic, hl | hl⟩
  all_goals
    rcases hthread with hthread | ⟨err, hthread⟩
    all_goals
      rw [hthread] at hl
      cases hl

namespace Inv

/-- Where the thread has left, the channel has what its end sends. -/
theorem tail_of_left (h : Inv P p₀ log s) (hleft : s.Left) :
    ∃ exit, P.exit s.producer = some exit ∧ s.tail P = exit.sent := by
  obtain ⟨panic, hthread | hthread⟩ := hleft
  all_goals
    have hwinds := h.winds
    rw [State.Winds, hthread] at hwinds
    obtain ⟨exit, hexit, -⟩ := hwinds
    refine ⟨exit, hexit, ?_⟩
    rw [State.tail, hthread, hexit]
    rfl

/-- Once a sent error has been received, everything has. The error was the producer's exit and the
last item it sent, so the channel is empty behind it. -/
theorem complete_of_error (h : Inv P p₀ log s) (halive : s.caller ≠ .gone) {err : ε}
    {rest : List (Except ε β)} (hchannel : s.channel = .error err :: rest)
    (hitems : items log = (received log).map some) :
    rest = [] ∧ Complete P (log ++ [.received (.error err)]) s.producer := by
  have hsent := h.sent halive
  rw [hchannel] at hsent
  obtain ⟨hreceived, htail, hrest⟩ := eq_of_append_error (s.tail_length P) hsent
  obtain ⟨err', hexit, heq⟩ := s.error_of_tail htail
  obtain rfl := Except.error.inj heq
  refine ⟨hrest, ?_, _, 0, hexit, ?_⟩
  · rw [produced_of_none log rfl]
    exact h.accepted halive
  rw [items_append, hitems, hreceived, produced_append]
  simp [Event.item, Event.produces, Exit.items]

/-- What the calls have returned so far is a prefix of the producer's items, each as it was sent, as
long as the caller is there and no end of the channel has been reported. -/
theorem served_of_undone (h : Inv P p₀ log s) (halive : s.caller ≠ .gone)
    (hitems : items log = (received log).map some) : Served P log s.producer := by
  have hsent := h.sent halive
  have hinit : received log <+: (P.taken (produced log)).map .ok ++ s.tail P := ⟨s.channel, hsent⟩
  by_cases hall : received log <+: (P.taken (produced log)).map .ok
  · obtain ⟨bs, hbs, heq⟩ := List.prefix_map_iff.mp hall
    refine .inl ⟨bs, hbs, ?_⟩
    rw [hitems, heq, List.map_map]
    rfl
  · have hlen := s.tail_length P
    rcases htail : s.tail P with _ | ⟨x, _ | ⟨y, ys⟩⟩
    · rw [htail, List.append_nil] at hinit
      exact absurd hinit hall
    · rw [htail] at hinit
      have heq := (List.prefix_concat_iff.mp hinit).resolve_right hall
      -- then the channel ends with the error of the producer
      obtain ⟨err, hexit, rfl⟩ := s.error_of_tail htail
      refine .inr ⟨h.accepted halive, _, 0, hexit, ?_⟩
      rw [hitems, heq]
      simp [Exit.items]
    · rw [htail] at hlen
      simp at hlen

/-- What the calls have returned, in every state. It is the first of the producer's items, in order,
or all of them and then its end. -/
theorem served (h : Inv P p₀ log s) : Served P log s.producer := by
  cases hcaller : s.caller with
  | gone => exact h.gone hcaller
  | receiving =>
      have halive : s.caller ≠ .gone := by
        rw [hcaller]
        simp
      exact h.served_of_undone halive (h.undone halive (h.receiving hcaller))
  | joining => exact h.served_of_undone (by rw [hcaller]; simp) (h.joining hcaller).2.2.2
  | between =>
      have halive : s.caller ≠ .gone := by
        rw [hcaller]
        simp
      cases hdone : s.done with
      | false => exact h.served_of_undone halive (h.undone halive hdone)
      | true => exact .inr (h.done hcaller hdone)

/-- A step of the thread changes nothing that the calls have returned. -/
theorem thread (h : Inv P p₀ log s) {p : σ} (thread : Thread ε) {channel : List (Except ε β)}
    (hitem : e.item = none) (hreceives : e.receives = none)
    (hrun : Steps P.step p₀ (produced (log ++ [e])) p)
    (hwinds : ({ s with producer := p, thread := thread, channel := channel } :
      State σ β ε).Winds P)
    (haccepted : s.caller ≠ .gone → P.Unrefused (produced (log ++ [e])))
    (hsent : s.caller ≠ .gone → received log ++ channel =
      (P.taken (produced (log ++ [e]))).map .ok ++
        ({ s with producer := p, thread := thread, channel := channel } : State σ β ε).tail P)
    (hcomplete : Complete P log s.producer → Complete P (log ++ [e]) p)
    (hserved : s.caller = .gone → Served P log s.producer → Served P (log ++ [e]) p)
    (hleft : s.Left → channel = s.channel ∧
      ({ s with producer := p, thread := thread, channel := channel } : State σ β ε).Left) :
    Inv P p₀ (log ++ [e]) { s with producer := p, thread := thread, channel := channel } := by
  have hitems := items_of_none log hitem
  have hreceived := received_of_none log hreceives
  refine ⟨hrun, hwinds, haccepted, fun halive => ?_, fun halive hdone => ?_,
    fun hcaller hdone => hcomplete (h.done hcaller hdone), h.receiving, fun hcaller => ?_,
    fun hcaller => hserved hcaller (h.gone hcaller)⟩
  · rw [hreceived]
    exact hsent halive
  · rw [hitems, hreceived]
    exact h.undone halive hdone
  · obtain ⟨hdone, hnil, hl, hjoin⟩ := h.joining hcaller
    obtain ⟨hchannel, hl'⟩ := hleft hl
    rw [hitems, hreceived]
    exact ⟨hdone, hchannel.trans hnil, hl', hjoin⟩

/-- A step of the producer. The item that the consumer takes in it goes into the channel, so that
what is received and what is in the channel is still what was taken. -/
theorem produce (h : Inv P p₀ log s) {a : α} {p : σ} {channel : List (Except ε β)}
    (hthread : s.thread = .running) (hexit : P.exit s.producer = none) (hstep : P.step s.producer a p)
    (haccepted : s.caller ≠ .gone → ∀ b err, P.call a ≠ some (b, some err))
    (hchannel : s.caller ≠ .gone → channel = s.channel ++ (P.takes a).toList.map .ok)
    (hgone : s.caller = .gone → P.takes a = none) :
    Inv P p₀ (log ++ [.produced a]) { s with producer := p, channel := channel } := by
  have hproduced : produced (log ++ [.produced a]) = produced log ++ [a] := produced_append log _
  -- a producer that can go on is not complete
  have hnot : ¬ Complete P log s.producer := by
    rintro ⟨-, exit, k, hsome, -⟩
    rw [hexit] at hsome
    cases hsome
  refine h.thread (e := .produced a) s.thread rfl rfl ?_ ?_ (fun halive a' ha' => ?_)
    (fun halive => ?_) (fun hc => absurd hc hnot) (fun hg hserved => ?_) (fun hleft => ?_)
  · rw [hproduced]
    exact h.run.snoc hstep
  · rw [State.Winds, hthread]
    trivial
  · rw [hproduced] at ha'
    rcases List.mem_append.mp ha' with hold | hnew
    · exact h.accepted halive a' hold
    · obtain rfl := List.mem_singleton.mp hnew
      exact haccepted halive
  · have hsent := h.sent halive
    rw [State.tail, hthread, List.append_nil] at hsent
    rw [hproduced, P.taken_append, hchannel halive, ← List.append_assoc, hsent, State.tail, hthread,
      List.append_nil, List.map_append]
  · rcases hserved with ⟨bs, hbs, hitems⟩ | hc
    · refine .inl ⟨bs, ?_, ?_⟩
      · rw [hproduced, P.taken_append, hgone hg]
        exact hbs.trans (List.prefix_append _ _)
      · rw [items_of_none log rfl]
        exact hitems
    · exact absurd hc hnot
  · obtain ⟨panic, hl | hl⟩ := hleft
    all_goals
      rw [hthread] at hl
      cases hl

/-- A step of the thread after the end of its producer. It may put an error into the channel, and
nothing that was produced changes any more. -/
theorem wind (h : Inv P p₀ log s) {thread : Thread ε} {channel : List (Except ε β)}
    (hwinds : ({ s with thread := thread, channel := channel } : State σ β ε).Winds P)
    (hsent : s.caller ≠ .gone → received log ++ channel =
      (P.taken (produced log)).map .ok ++
        ({ s with thread := thread, channel := channel } : State σ β ε).tail P)
    (hleft : s.Left → channel = s.channel ∧
      ({ s with thread := thread, channel := channel } : State σ β ε).Left) :
    Inv P p₀ (log ++ [.wound]) { s with thread := thread, channel := channel } := by
  have hproduced := produced_of_none log (e := .wound) rfl
  have hitems := items_of_none log (e := .wound) rfl
  have hcomplete : Complete P log s.producer → Complete P (log ++ [.wound]) s.producer := by
    rintro ⟨hun, exit, k, hexit, heq⟩
    exact ⟨hproduced.symm ▸ hun, exit, k, hexit, by rw [hproduced, hitems, heq]⟩
  refine h.thread (e := .wound) (p := s.producer) _ rfl rfl ?_ hwinds (fun halive => ?_)
    (fun halive => ?_) hcomplete (fun _ hserved => ?_) hleft
  · rw [hproduced]
    exact h.run
  · rw [hproduced]
    exact h.accepted halive
  · rw [hproduced]
    exact hsent halive
  · rcases hserved with ⟨bs, hbs, heq⟩ | hc
    · exact .inl ⟨bs, by rw [hproduced]; exact hbs, by rw [hitems, heq]⟩
    · exact .inr (hcomplete hc)

/-- A step of the caller leaves the thread alone. The caller may take an item out of the channel or
change its own state, so only the split between the received and the sent items moves. -/
theorem called (h : Inv P p₀ log s) (halive : s.caller ≠ .gone) (channel : List (Except ε β))
    (caller : Caller) (done : Bool) (hproduces : e.produces = none)
    (hsent : caller ≠ .gone → received (log ++ [e]) ++ channel = received log ++ s.channel)
    (hundone : caller ≠ .gone → done = false → items (log ++ [e]) = (received (log ++ [e])).map some)
    (hdone : caller = .between → done = true → Complete P (log ++ [e]) s.producer)
    (hreceiving : caller = .receiving → done = false)
    (hjoining : caller = .joining → done = true ∧ channel = [] ∧ s.Left ∧
      items (log ++ [e]) = (received (log ++ [e])).map some)
    (hgone : caller = .gone → Served P (log ++ [e]) s.producer) :
    Inv P p₀ (log ++ [e]) { s with channel := channel, caller := caller, done := done } := by
  have hproduced := produced_of_none log hproduces
  refine ⟨?_, h.winds, fun _ => ?_, fun hc => ?_, hundone, hdone, hreceiving, hjoining, hgone⟩
  · rw [hproduced]
    exact h.run
  · rw [hproduced]
    exact h.accepted halive
  · rw [hproduced, hsent hc]
    exact h.sent halive

/-- The thread learns that its producer has ended. It has an error to report, nothing to report, or
a panic; the channel stays as it is until it does so. -/
theorem finish (h : Inv P p₀ log s) {exit : Exit ε} (hthread : s.thread = .running)
    (hexit : P.exit s.producer = some exit) :
    Inv P p₀ (log ++ [.wound]) { s with
      thread := match exit with
        | .finished (.error err) => .reporting err
        | .finished (.ok ()) => .leaving none
        | .panicked report => .leaving (some report) } := by
  refine h.wind ?_ (fun halive => ?_) fun hleft => absurd hleft (State.not_left (.inl hthread))
  · rcases exit with (err | ⟨⟩) | report
    · exact hexit
    · exact ⟨_, hexit, rfl⟩
    · exact ⟨_, hexit, rfl⟩
  · rw [h.sent halive, State.tail, State.tail, hthread]
    rcases exit with (err | ⟨⟩) | report
    · rfl
    · simp [hexit, Exit.sent]
    · simp [hexit, Exit.sent]

/-- The error of the producer comes after its items in the channel. -/
theorem report (h : Inv P p₀ log s) {err : ε} (hthread : s.thread = .reporting err) :
    Inv P p₀ (log ++ [.wound])
      { s with thread := .leaving none, channel := s.channel ++ [.error err] } := by
  have hexit := h.winds
  rw [State.Winds, hthread] at hexit
  refine h.wind ⟨_, hexit, rfl⟩ (fun halive => ?_) fun hleft =>
    absurd hleft (State.not_left (.inr ⟨err, hthread⟩))
  have hsent := h.sent halive
  rw [State.tail, hthread, List.append_nil] at hsent
  rw [← List.append_assoc, hsent, State.tail]
  simp [hexit, Exit.sent]

/-- Once the iterator is gone, the error of the producer is lost. -/
theorem lose (h : Inv P p₀ log s) {err : ε} (hthread : s.thread = .reporting err)
    (hgone : s.caller = .gone) : Inv P p₀ (log ++ [.wound]) { s with thread := .leaving none } := by
  have hexit := h.winds
  rw [State.Winds, hthread] at hexit
  exact h.wind ⟨_, hexit, rfl⟩ (fun halive => absurd hgone halive) fun hleft =>
    absurd hleft (State.not_left (.inr ⟨err, hthread⟩))

/-- The thread ends. -/
theorem leave (h : Inv P p₀ log s) {panic : Option ε} (hthread : s.thread = .leaving panic) :
    Inv P p₀ (log ++ [.wound]) { s with thread := .ended panic } := by
  have hexit := h.winds
  rw [State.Winds, hthread] at hexit
  refine h.wind hexit (fun halive => ?_) fun _ => ⟨rfl, panic, .inr rfl⟩
  rw [h.sent halive, State.tail, State.tail, hthread]

/-- `next` is called while the iterator is not done. -/
theorem call (h : Inv P p₀ log s) (halive : s.caller ≠ .gone) (hdone : s.done = false) :
    Inv P p₀ (log ++ [.called]) { s with caller := .receiving } := by
  have hitems := items_of_none log (e := .called) rfl
  have hreceived := received_of_none log (e := .called) rfl
  refine h.called halive s.channel _ s.done rfl (fun _ => ?_) (fun _ _ => ?_)
    (fun hx => by cases hx) (fun _ => hdone) (fun hx => by cases hx) (fun hx => by cases hx)
  · rw [hreceived]
  · rw [hitems, hreceived]
    exact h.undone halive hdone

/-- An iterator that is done has returned everything, and returns `None` once more. -/
theorem exhaust (h : Inv P p₀ log s) (hcaller : s.caller = .between) (hdone : s.done = true) :
    Inv P p₀ (log ++ [.exhausted]) s := by
  have halive : s.caller ≠ .gone := by
    rw [hcaller]
    simp
  refine h.called halive s.channel s.caller s.done rfl (fun _ => ?_)
    (fun _ hx => ?_) (fun _ _ => ?_) h.receiving (fun hx => ?_) (fun hx => absurd hx halive)
  · rw [received_of_none log rfl]
  · rw [hdone] at hx
    cases hx
  · obtain ⟨hun, exit, k, hexit, heq⟩ := h.done hcaller hdone
    refine ⟨by rwa [produced_of_none log rfl], exit, k + 1, hexit, ?_⟩
    rw [items_append, heq, produced_append, List.replicate_succ']
    simp [Event.item, Event.produces]
  · rw [hcaller] at hx
    cases hx

/-- `next` takes the oldest item of the channel; an error is the last one. -/
theorem receive (h : Inv P p₀ log s) (stopsAtError : Bool) {item : Except ε β}
    {rest : List (Except ε β)} (hcaller : s.caller = .receiving) (hchannel : s.channel = item :: rest) :
    Inv P p₀ (log ++ [.received item]) { s with
      channel := rest
      caller := .between
      done := match item with
        | .error _ => stopsAtError
        | .ok _ => false } := by
  have halive : s.caller ≠ .gone := by
    rw [hcaller]
    simp
  have hitems := h.undone halive (h.receiving hcaller)
  have hall : items (log ++ [.received item]) = (received (log ++ [.received item])).map some := by
    rw [items_append, received_append, hitems, List.map_append]
    rfl
  refine h.called halive _ _ _ rfl (fun _ => ?_) (fun _ _ => hall) (fun _ hx => ?_)
    (fun hx => by cases hx) (fun hx => by cases hx) (fun hx => by cases hx)
  · rw [received_append, hchannel]
    exact (List.append_assoc _ _ _).trans rfl
  · cases item with
    | ok b => cases hx
    | error err => exact (h.complete_of_error halive hchannel hitems).2

/-- `next` finds the channel empty and closed. The thread has left by then, so nothing can follow,
and the call goes on to join it. -/
theorem hangUp (h : Inv P p₀ log s) (hcaller : s.caller = .receiving) (hchannel : s.channel = [])
    (hleft : s.Left) : Inv P p₀ (log ++ [.hungUp]) { s with caller := .joining, done := true } := by
  have halive : s.caller ≠ .gone := by
    rw [hcaller]
    simp
  have hitems := items_of_none log (e := .hungUp) rfl
  have hreceived := received_of_none log (e := .hungUp) rfl
  refine h.called halive s.channel _ _ rfl (fun _ => ?_) (fun _ hx => by cases hx)
    (fun hx => by cases hx) (fun hx => by cases hx) (fun _ => ⟨rfl, hchannel, hleft, ?_⟩)
    (fun hx => by cases hx)
  · rw [hreceived]
  · rw [hitems, hreceived]
    exact h.undone halive (h.receiving hcaller)

/-- After the join everything has been returned: what the producer sent, and a panic. -/
theorem complete_of_joined (h : Inv P p₀ log s) {panic : Option ε} (hcaller : s.caller = .joining)
    (hthread : s.thread = .ended panic) : Complete P (log ++ [.joined panic]) s.producer := by
  have halive : s.caller ≠ .gone := by
    rw [hcaller]
    simp
  obtain ⟨-, hchannel, hleft, hitems⟩ := h.joining hcaller
  obtain ⟨exit, hexit, htail⟩ := h.tail_of_left hleft
  have hpanic : panic = exit.panic := by
    have hwinds := h.winds
    rw [State.Winds, hthread] at hwinds
    obtain ⟨exit', hexit', heq⟩ := hwinds
    rw [heq, Option.some.inj (hexit'.symm.trans hexit)]
  have hsent := h.sent halive
  rw [hchannel, List.append_nil, htail] at hsent
  have heq : items (log ++ [.joined panic]) =
      (P.taken (produced log)).map (fun b => some (.ok b)) ++
        (exit.sent.map some ++ [panic.map .error]) := by
    rw [items_append, hitems, hsent, List.map_append, List.map_map, List.append_assoc]
    rfl
  have hproduced := produced_of_none log (e := .joined panic) rfl
  refine ⟨hproduced.symm ▸ h.accepted halive, ?_⟩
  rcases exit with (err | ⟨⟩) | report
  · exact ⟨_, 1, hexit, by rw [heq, hproduced, hpanic]; simp [Exit.sent, Exit.items, Exit.panic]⟩
  · exact ⟨_, 1, hexit, by rw [heq, hproduced, hpanic]; simp [Exit.sent, Exit.items, Exit.panic]⟩
  · exact ⟨_, 0, hexit, by rw [heq, hproduced, hpanic]; simp [Exit.sent, Exit.items, Exit.panic]⟩

/-- `next` joins the thread, which has ended. Everything has been received by then, and only a panic
is still to be returned. -/
theorem join (h : Inv P p₀ log s) {panic : Option ε} (hcaller : s.caller = .joining)
    (hthread : s.thread = .ended panic) :
    Inv P p₀ (log ++ [.joined panic]) { s with caller := .between } := by
  have halive : s.caller ≠ .gone := by
    rw [hcaller]
    simp
  refine h.called halive s.channel _ s.done rfl (fun _ => ?_) (fun _ hx => ?_)
    (fun _ _ => h.complete_of_joined hcaller hthread) (fun hx => by cases hx) (fun hx => by cases hx)
    (fun hx => by cases hx)
  · rw [received_of_none log rfl]
  · rw [(h.joining hcaller).1] at hx
    cases hx

/-- The iterator is dropped, with what was still in the channel. -/
theorem drop (h : Inv P p₀ log s) (hcaller : s.caller = .between) :
    Inv P p₀ (log ++ [.dropped]) { s with caller := .gone, channel := [] } := by
  have halive : s.caller ≠ .gone := by
    rw [hcaller]
    simp
  refine h.called halive _ _ s.done rfl (fun hx => absurd rfl hx) (fun hx => absurd rfl hx)
    (fun hx => by cases hx) (fun hx => by cases hx) (fun hx => by cases hx) (fun _ => ?_)
  have hserved := h.served
  rw [Served, Complete] at hserved ⊢
  rwa [items_of_none log rfl, produced_of_none log rfl]

/-- Every step keeps the invariant. The steps of the thread are those of its producer and the
winding up, and those of the caller only move items out of the channel. -/
theorem step (h : Inv P p₀ log s) (hstep : Step P c s e s') : Inv P p₀ (log ++ [e]) s' := by
  cases hstep with
  | produce a p hthread hexit hp hcall =>
      refine h.produce hthread hexit hp (fun _ b err => ?_) (fun _ => ?_) fun _ => ?_
      · rw [hcall]
        simp
      · rw [Producer.takes, hcall]
        exact (List.append_nil _).symm
      · rw [Producer.takes, hcall]
  | deliver a p b hthread hexit hp hcall halive hroom =>
      refine h.produce hthread hexit hp (fun _ b' err => ?_) (fun _ => ?_) fun hgone => absurd hgone halive
      · rw [hcall]
        simp
      · rw [Producer.takes, hcall]
        rfl
  | refuse a p b hthread hexit hp hcall hgone =>
      refine h.produce hthread hexit hp (fun halive => absurd hgone halive)
        (fun halive => absurd hgone halive) fun _ => ?_
      rw [Producer.takes, hcall]
  | finish exit hthread hexit => exact h.finish hthread hexit
  | report err hthread halive hroom => exact h.report hthread
  | lose err hthread hgone => exact h.lose hthread hgone
  | leave panic hthread => exact h.leave hthread
  | call hcaller hdone => exact h.call (by rw [hcaller]; simp) hdone
  | exhaust hcaller hdone => exact h.exhaust hcaller hdone
  | receive item rest hcaller hchannel => exact h.receive c.stopsAtError hcaller hchannel
  | hangUp panic hcaller hchannel hthread => exact h.hangUp hcaller hchannel ⟨panic, hthread⟩
  | join panic hcaller hthread => exact h.join hcaller hthread
  | drop hcaller => exact h.drop hcaller

end Inv

/-- The invariant holds in every run of the two threads. -/
theorem inv_of_steps (h : Steps (Step P c) (started p₀) log s) : Inv P p₀ log s :=
  h.invariant (inv_started P p₀) fun _ _ _ _ hinv hstep => hinv.step hstep

end Safety

/-! ## Every call returns -/

section Progress

variable {P : Producer σ α β ε} {c : Channel ε} {s s' : State σ β ε} {p₀ : σ} {φ : σ → Nat}
  {log : List (Event α β ε)} {e : Event α β ε}

/-- The producer does not get stuck, whatever its consumer answers, and does not run forever. -/
structure Lively (P : Producer σ α β ε) (p₀ : σ) (φ : σ → Nat) : Prop where
  decreases : ∀ p a p', P.step p a p' → φ p' < φ p
  progress : ∀ log p, Steps P.step p₀ log p → P.exit p = none →
    (∃ a p', P.step p a p' ∧ P.call a = none) ∨
      ∃ b, ∀ failure, ∃ a p', P.step p a p' ∧ P.call a = some (b, failure)

/-- What a thread has still to do after its producer. -/
def Thread.weight : Thread ε → Nat
  | .running => 4
  | .reporting _ => 3
  | .leaving _ => 1
  | .ended _ => 0

/-- What the caller has still to do in its call. -/
def Caller.weight : Caller → Nat
  | .receiving => 2
  | .joining => 1
  | .between | .gone => 0

/-- A bound on the steps to come before the caller does something. -/
def State.potential (φ : σ → Nat) (s : State σ β ε) : Nat :=
  2 * φ s.producer + s.thread.weight + s.channel.length + s.caller.weight

/-- Every step that is not the caller's choice lowers the potential. -/
theorem Step.potential_lt (h : Step P c s e s') (hquiet : e.quiet = true)
    (hφ : ∀ p a p', P.step p a p' → φ p' < φ p) : s'.potential φ < s.potential φ := by
  cases h with
  | produce a p hthread hexit hstep hcall =>
      have hlt := hφ _ _ _ hstep
      simp only [State.potential]
      omega
  | deliver a p b hthread hexit hstep hcall halive hroom =>
      have hlt := hφ _ _ _ hstep
      simp only [State.potential, List.length_append, List.length_singleton]
      omega
  | refuse a p b hthread hexit hstep hcall hgone =>
      have hlt := hφ _ _ _ hstep
      simp only [State.potential]
      omega
  | finish exit hthread hexit =>
      simp only [State.potential, hthread]
      rcases exit with (err | ⟨⟩) | report <;> simp [Thread.weight]
  | report err hthread halive hroom => simp [State.potential, hthread, Thread.weight]; omega
  | lose err hthread hgone => simp [State.potential, hthread, Thread.weight]
  | leave panic hthread => simp [State.potential, hthread, Thread.weight]
  | call hcaller hdone => cases hquiet
  | exhaust hcaller hdone => cases hquiet
  | receive item rest hcaller hchannel =>
      simp [State.potential, hcaller, hchannel, Caller.weight]
      omega
  | hangUp panic hcaller hchannel hthread => simp [State.potential, hcaller, Caller.weight]
  | join panic hcaller hthread => simp [State.potential, hcaller, Caller.weight]
  | drop hcaller => cases hquiet

/-- As long as the caller does nothing of its own accord, no more than the potential happens. -/
theorem length_le_of_quiet (h : Steps (Step P c) s log s') (hquiet : ∀ e ∈ log, e.quiet = true)
    (hφ : ∀ p a p', P.step p a p' → φ p' < φ p) :
    log.length + s'.potential φ ≤ s.potential φ := by
  induction h with
  | refl => exact (Nat.zero_add _).le
  | snoc _ hstep ih =>
      have hbefore := ih fun e he => hquiet e (List.mem_append_left _ he)
      have hlast := hstep.potential_lt
        (hquiet _ (List.mem_append_right _ (List.mem_singleton_self _))) hφ
      rw [List.length_append, List.length_singleton]
      omega

/-- While a call is under way, or the thread of a dropped iterator has not ended, one of the two can
go on. A producer that waits for room waits for the caller, who is at `recv` with an item to
receive; a caller that waits for an item waits for the producer, which is running. -/
theorem Inv.progress (h : Inv P p₀ log s) (hlively : Lively P p₀ φ)
    (hbusy : s.caller = .receiving ∨ s.caller = .joining ∨
      s.caller = .gone ∧ ∀ panic, s.thread ≠ .ended panic) :
    ∃ e s', Step P c s e s' ∧ e.quiet = true := by
  -- a send goes through whenever the caller waits for it
  have hroom : s.caller = .receiving → s.channel = [] → s.Room c := by
    intro hcaller hchannel
    rcases Nat.eq_zero_or_pos c.capacity with hzero | hpos
    · exact .inr ⟨hzero, hchannel, hcaller⟩
    · refine .inl ?_
      rw [hchannel]
      exact hpos
  by_cases hjoining : s.caller = .joining
  · obtain ⟨-, -, ⟨panic, hthread | hthread⟩, -⟩ := h.joining hjoining
    · exact ⟨_, _, .leave panic hthread, rfl⟩
    · exact ⟨_, _, .join panic hjoining hthread, rfl⟩
  have hwaits : s.caller = .receiving ∨ s.caller = .gone ∧ ∀ panic, s.thread ≠ .ended panic :=
    hbusy.imp_right fun hb => hb.resolve_left hjoining
  by_cases hreceive : s.caller = .receiving ∧ s.channel ≠ []
  · obtain ⟨hcaller, hne⟩ := hreceive
    cases hchannel : s.channel with
    | nil => exact absurd hchannel hne
    | cons item rest => exact ⟨_, _, .receive item rest hcaller hchannel, rfl⟩
  have hempty : s.caller = .receiving → s.channel = [] := fun hcaller => by
    by_contra hne
    exact hreceive ⟨hcaller, hne⟩
  cases hthread : s.thread with
  | running =>
      cases hexit : P.exit s.producer with
      | some exit => exact ⟨_, _, .finish exit hthread hexit, rfl⟩
      | none =>
          rcases hlively.progress _ _ h.run hexit with ⟨a, p, hstep, hcall⟩ | ⟨b, hanswers⟩
          · exact ⟨_, _, .produce a p hthread hexit hstep hcall, rfl⟩
          · rcases hwaits with hcaller | ⟨hcaller, -⟩
            · obtain ⟨a, p, hstep, hcall⟩ := hanswers none
              refine ⟨_, _, .deliver a p b hthread hexit hstep hcall ?_ (hroom hcaller (hempty hcaller)),
                rfl⟩
              rw [hcaller]
              simp
            · obtain ⟨a, p, hstep, hcall⟩ := hanswers (some c.disconnected)
              exact ⟨_, _, .refuse a p b hthread hexit hstep hcall hcaller, rfl⟩
  | reporting err =>
      rcases hwaits with hcaller | ⟨hcaller, -⟩
      · refine ⟨_, _, .report err hthread ?_ (hroom hcaller (hempty hcaller)), rfl⟩
        rw [hcaller]
        simp
      · exact ⟨_, _, .lose err hthread hcaller, rfl⟩
  | leaving panic => exact ⟨_, _, .leave panic hthread, rfl⟩
  | ended panic =>
      rcases hwaits with hcaller | ⟨-, hrunning⟩
      · exact ⟨_, _, .hangUp panic hcaller (hempty hcaller) (.inr hthread), rfl⟩
      · exact absurd hthread (hrunning panic)

/-- A run in which the caller does nothing of its own accord is bounded, and comes to rest only when
the call has returned, or the thread of a dropped iterator has ended. -/
theorem comes_to_rest (h : Steps (Step P c) (started p₀) log s) (hlively : Lively P p₀ φ) :
    (∀ log' s', Steps (Step P c) s log' s' → (∀ e ∈ log', e.quiet = true) →
        log'.length ≤ s.potential φ) ∧
      ((∀ e s', Step P c s e s' → e.quiet = false) →
        s.caller = .between ∨ s.caller = .gone ∧ ∃ panic, s.thread = .ended panic) := by
  refine ⟨fun log' s' hrun hquiet => ?_, fun hrest => ?_⟩
  · exact (Nat.le_add_right _ _).trans (length_le_of_quiet hrun hquiet hlively.decreases)
  · by_contra hnot
    push Not at hnot
    obtain ⟨hbetween, hgone⟩ := hnot
    obtain ⟨e, s', hstep, hquiet⟩ := (inv_of_steps h).progress hlively (c := c) <| by
      cases hcaller : s.caller with
      | between => exact absurd hcaller hbetween
      | receiving => exact .inl rfl
      | joining => exact .inr (.inl rfl)
      | gone => exact .inr (.inr ⟨rfl, hgone hcaller⟩)
    rw [hrest e s' hstep] at hquiet
    cases hquiet

end Progress

end Handoff

end Rypipe
