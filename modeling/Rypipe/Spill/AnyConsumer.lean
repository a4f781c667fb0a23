import Rypipe.Spill.Accounting

/-! # Spilling to any consumer

What a sink hands out does not depend on its consumer: a consumer that answers as it likes is given the
batches that a collecting consumer would collect, in order, up to the first that it refuses. -/

namespace Rypipe

section Spill

variable [Platform]

namespace SpillSink

open TableBuilder (Call)

variable {κ : Type} [BatchConsumer κ] (options : SpillOptions)

/-- The end of `run_slice_spill`: the calls of the parser, what it returned, and `finish_run`. -/
def runSliceSpill (options : SpillOptions) (s : SpillSink κ) (calls : List (Call × Sizes))
    (parsed : Except Error Unit) (sizes : Sizes) : SpillSink κ × Except Error Unit :=
  let s := s.callAll options calls
  match parsed with
  | .error err => (s, .error err)
  | .ok () => (s.spill options sizes, (s.finishRun options sizes).map fun _ => ())

/-- A consumer that is given batches until it refuses one. -/
def feed (c : κ) : List RecordBatch → κ × Option Error
  | [] => (c, none)
  | batch :: batches =>
      match consume c batch with
      | (c', .error err) => (c', some err)
      | (c', .ok ()) => feed c' batches

/-- After a refusal nothing more is given. The consumer is as it was when it refused, and the error
is the first one. -/
theorem feed_append_of_some {c c' : κ} {err : Error} {batches : List RecordBatch}
    (h : feed c batches = (c', some err)) (later : List RecordBatch) :
    feed c (batches ++ later) = (c', some err) := by
  induction batches generalizing c with
  | nil => cases h
  | cons batch batches ih =>
      rw [List.cons_append, feed]
      rw [feed] at h
      cases hconsume : consume c batch with
      | mk c'' answer =>
          rw [hconsume] at h
          cases answer with
          | error err' => exact h
          | ok u => exact ih h

/-- One more batch is given to a consumer that has taken all before. -/
theorem feed_concat {c c' : κ} {batches : List RecordBatch} (h : feed c batches = (c', none))
    (batch : RecordBatch) :
    feed c (batches ++ [batch]) = match consume c' batch with
      | (c'', .error err) => (c'', some err)
      | (c'', .ok ()) => (c'', none) := by
  induction batches generalizing c with
  | nil =>
      cases h
      rfl
  | cons first batches ih =>
      rw [List.cons_append, feed]
      rw [feed] at h
      cases hconsume : consume c first with
      | mk c'' answer =>
          rw [hconsume] at h
          cases answer with
          | error err' => cases h
          | ok u => exact ih h

/-- The two sinks are in step, or the consumer of the first has refused a batch. -/
inductive Sees (c : κ) (s : SpillSink κ) (t : SpillSink CollectingConsumer) : Prop
  | fed (h : feed c t.consumer.batches = (s.consumer, none)) (hengine : s.engine = t.engine)
      (hstats : s.stats = t.stats) (herror : s.error = t.error)
  | refused (err : Error) (h : feed c t.consumer.batches = (s.consumer, some err))
      (herror : s.error = some err)

variable {c : κ} {s : SpillSink κ} {t : SpillSink CollectingConsumer} {sizes sizes' : Sizes}

/-- A sink with an error leaves its consumer alone. -/
theorem spill_of_error {err : Error} (h : s.error = some err) (sizes : Sizes) :
    s.spill options sizes = s := by
  rw [spill, h]
  rfl

/-- A sink with an error gives its consumer nothing more and keeps the error. -/
theorem call_of_error {err : Error} (h : s.error = some err) (c : Call × Sizes) :
    (s.call options c).consumer = s.consumer ∧ (s.call options c).error = some err := by
  rw [call]
  split
  · simp [shouldSpill, h]
  · exact ⟨rfl, h⟩

/-- The same over many calls. -/
theorem callAll_of_error {err : Error} (h : s.error = some err) (calls : List (Call × Sizes)) :
    (s.callAll options calls).consumer = s.consumer ∧ (s.callAll options calls).error = some err := by
  induction calls generalizing s with
  | nil => exact ⟨rfl, h⟩
  | cons c calls ih =>
      obtain ⟨hconsumer, herror⟩ := call_of_error options h c
      obtain ⟨hc, he⟩ := ih herror
      exact ⟨hc.trans hconsumer, he⟩

/-- The collected batches only become more. -/
theorem prefix_deliver {t' : SpillSink CollectingConsumer} (h : t'.consumer = t.consumer) (rows : Nat)
    (batch : RecordBatch) :
    t.consumer.batches <+: (t'.deliver options rows sizes batch).1.consumer.batches := by
  rw [← h, deliver]
  split
  · exact List.prefix_refl _
  · exact List.prefix_append _ _

/-- A spill adds at most one batch after those that were collected. -/
theorem prefix_spill : t.consumer.batches <+: (t.spill options sizes).consumer.batches := by
  have hinner : t.consumer.batches <+: (t.spillInner options sizes).1.consumer.batches := by
    rw [spillInner]
    dsimp only
    split
    · exact List.prefix_refl _
    · split
      · exact List.prefix_refl _
      · refine prefix_deliver options (t := t) ?_ _ _
        rfl
  rw [spill]
  split
  · exact List.prefix_refl _
  · split
    · next s' err heq =>
      rw [heq] at hinner
      exact hinner
    · next s' heq =>
      rw [heq] at hinner
      exact hinner

/-- So does a call. -/
theorem prefix_call (c : Call × Sizes) :
    t.consumer.batches <+: (t.call options c).consumer.batches := by
  rw [call]
  split
  · split
    · exact prefix_spill options
        (t := { t with engine := t.engine.callWithin options.memoryLimit (c.1, c.2.reserve) })
    · exact List.prefix_refl _
  · exact List.prefix_refl _

/-- Calls only add batches at the end. -/
theorem prefix_callAll (calls : List (Call × Sizes)) :
    t.consumer.batches <+: (t.callAll options calls).consumer.batches := by
  induction calls generalizing t with
  | nil => exact List.prefix_refl _
  | cons c calls ih => exact (prefix_call options c).trans ih

/-- A refusal stays the last word. -/
theorem refused_of_prefix {t' : SpillSink CollectingConsumer} {s' : SpillSink κ} {err : Error}
    (h : feed c t.consumer.batches = (s.consumer, some err))
    (hfirst : t.consumer.batches <+: t'.consumer.batches) (hconsumer : s'.consumer = s.consumer)
    (herror : s'.error = some err) : Sees c s' t' := by
  obtain ⟨later, hlater⟩ := hfirst
  refine .refused err ?_ herror
  rw [← hlater, feed_append_of_some h, hconsumer]

/-- A spill gives both consumers the same batch. The collecting one takes it; if the other refuses
it, the refusal is that sink's error, and from then on it is given nothing. -/
theorem Sees.spill (h : Sees c s t) (sizes : Sizes) :
    Sees c (s.spill options sizes) (t.spill options sizes) := by
  cases h with
  -- after a refusal nothing more is handed over
  | refused err h herror =>
      rw [spill_of_error options herror]
      exact refused_of_prefix h (prefix_spill options) rfl herror
  | fed h hengine hstats herror =>
      obtain ⟨engine, consumer, stats, error⟩ := s
      obtain ⟨engine', consumer', stats', error'⟩ := t
      obtain rfl : engine = engine' := hengine
      obtain rfl : stats = stats' := hstats
      obtain rfl : error = error' := herror
      rw [SpillSink.spill, SpillSink.spill]
      dsimp only
      split
      · exact .fed h rfl rfl rfl
      · next hgo =>
        obtain rfl : error = none := by
          cases error with
          | none => rfl
          | some err => exact absurd rfl hgo
        rw [spillInner, spillInner]
        dsimp only
        cases (engine.splitOff engine.rowCount).1.prepareFinishWithin options.memoryLimit sizes.part with
        | error err => exact .fed h rfl rfl rfl
        | ok prepared =>
            dsimp only
            cases (engine.splitOff engine.rowCount).1.finish with
            | error err => exact .fed h rfl rfl rfl
            | ok batch =>
                dsimp only
                rw [deliver, deliver]
                cases (options.budget.share 4).check sizes.batch with
                | error err => exact .fed h rfl rfl rfl
                | ok u =>
                    -- one batch more is handed over, and the consumer's answer decides how the
                    -- run goes on
                    have hnext := feed_concat h batch
                    dsimp only
                    cases hconsume : consume consumer batch with
                    | mk c' answer =>
                        rw [hconsume] at hnext
                        cases answer with
                        | error err => exact .refused err hnext rfl
                        | ok u => exact .fed hnext rfl rfl rfl

/-- The sinks stay in step. A call that spills gives the batch to both consumers, and the one that
collects refuses none. -/
theorem Sees.call (h : Sees c s t) (d : Call × Sizes) :
    Sees c (s.call options d) (t.call options d) := by
  cases h with
  | refused err h herror =>
      obtain ⟨hconsumer, herror'⟩ := call_of_error options herror d
      exact refused_of_prefix h (prefix_call options d) hconsumer herror'
  | fed h hengine hstats herror =>
      have hstep : Sees c { s with engine := s.engine.callWithin options.memoryLimit (d.1, d.2.reserve) }
          { t with engine := t.engine.callWithin options.memoryLimit (d.1, d.2.reserve) } :=
        .fed h (by rw [hengine]) hstats herror
      have hspills : ({ s with engine := s.engine.callWithin options.memoryLimit (d.1, d.2.reserve) } :
            SpillSink κ).shouldSpill options d.2 =
          ({ t with engine := t.engine.callWithin options.memoryLimit (d.1, d.2.reserve) } :
            SpillSink CollectingConsumer).shouldSpill options d.2 := by
        rw [shouldSpill, shouldSpill, herror, hengine]
      rw [SpillSink.call, SpillSink.call]
      split
      · rw [hspills]
        split
        · exact hstep.spill options d.2
        · exact hstep
      · exact hstep

/-- The relation of the two sinks is kept by every run of calls. -/
theorem Sees.callAll (h : Sees c s t) (calls : List (Call × Sizes)) :
    Sees c (s.callAll options calls) (t.callAll options calls) := by
  induction calls generalizing s t with
  | nil => exact h
  | cons d calls ih => exact ih (h.call options d)

/-- The end of the run is the same for both, unless the consumer has refused a batch. -/
theorem Sees.surface (h : Sees c s t) (sizes : Sizes) :
    ((feed c t.consumer.batches).2 = none →
        (s.surface options sizes).map (fun _ => ()) = (t.surface options sizes).map fun _ => ()) ∧
      ∀ err, (feed c t.consumer.batches).2 = some err → s.surface options sizes = .error err := by
  cases h with
  | refused err h herror =>
      rw [h]
      refine ⟨fun hnone => (by cases hnone), fun err' herr => ?_⟩
      obtain rfl := Option.some.inj herr
      rw [SpillSink.surface, herror]
  | fed h hengine hstats herror =>
      rw [h]
      refine ⟨fun _ => ?_, fun err' herr => (by cases herr)⟩
      rw [SpillSink.surface, SpillSink.surface, herror, hengine]
      cases t.error with
      | some err => rfl
      | none =>
          cases t.engine.unknownError with
          | some message => rfl
          | none =>
              cases t.engine.strictError with
              | some err => rfl
              | none => cases t.engine.checkMemoryBudget options.memoryLimit sizes.grown <;> rfl

omit [BatchConsumer κ] in
/-- A sink with an error returns one. -/
theorem surface_of_error {err : Error} (h : s.error = some err) :
    s.surface options sizes = .error err := by
  rw [surface, h]

/-- The rest of a run that is the same for both sinks. What the consumer was given is what the other
one has collected, up to the batch that it refused. -/
theorem Sees.run (h : Sees c s t) (calls : List (Call × Sizes)) (parsed : Except Error Unit)
    (sizes : Sizes) :
    let run := s.runSliceSpill options calls parsed sizes
    let collected := t.runSliceSpill options calls parsed sizes
    run.1.consumer = (feed c collected.1.consumer.batches).1 ∧
      ((feed c collected.1.consumer.batches).2 = none → run.2 = collected.2) ∧
      ∀ err, (feed c collected.1.consumer.batches).2 = some err →
        run.2 = .error err ∨ ∃ err', parsed = .error err' ∧ run.2 = .error err' := by
  have hconsumer : ∀ {s : SpillSink κ} {t : SpillSink CollectingConsumer}, Sees c s t →
      s.consumer = (feed c t.consumer.batches).1 := by
    intro s t h
    cases h with
    | fed h _ _ _ => rw [h]
    | refused err h _ => rw [h]
  have hcalls := h.callAll options calls
  cases parsed with
  | error err' => exact ⟨hconsumer hcalls, fun _ => rfl, fun err _ => .inr ⟨err', rfl, rfl⟩⟩
  | ok u =>
      have hspill := hcalls.spill options sizes
      obtain ⟨hnone, hsome⟩ := hspill.surface options sizes
      refine ⟨hconsumer hspill, hnone, fun err herr => .inl ?_⟩
      have hresult : s.runSliceSpill options calls (.ok u) sizes =
          (((s.callAll options calls).spill options sizes),
            (((s.callAll options calls).spill options sizes).surface options sizes).map fun _ => ()) := rfl
      rw [hresult]
      dsimp only
      rw [hsome err herr]
      rfl

/-- The rest of a run whose sink has an error: it gives the consumer nothing, and returns an error. -/
theorem run_of_error {err : Error} (h : s.error = some err) (calls : List (Call × Sizes))
    (parsed : Except Error Unit) (sizes : Sizes) :
    (s.runSliceSpill options calls parsed sizes).1.consumer = s.consumer ∧
      ((s.runSliceSpill options calls parsed sizes).2 = .error err ∨
        ∃ err', parsed = .error err' ∧
          (s.runSliceSpill options calls parsed sizes).2 = .error err') := by
  obtain ⟨hconsumer, herror⟩ := callAll_of_error options h calls
  cases parsed with
  | error err' => exact ⟨hconsumer, .inr ⟨err', rfl, rfl⟩⟩
  | ok u =>
      have hspill := spill_of_error options herror sizes
      have hresult : s.runSliceSpill options calls (.ok u) sizes =
          (((s.callAll options calls).spill options sizes),
            (((s.callAll options calls).spill options sizes).surface options sizes).map fun _ => ()) := rfl
      rw [hresult, hspill, surface_of_error options herror]
      exact ⟨hconsumer, .inl rfl⟩

/-- The collected batches of the rest of a run. -/
theorem prefix_run (calls : List (Call × Sizes)) (parsed : Except Error Unit) (sizes : Sizes) :
    t.consumer.batches <+: (t.runSliceSpill options calls parsed sizes).1.consumer.batches := by
  cases parsed with
  | error err => exact prefix_callAll options calls
  | ok u => exact (prefix_callAll options calls).trans (prefix_spill options)

/-- A run may be cut after its first calls. -/
theorem runSliceSpill_append (s : SpillSink κ) (common rest : List (Call × Sizes))
    (parsed : Except Error Unit) (sizes : Sizes) :
    s.runSliceSpill options (common ++ rest) parsed sizes =
      (s.callAll options common).runSliceSpill options rest parsed sizes := by
  simp only [runSliceSpill, callAll, List.foldl_append]

end SpillSink

open SpillSink in
/-- A run gives any consumer the batches that a collecting consumer would collect, in order, up to the
first that it refuses. If it refuses none, the run returns what the collecting one does; otherwise it
returns an error, the refusal unless the parser itself fails. The run may differ from the collecting one
once its sink has an error: the parser may stop there. -/
theorem consumer_sees {κ : Type} [BatchConsumer κ] {options : SpillOptions} (b : TableBuilder) (c : κ)
    (common rest rest' : List (TableBuilder.Call × Sizes)) (parsed parsed' : Except Error Unit)
    (sizes sizes' : Sizes)
    (h : (rest = rest' ∧ parsed = parsed' ∧ sizes = sizes') ∨
      (({ engine := b, consumer := c } : SpillSink κ).callAll options common).error.isSome = true) :
    let run := ({ engine := b, consumer := c } : SpillSink κ).runSliceSpill options (common ++ rest)
      parsed sizes
    let collected := ({ engine := b, consumer := {} } : SpillSink CollectingConsumer).runSliceSpill
      options (common ++ rest') parsed' sizes'
    run.1.consumer = (feed c collected.1.consumer.batches).1 ∧
      ((feed c collected.1.consumer.batches).2 = none →
        run.2 = collected.2 ∨ (∃ err, run.2 = .error err) ∧ ∃ err, collected.2 = .error err) ∧
      ∀ err, (feed c collected.1.consumer.batches).2 = some err →
        run.2 = .error err ∨ ∃ err', parsed = .error err' ∧ run.2 = .error err' := by
  intro run collected
  have hstart : Sees c ({ engine := b, consumer := c } : SpillSink κ)
      ({ engine := b, consumer := {} } : SpillSink CollectingConsumer) := .fed rfl rfl rfl rfl
  have hcommon := hstart.callAll options common
  have hrun : run = _ := runSliceSpill_append options _ common rest parsed sizes
  have hcollected : collected = _ := runSliceSpill_append options _ common rest' parsed' sizes'
  rw [hrun, hcollected]
  rcases h with ⟨rfl, rfl, rfl⟩ | herror
  · obtain ⟨hconsumer, hnone, hsome⟩ := hcommon.run options rest parsed sizes
    exact ⟨hconsumer, fun h => .inl (hnone h), hsome⟩
  · obtain ⟨err, herr⟩ := Option.isSome_iff_exists.mp herror
    obtain ⟨hsame, hresult⟩ := run_of_error options herr rest parsed sizes
    cases hcommon with
    | fed hfeed hengine hstats heq =>
        -- both sinks have the error, and neither consumer is given anything more
        have herr' := heq.symm.trans herr
        obtain ⟨hsame', hresult'⟩ := run_of_error options herr' rest' parsed' sizes'
        rw [hsame, hsame', hfeed]
        refine ⟨rfl, fun _ => .inr ⟨?_, ?_⟩, fun err hx => (by cases hx)⟩
        · exact hresult.elim (fun h => ⟨_, h⟩) fun ⟨e, _, h⟩ => ⟨e, h⟩
        · exact hresult'.elim (fun h => ⟨_, h⟩) fun ⟨e, _, h⟩ => ⟨e, h⟩
    | refused err' hfeed herr' =>
        obtain rfl := Option.some.inj (herr'.symm.trans herr)
        obtain ⟨later, hlater⟩ := prefix_run options
          (t := ({ engine := b, consumer := {} } : SpillSink CollectingConsumer).callAll options common)
          rest' parsed' sizes'
        rw [hsame, ← hlater, feed_append_of_some hfeed]
        refine ⟨rfl, fun hx => (by cases hx), fun err hx => ?_⟩
        obtain rfl := Option.some.inj hx
        exact hresult

end Spill

section Examples

attribute [local instance] integerPlatform

/-- A consumer that takes one batch. -/
structure TakesOne where
  full : Bool := false

instance : BatchConsumer TakesOne where
  consume c _ := if c.full then (c, .error (.plan "full")) else (⟨true⟩, .ok ())

open SpillSink in
/-- It refuses the second batch, and the run returns the refusal. -/
theorem consumer_sees_refusal :
    (({ engine := TableBuilder.start {} none, consumer := {} } : SpillSink TakesOne).runSliceSpill everyRow
      (oneField "k" "1" ++ oneField "k" "2") (.ok ()) {}).2 = .error (.plan "full") ∨
    ∃ err', (.ok () : Except Error Unit) = .error err' ∧
      (({ engine := TableBuilder.start {} none, consumer := {} } : SpillSink TakesOne).runSliceSpill
        everyRow (oneField "k" "1" ++ oneField "k" "2") (.ok ()) {}).2 = .error err' :=
  (consumer_sees (TableBuilder.start {} none) ({} : TakesOne) (oneField "k" "1") (oneField "k" "2")
    (oneField "k" "2") (.ok ()) (.ok ()) {} {} (.inl ⟨rfl, rfl, rfl⟩)).2.2 (.plan "full") rfl

end Examples

end Rypipe
