import Rypipe.Engine.FilteredRun
import Rypipe.Spill.Runs

/-! # The rows of a spilled run

A sink in front of a collecting consumer. Where the filter, if there is one, reads the records alike,
what the consumer has received and what the builder still holds are the rows that pass. Each time the
rows are cut off, the batch has those that were held, and no batch has more of them than the target. -/

namespace Rypipe

section Spill

variable [Platform]

namespace SpillSink

open TableBuilder

variable {κ : Type} [BatchConsumer κ]

/-! ## Records -/

/-- A record, with the sizes that its calls find. -/
structure Measured where
  entry : EntryPoint
  stops : Bool
  fields : List ((String × Value) × Sizes)
  opening : Sizes
  closing : Sizes

/-- The record itself. -/
def Measured.record (m : Measured) : Sent := ⟨m.entry, m.stops, m.fields.map Prod.fst⟩

/-- Send a field to the sink, unless it is dropped. -/
def sendField (options : SpillOptions) (s : SpillSink κ) (entry : EntryPoint)
    (field : (String × Value) × Sizes) : SpillSink κ :=
  ((entry.put s.engine.plan field.1).map fun p => s.call options (.put p, field.2)).getD s

/-- Send the fields of a record to the sink. -/
def sendFields (options : SpillOptions) (s : SpillSink κ) (entry : EntryPoint) (stops : Bool) :
    List ((String × Value) × Sizes) → SpillSink κ
  | [] => s
  | field :: fields =>
      let s := s.sendField options entry field
      if stops && s.engine.rowRejected then s else s.sendFields options entry stops fields

/-- Send a record to the sink. -/
def send (options : SpillOptions) (s : SpillSink κ) (m : Measured) : SpillSink κ :=
  ((s.call options (.beginRow, m.opening)).sendFields options m.entry m.stops m.fields).call options
    (.endRow, m.closing)

/-- Send the records of an input. -/
def sendAll (options : SpillOptions) (s : SpillSink κ) (records : List Measured) : SpillSink κ :=
  records.foldl (send options) s

/-! ## Memory limits -/

section Limits

variable {options : SpillOptions}

/-- A doomed sink stays so. -/
theorem Doomed.sendField {s : SpillSink κ} (h : s.Doomed) (entry : EntryPoint)
    (field : (String × Value) × Sizes) : (s.sendField options entry field).Doomed := by
  rw [SpillSink.sendField]
  cases entry.put s.engine.plan field.1 with
  | none => exact h
  | some p => exact (guards_call options).sticky s (.put p, field.2) h

theorem Doomed.sendFields {s : SpillSink κ} (h : s.Doomed) (entry : EntryPoint) (stops : Bool)
    (fields : List ((String × Value) × Sizes)) : (s.sendFields options entry stops fields).Doomed := by
  induction fields generalizing s with
  | nil => exact h
  | cons field fields ih =>
      rw [SpillSink.sendFields]
      split
      · exact h.sendField entry field
      · exact ih (h.sendField entry field)

/-- Under the limit a field is sent as without it, or the run is bound to fail. -/
theorem sendField_unlimited (s : SpillSink κ) (entry : EntryPoint) (field : (String × Value) × Sizes) :
    (s.sendField options entry field).Doomed ∨
      s.sendField options entry field = s.sendField options.unlimited entry field := by
  rw [sendField, sendField]
  cases entry.put s.engine.plan field.1 with
  | none => exact .inr rfl
  | some p => exact (guards_call options).agrees s (.put p, field.2)

theorem sendFields_unlimited (s : SpillSink κ) (entry : EntryPoint) (stops : Bool)
    (fields : List ((String × Value) × Sizes)) :
    (s.sendFields options entry stops fields).Doomed ∨
      s.sendFields options entry stops fields = s.sendFields options.unlimited entry stops fields := by
  induction fields generalizing s with
  | nil => exact .inr rfl
  | cons field fields ih =>
      rw [sendFields, sendFields]
      rcases sendField_unlimited s entry field with hdoomed | heq
      · left
        split
        · exact hdoomed
        · exact hdoomed.sendFields entry stops fields
      · rw [← heq]
        split
        · exact .inr rfl
        · exact ih _

/-- A record sent under the limit is the record sent without it, unless a value was refused; then
the sink is bound to fail. -/
theorem guards_send (options : SpillOptions) :
    Guards (fun (s : SpillSink κ) m => s.send options.unlimited m) (send options) Doomed := by
  have hguards := @guards_call _ κ _ options
  refine ⟨fun s m h => ?_, fun s m => ?_⟩
  · exact hguards.sticky _ (.endRow, m.closing)
      ((hguards.sticky s (.beginRow, m.opening) h).sendFields m.entry m.stops m.fields)
  · rw [send, send]
    rcases hguards.agrees s (.beginRow, m.opening) with hdoomed | heq
    · exact .inl (hguards.sticky _ _ (hdoomed.sendFields m.entry m.stops m.fields))
    · rw [heq]
      generalize s.call options.unlimited (.beginRow, m.opening) = s'
      rcases sendFields_unlimited s' m.entry m.stops m.fields with hdoomed | heq'
      · exact .inl (hguards.sticky _ _ hdoomed)
      · rw [heq']
        exact hguards.agrees _ (.endRow, m.closing)

end Limits

/-! ## Runs -/

section Runs

variable {options : SpillOptions} {sizes : Sizes}

/-- Within a record the sink only forwards to the builder. It counts and spills at the end of a row,
and at no field of it. -/
theorem sendFields_eq (options : SpillOptions) (s : SpillSink κ) (entry : EntryPoint) (stops : Bool)
    (fields : List ((String × Value) × Sizes)) :
    s.sendFields options.unlimited entry stops fields =
      { s with engine := s.engine.sendFields entry stops (fields.map Prod.fst) } := by
  induction fields generalizing s with
  | nil => rfl
  | cons field fields ih =>
      have hfield : s.sendField options.unlimited entry field =
          { s with engine := ((entry.put s.engine.plan field.1).map s.engine.put).getD s.engine } := by
        rw [sendField]
        cases entry.put s.engine.plan field.1 with
        | none => rfl
        | some p =>
            have hengine : s.engine.callWithin options.unlimited.memoryLimit
                (.put p, field.2.reserve) = s.engine.put p := s.engine.callWithin_none _
            rw [Option.map_some, Option.getD_some, Option.map_some, Option.getD_some, call, hengine]
      rw [sendFields, hfield, List.map_cons, TableBuilder.sendFields]
      dsimp only
      split
      · rfl
      · rw [ih]

/-- A record is forwarded to the builder, and may make the sink spill. -/
theorem send_eq (options : SpillOptions) (s : SpillSink κ) (m : Measured) :
    s.send options.unlimited m =
      let s := { s with engine := s.engine.send m.record }
      if s.shouldSpill options m.closing then s.spill options.unlimited m.closing else s := by
  have hbegin : s.call options.unlimited (.beginRow, m.opening) =
      { s with engine := s.engine.beginRow } := by
    have hengine : s.engine.callWithin options.unlimited.memoryLimit (.beginRow, m.opening.reserve) =
        s.engine.beginRow := s.engine.callWithin_none _
    rw [call, hengine]
  have hend : ∀ b : TableBuilder, b.callWithin options.unlimited.memoryLimit
      (.endRow, m.closing.reserve) = b.endRow := fun b => b.callWithin_none _
  rw [send, hbegin, sendFields_eq, call, hend]
  rfl

/-- The consumer has the rows that pass of the records that are done, and the builder holds those of the
rest, no more than `limit`. -/
structure SpilledKept (plan : ExecutionPlan) (layout : Option FrozenSchema)
    (limit : Nat) (done rest : List Sent) (s : SpillSink CollectingConsumer) : Prop where
  holds : HoldsKept plan layout (done ++ rest) rest s.engine
  shows : ShowsKept plan done s.consumer.batches
  counted : s.stats.rows = (keptRows plan done).length
  room : (keptRows plan rest).length ≤ limit
  bounded : ∀ batch ∈ s.consumer.batches, 0 < batch.rowCount ∧ batch.rowCount ≤ limit

variable {plan : ExecutionPlan} {layout : Option FrozenSchema} {limit : Nat} {done rest : List Sent} {s : SpillSink CollectingConsumer}

/-- **A spill delivers the rows that are held**, where there is a column. The rows are cut off and
exported as one batch, which goes to the collecting consumer; the builder is left with its columns
and no row. -/
theorem SpilledKept.spill (h : SpilledKept plan layout limit done rest s)
    (hcolumn : HasColumn plan layout (done ++ rest)) (hok : (s.spill options sizes).error = none) :
    SpilledKept plan layout limit (done ++ rest) [] (s.spill options sizes) := by
  by_cases hrest : keptRows plan rest = []
  · -- nothing is held, and the sink stays as it is
    have hstay : s.spill options sizes = s := by
      rw [SpillSink.spill, if_pos]
      simp [h.holds.rowCount, hrest]
    have hkept : keptRows plan (done ++ rest) = keptRows plan done := by
      rw [keptRows_append, hrest, List.append_nil]
    obtain ⟨hplan, hadmits, t, ht, ho, hrows, hnames⟩ := h.holds
    rw [hstay]
    refine ⟨?_, ⟨?_, ?_⟩, ?_, Nat.zero_le _, h.bounded⟩
    · rw [List.append_nil]
      exact ⟨hplan, hadmits, t, ht, ho, hrows.trans hrest, hnames⟩
    · rw [hkept, h.shows.rowCount]
    · rw [hkept]
      exact h.shows.cells
    · rw [hkept, h.counted]
  · have hrows : s.engine.rowCount ≠ 0 := by
      rw [h.holds.rowCount]
      exact fun hzero => hrest (List.length_eq_zero_iff.mp hzero)
    obtain ⟨batch, events, hfinish, hengine, hbatches, hstats⟩ := spill_ok hrows hok
    obtain ⟨hpart, hleft⟩ := h.holds.splitOff
    have hshows := (hpart.finish hfinish).2 fun hnone => by
      have hnil := hcolumn hnone
      rw [keptRows_append, List.append_eq_nil_iff] at hnil
      exact hrest hnil.2
    refine ⟨?_, ?_, ?_, Nat.zero_le _, ?_⟩
    · rw [hengine, List.append_nil]
      obtain ⟨hplan, hadmits, t, ht, ho, hrows, hnames⟩ := hleft
      exact ⟨hplan, hadmits, t,
        ⟨⟨ht.sound.holds, ht.sound.order, ht.sound.known, ht.sound.rowBuf⟩, ht.rowCount⟩,
        ⟨ho.order, ho.types, ho.projected⟩, hrows, hnames⟩
    · rw [hbatches]
      exact h.shows.append hshows
    · rw [hstats, h.counted, h.holds.rowCount, keptRows_append, List.length_append]
    · rw [hbatches]
      intro b hb
      rcases List.mem_append.mp hb with hb | hb
      · exact h.bounded b hb
      · obtain rfl := List.mem_singleton.mp hb
        have hcount := hshows.singleton.1
        exact ⟨hcount ▸ List.length_pos_iff.mpr hrest, hcount ▸ h.room⟩

/-- **A record is delivered or held**, and fewer rows are held than the target. -/
theorem SpilledKept.send (h : SpilledKept plan layout (max options.rowsPerBatch 1) done rest s)
    (hroom : (keptRows plan rest).length < max options.rowsPerBatch 1)
    {m : Measured} (hm : ReadsAlike plan m.record)
    (hcolumn : HasColumn plan layout (done ++ rest ++ [m.record]))
    (hok : (s.send options.unlimited m).error = none) :
    ∃ done' rest', done' ++ rest' = done ++ rest ++ [m.record] ∧
      SpilledKept plan layout (max options.rowsPerBatch 1) done' rest' (s.send options.unlimited m) ∧
      (keptRows plan rest').length < max options.rowsPerBatch 1 := by
  have hone : (keptRows plan [m.record]).length ≤ 1 := by
    rw [keptRows, List.length_map]
    exact List.length_filter_le _ _
  have hsent : SpilledKept plan layout (max options.rowsPerBatch 1) done (rest ++ [m.record])
      { s with engine := s.engine.send m.record } := by
    have hholds := h.holds.sendAll (List.forall_mem_singleton.mpr hm)
    rw [List.append_assoc] at hholds
    refine ⟨hholds, h.shows, h.counted, ?_, h.bounded⟩
    rw [keptRows_append, List.length_append]
    omega
  rw [send_eq] at hok ⊢
  dsimp only at hok ⊢
  by_cases hspill : ({ s with engine := s.engine.send m.record } :
      SpillSink CollectingConsumer).shouldSpill options m.closing = true
  · rw [if_pos hspill] at hok ⊢
    rw [List.append_assoc] at hcolumn
    refine ⟨_, [], by rw [List.append_nil, List.append_assoc], hsent.spill hcolumn hok, ?_⟩
    exact lt_max_of_lt_right Nat.one_pos
  · rw [if_neg hspill] at hok ⊢
    refine ⟨done, rest ++ [m.record], (List.append_assoc _ _ _).symm, hsent, ?_⟩
    rw [← hsent.holds.rowCount]
    -- otherwise the sink would spill
    by_contra hfull
    refine hspill ?_
    rw [shouldSpill, hok]
    have hle : options.rowsPerBatch ≤ (s.engine.send m.record).rowCount :=
      (le_max_left _ _).trans (Nat.not_lt.mp hfull)
    simp [hle]

/-- An error waits for the end of the run. So a run without one had none after any of its
records. -/
theorem error_of_sendAll {s : SpillSink κ} {records : List Measured}
    (hok : (s.sendAll options.unlimited records).error = none) : s.error = none := by
  induction records generalizing s with
  | nil => exact hok
  | cons m records ih =>
      have hsent : (s.send options.unlimited m).error = none := ih hok
      rw [send_eq] at hsent
      dsimp only at hsent
      split at hsent
      · have hbefore := error_of_spill hsent
        exact hbefore
      · exact hsent

/-- The records of a run. Those that pass are handed over or held, in order, and those that are
rejected leave nothing. -/
theorem SpilledKept.sendAll (h : SpilledKept plan layout (max options.rowsPerBatch 1) done rest s)
    (hroom : (keptRows plan rest).length < max options.rowsPerBatch 1)
    {records : List Measured}
    (hrecords : ∀ m ∈ records, ReadsAlike plan m.record)
    (hcolumn : ∀ more, more <+: records.map Measured.record →
      HasColumn plan layout (done ++ rest ++ more))
    (hok : (s.sendAll options.unlimited records).error = none) :
    ∃ done' rest', done' ++ rest' = done ++ rest ++ records.map Measured.record ∧
      SpilledKept plan layout (max options.rowsPerBatch 1) done' rest'
        (s.sendAll options.unlimited records) := by
  induction records generalizing s done rest with
  | nil => exact ⟨done, rest, (List.append_nil _).symm, h⟩
  | cons m records ih =>
      have hsent : (s.send options.unlimited m).error = none := error_of_sendAll hok
      obtain ⟨done₁, rest₁, hseen₁, h₁, hroom₁⟩ := h.send hroom
        (hrecords m List.mem_cons_self) (hcolumn [m.record] (List.prefix_append [m.record] _)) hsent
      obtain ⟨done₂, rest₂, hseen₂, h₂⟩ := ih h₁ hroom₁
        (fun q hq => hrecords q (List.mem_cons_of_mem _ hq))
        (fun more hmore => by
          rw [hseen₁, List.append_assoc]
          exact hcolumn (m.record :: more) (List.cons_prefix_cons.mpr ⟨rfl, hmore⟩))
        hok
      refine ⟨done₂, rest₂, ?_, h₂⟩
      rw [hseen₂, hseen₁, List.append_assoc]
      rfl

end Runs

end SpillSink

end Spill

section Examples

attribute [local instance] integerPlatform

namespace SpillSink

open TableBuilder

/-- The two records, each call with sizes of zero. -/
def twoMeasured : List Measured :=
  [⟨.putField, false, [(("a", .str "x"), {}), (("k", .str "1"), {})], {}, {}⟩,
    ⟨.resolveAndPut, true, [(("k", .str "2"), {}), (("a", .str "y"), {})], {}, {}⟩]

end SpillSink

end Examples

end Rypipe
