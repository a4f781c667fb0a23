import Rypipe.Spill.Batches

/-! # Spilling loses no rows

A sink in front of a collecting consumer, without a row filter: what the consumer has received and what
the builder still holds are the rows of the run. The aligned batches are the table of one builder that
was fed all rows, unless a batch was cut off while the builder had no column. -/

namespace Rypipe

section Spill

variable [Platform]

namespace SpillSink

open TableBuilder (Call rowCalls outputNames HoldsRows Shows Cuts SomeEmpty Visible)

variable {κ : Type} [BatchConsumer κ]

/-- The call ends a row at which the rows are cut off, and the builder has no column yet. -/
def BareCut (options : SpillOptions) (s : SpillSink κ) (c : Call × Sizes) : Prop :=
  let s := { s with engine := s.engine.call c.1 }
  c.1 = .endRow ∧ s.shouldSpill options c.2 = true ∧ s.engine.columnOrder = []

variable {options : SpillOptions} {sizes : Sizes}

/-! ## The calls of a row -/

theorem callAll_append (s : SpillSink κ) (calls later : List (Call × Sizes)) :
    s.callAll options (calls ++ later) = (s.callAll options calls).callAll options later :=
  List.foldl_append

/-- Within a row the sink only forwards to the builder. Without a limit it refuses no value either,
so the calls are those of the builder. -/
theorem callAll_of_no_endRow (options : SpillOptions) (s : SpillSink κ) {calls : List (Call × Sizes)}
    (h : ∀ c ∈ calls, c.1 ≠ .endRow) :
    s.callAll options.unlimited calls =
        { s with engine := s.engine.callAll (calls.map Prod.fst) } ∧
      ¬ RefusesSome (call options.unlimited) (BareCut options) s calls := by
  induction calls generalizing s with
  | nil => exact ⟨rfl, id⟩
  | cons c calls ih =>
      have hstep : s.call options.unlimited c = { s with engine := s.engine.call c.1 } := by
        have hengine : s.engine.callWithin options.unlimited.memoryLimit (c.1, c.2.reserve) =
            s.engine.call c.1 := s.engine.callWithin_none _
        rw [call, hengine]
        split
        · next hend => exact absurd hend (h c List.mem_cons_self)
        · rfl
      obtain ⟨hrun, hbare⟩ := ih (s.call options.unlimited c) fun c' hc' =>
        h c' (List.mem_cons_of_mem _ hc')
      refine ⟨?_, fun hsome => hsome.elim (fun hnow => h c List.mem_cons_self hnow.1) hbare⟩
      rw [callAll, List.foldl_cons, ← callAll, hrun, hstep]
      rfl

/-- A row is forwarded to the builder, and may make the sink spill. -/
theorem callAll_rowCalls (options : SpillOptions) (s : SpillSink κ)
    {calls : List (Call × Sizes)} {puts : List Put}
    (hcalls : calls.map Prod.fst = rowCalls puts) :
    ∃ sizes, s.callAll options.unlimited calls =
        (let s := { s with engine := s.engine.row puts }
        if s.shouldSpill options sizes then s.spill options.unlimited sizes else s) ∧
      (RefusesSome (call options.unlimited) (BareCut options) s calls ↔
        ({ s with engine := s.engine.row puts } : SpillSink κ).shouldSpill options sizes = true ∧
          (s.engine.row puts).columnOrder = []) := by
  rw [rowCalls, ← List.cons_append] at hcalls
  obtain ⟨before, last, rfl, hbefore, hlast⟩ := List.map_eq_append_iff.mp hcalls
  obtain ⟨⟨c, sizes⟩, rfl, hend⟩ := List.map_eq_singleton_iff.mp hlast
  obtain rfl : c = .endRow := hend
  -- nothing before the end of the row can spill
  have hinside : ∀ c ∈ before, c.1 ≠ .endRow := by
    intro c hc hend
    have hmem : Call.endRow ∈ before.map Prod.fst := hend ▸ List.mem_map_of_mem hc
    rw [hbefore] at hmem
    simp at hmem
  obtain ⟨hrun, hbare⟩ := s.callAll_of_no_endRow options hinside
  have hrow : (s.engine.callAll (before.map Prod.fst)).call .endRow = s.engine.row puts := by
    rw [hbefore, TableBuilder.callAll, List.foldl_cons, List.foldl_map]
    rfl
  have hengine : ∀ b : TableBuilder, b.callWithin options.unlimited.memoryLimit
      (Call.endRow, sizes.reserve) = b.call .endRow := fun b => b.callWithin_none _
  refine ⟨sizes, ?_, ?_⟩
  · rw [callAll_append, hrun, callAll, List.foldl_cons, List.foldl_nil, call, hengine, hrow]
    rfl
  · rw [refusesSome_append, or_iff_right hbare, ← callAll, hrun, RefusesSome, RefusesSome, or_false,
      BareCut]
    dsimp only
    rw [hrow]
    exact ⟨fun h => h.2, fun h => ⟨rfl, h⟩⟩

/-! ## A spill -/

/-- A spill that succeeds has exported the rows, delivered them and counted them. -/
theorem spill_ok {s : SpillSink CollectingConsumer} (hrows : s.engine.rowCount ≠ 0)
    (hok : (s.spill options sizes).error = none) :
    ∃ batch events, (s.engine.splitOff s.engine.rowCount).1.finish = .ok batch ∧
      (s.spill options sizes).engine =
        { (s.engine.splitOff s.engine.rowCount).2 with events } ∧
      (s.spill options sizes).consumer.batches = s.consumer.batches ++ [batch] ∧
      (s.spill options sizes).stats.rows = s.stats.rows + s.engine.rowCount := by
  have herror := error_of_spill hok
  rw [spill, if_neg (by simp [herror, hrows])] at hok ⊢
  rw [spillInner] at hok ⊢
  dsimp only at hok ⊢
  cases hprep : (s.engine.splitOff s.engine.rowCount).1.prepareFinishWithin options.memoryLimit
      sizes.part with
  | error err => simp [hprep] at hok
  | ok prepared =>
      rw [hprep] at hok
      dsimp only at hok ⊢
      cases hfinish : (s.engine.splitOff s.engine.rowCount).1.finish with
      | error err => simp [hfinish] at hok
      | ok batch =>
          rw [hfinish] at hok
          dsimp only at hok ⊢
          rw [deliver] at hok ⊢
          cases hbudget : (options.budget.share 4).check sizes.batch with
          | error err => simp [hbudget] at hok
          | ok _ => exact ⟨batch, _, rfl, rfl, rfl, rfl⟩

/-! ## Runs -/

/-- The consumer has the rows that are done, as batches, and the builder holds the rest. -/
structure Spilled (plan : ExecutionPlan) (done rest : List (List Put))
    (s : SpillSink CollectingConsumer) : Prop where
  holds : HoldsRows plan (done ++ rest) rest s.engine
  cuts : Cuts plan done s.consumer.batches
  counted : s.stats.rows = done.length

variable {plan : ExecutionPlan} {done rest : List (List Put)} {s : SpillSink CollectingConsumer}

/-- Nothing is spilled at the start. -/
theorem spilled_withPlan (plan : ExecutionPlan) :
    Spilled plan [] [] { engine := TableBuilder.withPlan plan, consumer := {} } :=
  ⟨TableBuilder.holdsRows_withPlan plan, .nil, rfl⟩

/-- A row goes to the rest. -/
theorem Spilled.row (h : Spilled plan done rest s) (hfilter : plan.filter = none)
    (puts : List Put) :
    Spilled plan done (rest ++ [puts]) { s with engine := s.engine.row puts } := by
  refine ⟨?_, h.cuts, h.counted⟩
  rw [← List.append_assoc]
  exact h.holds.row hfilter puts

/-- **A spill delivers the rest**; it loses rows exactly when there are some and no column. -/
theorem Spilled.spill (h : Spilled plan done rest s)
    (hok : (s.spill options sizes).error = none) :
    Spilled plan (done ++ rest) [] (s.spill options sizes) ∧
      (SomeEmpty (s.spill options sizes).consumer.batches ↔
        SomeEmpty s.consumer.batches ∨ rest ≠ [] ∧ s.engine.columnOrder = []) := by
  by_cases hrest : rest = []
  · subst hrest
    have hstay : s.spill options sizes = s := by
      rw [SpillSink.spill, if_pos]
      simp [h.holds.rowCount]
    rw [hstay, List.append_nil]
    exact ⟨h, by simp⟩
  · have hrows : s.engine.rowCount ≠ 0 := by
      rw [h.holds.rowCount]
      exact fun hzero => hrest (List.length_eq_zero_iff.mp hzero)
    obtain ⟨batch, events, hfinish, hengine, hbatches, hstats⟩ := spill_ok hrows hok
    obtain ⟨hpart, hleft⟩ := h.holds.splitOff
    have hdelivers := hpart.finish hrest hfinish
    refine ⟨⟨?_, ?_, ?_⟩, ?_⟩
    · rw [hengine, List.append_nil]
      exact hleft.withEvents events
    · rw [hbatches]
      exact .cut h.cuts hrest hdelivers
    · rw [hstats, h.counted, h.holds.rowCount, List.length_append]
    · rw [hbatches, TableBuilder.someEmpty_concat,
        TableBuilder.Delivers.rowCount_eq_zero hdelivers hrest, h.holds.columnOrder_eq_nil]
      exact or_congr_right (iff_and_self.mpr fun _ => hrest)

/-- The calls of a row. The row is held by the builder, or it is the last one of a batch that its
end hands over. -/
theorem Spilled.rowCalls (h : Spilled plan done rest s) (hfilter : plan.filter = none)
    {calls : List (Call × Sizes)} {puts : List Put} (hcalls : calls.map Prod.fst = rowCalls puts)
    (hok : (s.callAll options.unlimited calls).error = none) :
    ∃ done' rest', done' ++ rest' = done ++ rest ++ [puts] ∧
      Spilled plan done' rest' (s.callAll options.unlimited calls) ∧
      (SomeEmpty (s.callAll options.unlimited calls).consumer.batches ↔
        SomeEmpty s.consumer.batches ∨
          RefusesSome (call options.unlimited) (BareCut options) s calls) := by
  obtain ⟨sizes, hrun, hbare⟩ := s.callAll_rowCalls options hcalls
  have hrow := h.row hfilter puts
  rw [hrun] at hok ⊢
  rw [hbare]
  dsimp only at hok ⊢
  by_cases hspill : ({ s with engine := s.engine.row puts } :
      SpillSink CollectingConsumer).shouldSpill options sizes = true
  · rw [if_pos hspill] at hok ⊢
    obtain ⟨hspilled, hempty⟩ := hrow.spill hok
    refine ⟨_, [], by rw [List.append_nil, List.append_assoc], hspilled, hempty.trans ?_⟩
    refine or_congr_right ⟨fun hnow => ⟨hspill, hnow.2⟩, fun hnow => ⟨?_, hnow.2⟩⟩
    exact List.append_ne_nil_of_right_ne_nil _ (List.cons_ne_nil _ _)
  · rw [if_neg hspill]
    refine ⟨done, rest ++ [puts], by rw [List.append_assoc], hrow, ?_⟩
    exact ⟨.inl, fun hnow => hnow.elim id fun hbad => absurd hbad.1 hspill⟩

/-- **The calls of a list of rows**: every row is delivered or held, and a batch has lost its rows
exactly when one was cut off without a column. -/
theorem Spilled.callAll (h : Spilled plan done rest s) (hfilter : plan.filter = none)
    (rows : List (List Put)) {calls : List (Call × Sizes)}
    (hcalls : calls.map Prod.fst = rows.flatMap TableBuilder.rowCalls)
    (hok : (s.callAll options.unlimited calls).error = none) :
    ∃ done' rest', done' ++ rest' = done ++ rest ++ rows ∧
      Spilled plan done' rest' (s.callAll options.unlimited calls) ∧
      (SomeEmpty (s.callAll options.unlimited calls).consumer.batches ↔
        SomeEmpty s.consumer.batches ∨
          RefusesSome (call options.unlimited) (BareCut options) s calls) := by
  induction rows generalizing s done rest calls with
  | nil =>
      obtain rfl : calls = [] := List.map_eq_nil_iff.mp hcalls
      exact ⟨done, rest, (List.append_nil _).symm, h, (or_iff_left id).symm⟩
  | cons puts rows ih =>
      rw [List.flatMap_cons] at hcalls
      obtain ⟨first, later, rfl, hfirst, hlater⟩ := List.map_eq_append_iff.mp hcalls
      rw [callAll_append] at hok ⊢
      obtain ⟨done₁, rest₁, hseen₁, hspilled₁, hempty₁⟩ :=
        h.rowCalls hfilter hfirst (error_of_callAll hok)
      obtain ⟨done₂, rest₂, hseen₂, hspilled₂, hempty₂⟩ := ih hspilled₁ hlater hok
      refine ⟨done₂, rest₂, ?_, hspilled₂, ?_⟩
      · rw [hseen₂, hseen₁, List.append_assoc, List.singleton_append]
      · rw [hempty₂, hempty₁, refusesSome_append, or_assoc]
        rfl

/-! ## One table -/

/-- The batches, one after the other, are the table: its columns, its rows and its cells. -/
structure SameTable (batches : List RecordBatch) (table : RecordBatch) : Prop where
  names : ∀ batch ∈ batches, ∀ n, n ∈ batch.names ↔ n ∈ table.names
  rowCount : (batches.map RecordBatch.rowCount).sum = table.rowCount
  cells : ∀ n ∈ table.names, (batches.flatMap fun batch => batch.cells n) = table.cells n

/-- A run that ends well is the run without the memory limit. A refused value would have left an
error, which the end of the run returns. -/
theorem unlimited_of_finishRun {s s' : SpillSink κ} {calls : List (Call × Sizes)}
    (hok : (s.callAll options calls).finishRun options sizes = .ok s') :
    s.callAll options calls = s.callAll options.unlimited calls ∧
      s' = (s.callAll options.unlimited calls).spill options.unlimited sizes ∧ s'.error = none ∧
      (RefusesSome (call options) (BareCut options) s calls ↔
        RefusesSome (call options.unlimited) (BareCut options) s calls) := by
  have hguards : Guards (fun (s : SpillSink κ) c => s.call options.unlimited c) (call options)
      Doomed := guards_call options
  have hclean : ¬ (calls.foldl (call options) s).Doomed := by
    intro hdoomed
    have hspilled : ((s.callAll options calls).spill options sizes).Doomed := hdoomed.spill
    obtain ⟨err, herr⟩ : ∃ err, (s.callAll options calls).finishRun options sizes = .error err :=
      surface_of_doomed hspilled
    rw [herr] at hok
    cases hok
  have hsame : s.callAll options calls = s.callAll options.unlimited calls :=
    (hguards.marked_or_eq s calls).resolve_left hclean
  have hunlimited := finishRun_unlimited hok
  rw [hsame] at hunlimited
  obtain ⟨heq, herror, -⟩ := surface_ok hunlimited
  refine ⟨hsame, heq, ?_, hguards.refusesSome_iff hclean⟩
  rw [heq]
  exact herror

/-- The batches of all rows are the table, when no batch has lost its rows. -/
theorem sameTable_of_cuts {rows : List (List Put)} {consumer : CollectingConsumer}
    (hcuts : Cuts plan rows consumer.batches) (hfull : ¬ SomeEmpty consumer.batches)
    {b : TableBuilder} (hholds : HoldsRows plan rows rows b) {table : RecordBatch}
    (htable : b.finish = .ok table) (hcolumns : table.schema ≠ []) :
    ∃ batches, consumer.finish = .ok batches ∧ SameTable batches table := by
  have hshown := hcuts.shown hfull
  obtain ⟨batches, hfinish, haligned⟩ := consumer.finish_aligned
    (fun batch hb => by
      obtain ⟨_, _, hshows⟩ := hshown batch hb
      exact hshows.regular)
    (Shows.compatible hshown)
  obtain ⟨hnames, hcells⟩ := RecordBatch.AlignedTo.of_forall₂ haligned
  obtain ⟨hnonempty, hcount, hlength⟩ := hholds.rowCount_finish htable hcolumns
  have hsum : (batches.map RecordBatch.rowCount).sum = table.rowCount := by
    rw [CollectingConsumer.rowCounts_finish hfinish, hcount]
    exact hcuts.sum_rowCount.2.mpr hfull
  refine ⟨batches, hfinish, ?_⟩
  by_cases hrows : rows = []
  · rw [hcuts.eq_nil_iff.mp hrows] at haligned
    cases haligned
    refine ⟨fun batch hb => absurd hb List.not_mem_nil, hsum, fun n _ => ?_⟩
    have hzero : (table.cells n).length = 0 := by
      rw [hlength, hrows, List.length_nil]
    exact (List.length_eq_zero_iff.mp hzero).symm
  · have hshows := ((hholds.finish hrows htable).resolve_left fun h => hnonempty h.1).2
    have hsome : consumer.batches ≠ [] := fun hnil => hrows (hcuts.eq_nil_iff.mpr hnil)
    refine ⟨fun batch hb n => ?_, hsum, fun n hn => ?_⟩
    · rw [hnames batch hb, hcuts.mem_names hfull hsome, hshows.mem_names]
    · have hvisible := (hshows.mem_names n).mp hn
      rw [hcells, hcuts.flatMap_cells hfull hvisible, hshows.cells hvisible]

/-- **Bounded spilling loses no row.** In a run that ends well the aligned batches are the table of one
builder that was fed the same rows, and the reported rows are all rows, exactly when no batch was cut
off while the builder had no column yet. -/
theorem spilled_iff (hfilter : plan.filter = none) (options : SpillOptions)
    (rows : List (List Put)) {calls : List (Call × Sizes)}
    (hcalls : calls.map Prod.fst = rows.flatMap TableBuilder.rowCalls) (sizes : Sizes)
    {s' : SpillSink CollectingConsumer}
    (hok : (({ engine := TableBuilder.withPlan plan, consumer := {} } :
      SpillSink CollectingConsumer).callAll options calls).finishRun options sizes = .ok s')
    {table : RecordBatch}
    (htable : ((TableBuilder.withPlan plan).feed rows).finish = .ok table)
    (hcolumns : table.schema ≠ []) :
    (s'.stats.rows = rows.length ∧
        ∃ batches, s'.consumer.finish = .ok batches ∧ SameTable batches table) ↔
      ¬ RefusesSome (call options) (BareCut options)
        { engine := TableBuilder.withPlan plan, consumer := ({} : CollectingConsumer) } calls := by
  obtain ⟨-, rfl, herror, hbare⟩ := unlimited_of_finishRun hok
  have hbefore := error_of_spill herror
  obtain ⟨done, rest, hseen, hspilled, hempty⟩ :=
    (spilled_withPlan plan).callAll hfilter rows hcalls hbefore
  obtain ⟨hfinal, hlast⟩ := hspilled.spill herror
  have hholds := (TableBuilder.holdsRows_withPlan plan).feed hfilter rows
  rw [List.nil_append] at hholds
  have hnonempty := (hholds.rowCount_finish htable hcolumns).1
  -- the last batch has the columns of the table
  have hcols : ¬ (rest ≠ [] ∧ ((({ engine := TableBuilder.withPlan plan, consumer := {} } :
      SpillSink CollectingConsumer).callAll options.unlimited calls).engine.columnOrder = [])) := by
    rintro ⟨-, hnil⟩
    rw [hspilled.holds.columnOrder_eq_nil, hseen] at hnil
    exact hnonempty hnil
  have hnothing : ¬ SomeEmpty ({} : CollectingConsumer).batches := by
    rintro ⟨batch, hb, -⟩
    exact List.not_mem_nil hb
  rw [or_iff_left hcols] at hlast
  rw [or_iff_right hnothing] at hempty
  rw [hbare, ← hempty, ← hlast]
  rw [hseen, List.nil_append, List.nil_append] at hfinal
  constructor
  · rintro ⟨-, batches, hfinish, hsame⟩
    rw [← hfinal.cuts.sum_rowCount.2, ← CollectingConsumer.rowCounts_finish hfinish, hsame.rowCount]
    exact (hholds.rowCount_finish htable hcolumns).2.1
  · intro hfull
    exact ⟨hfinal.counted, sameTable_of_cuts hfinal.cuts hfull hholds htable hcolumns⟩

end SpillSink

end Spill

section Examples

attribute [local instance] integerPlatform

namespace SpillSink

/-- Every row a batch, and each has a column. The second batch has the column of the first as well,
with a null. -/
theorem spilled_of_columns :
    let s : SpillSink CollectingConsumer := { engine := TableBuilder.withPlan {}, consumer := {} }
    let calls := oneField "a" "1" ++ oneField "b" "2"
    ∃ s' batches table, (s.callAll everyRow calls).finishRun everyRow {} = .ok s' ∧
      ((TableBuilder.withPlan {}).feed
        [[.field "a" (.str "1")], [.field "b" (.str "2")]]).finish = .ok table ∧
      s'.stats.rows = 2 ∧ s'.consumer.finish = .ok batches ∧ SameTable batches table := by
  have hcut := (@spilled_iff _ {} rfl everyRow [[.field "a" (.str "1")], [.field "b" (.str "2")]]
    (oneField "a" "1" ++ oneField "b" "2") rfl {} _ rfl _ rfl (List.cons_ne_nil _ _)).mpr
  obtain ⟨hcount, batches, hfinish, hsame⟩ := hcut (by
    rintro (⟨hend, -⟩ | ⟨hend, -⟩ | ⟨-, -, hnil⟩ | ⟨hend, -⟩ | ⟨hend, -⟩ | ⟨-, -, hnil⟩ | hdone)
    · cases hend
    · cases hend
    · cases hnil
    · cases hend
    · cases hend
    · cases hnil
    · exact hdone)
  exact ⟨_, batches, _, rfl, rfl, hcount, hfinish, hsame⟩

/-- A row without a field. -/
def noField : List (TableBuilder.Call × Sizes) := [(.beginRow, {}), (.endRow, {})]

/-- A first row without a field is cut off before there is a column, and is lost. -/
theorem spilled_falls :
    ¬ ∀ (plan : ExecutionPlan) (options : SpillOptions) (rows : List (List Put))
      (calls : List (TableBuilder.Call × Sizes)) (sizes : Sizes) (s' : SpillSink CollectingConsumer)
      (table : RecordBatch), plan.filter = none → 1 ≤ options.rowsPerBatch →
      calls.map Prod.fst = rows.flatMap TableBuilder.rowCalls →
      (({ engine := TableBuilder.withPlan plan, consumer := {} } :
        SpillSink CollectingConsumer).callAll options calls).finishRun options sizes = .ok s' →
      ((TableBuilder.withPlan plan).feed rows).finish = .ok table → table.schema ≠ [] →
      s'.stats.rows = rows.length ∧
        ∃ batches, s'.consumer.finish = .ok batches ∧ SameTable batches table := by
  intro h
  obtain ⟨-, batches, hfinish, hsame⟩ := h {} everyRow [[], [.field "a" (.str "1")]]
    (noField ++ oneField "a" "1") {} _ _ rfl le_rfl rfl rfl rfl
    (List.cons_ne_nil _ _)
  have hcounts := congrArg List.sum (CollectingConsumer.rowCounts_finish hfinish)
  have hlost : 1 = 2 := hcounts.symm.trans hsame.rowCount
  cases hlost

end SpillSink

end Examples

end Rypipe
