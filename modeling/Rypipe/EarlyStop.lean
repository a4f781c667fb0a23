import Rypipe.Projection
import Rypipe.Engine.Stacked

/-! # Stopping the puts of a row early

Under a projection `with_plan` declares every column that a raw field can resolve to, so no put
creates one. `row_satisfied` compares the dirty bits with the mask of all those slots: once it says
yes, each column has its value of the row, and a later put could only repeat a column or name a
field the plan drops. -/

namespace Rypipe

section EarlyStop

variable [Platform]

/-- The entry points that take a raw field name and resolve it. -/
def Put.Resolves : Put → Prop
  | .field _ _ | .resolveAndPut _ _ => True
  | .fieldResolved _ _ => False

namespace TableBuilder

/-- Run puts until the row is satisfied. -/
def putUntilSatisfied (b : TableBuilder) : List Put → TableBuilder
  | [] => b
  | p :: puts => if b.rowSatisfied then b else (b.put p).putUntilSatisfied puts

/-- Read one row, and skip the rest of it once it is satisfied. -/
def rowUntilSatisfied (b : TableBuilder) (puts : List Put) : TableBuilder :=
  (b.beginRow.putUntilSatisfied puts).endRow

/-- Read a list of rows, each until it is satisfied. -/
def feedUntilSatisfied (b : TableBuilder) (rows : List (List Put)) : TableBuilder :=
  rows.foldl rowUntilSatisfied b

/-! ## The mask of the wanted slots -/

omit [Platform] in
/-- The bits of a disjunction of words. -/
theorem getLsbD_foldl_or {α : Type} (f : α → BitVec 64) (xs : List α) (m : BitVec 64) (i : Nat) :
    (xs.foldl (fun m x => m ||| f x) m).getLsbD i =
      (m.getLsbD i || xs.any fun x => (f x).getLsbD i) := by
  induction xs generalizing m with
  | nil => simp
  | cons x xs ih => rw [List.foldl_cons, ih, BitVec.getLsbD_or, List.any_cons, Bool.or_assoc]

variable {b : TableBuilder}

/-- A mask that is in use has the slot of every column, and they all fit in one word. -/
theorem getLsbD_computeWantedMask (hmask : b.computeWantedMask ≠ 0) {name : String} {i : Nat}
    (hi : b.fieldIndex.lookup name = some i) : i < 64 ∧ b.computeWantedMask.getLsbD i = true := by
  have hentry : ⟨name, i⟩ ∈ b.fieldIndex.entries := AList.mem_lookup_iff.mp hi
  rw [computeWantedMask] at hmask ⊢
  split at hmask
  · exact absurd rfl hmask
  · next hschema =>
    split at hmask
    · exact absurd rfl hmask
    · next hfits =>
      have hlt : i < 64 := by
        by_contra hle
        exact hfits (List.any_eq_true.mpr ⟨_, hentry, by simpa using hle⟩)
      rw [if_neg hschema, if_neg hfits, getLsbD_foldl_or]
      refine ⟨hlt, Bool.or_eq_true_iff.mpr (.inr (List.any_eq_true.mpr ⟨_, hentry, ?_⟩))⟩
      rw [BitVec.getLsbD_twoPow]
      simpa using hlt

/-- A satisfied row has each wanted bit set in some word of the dirty mask. -/
theorem dirty_of_rowSatisfied (h : b.rowSatisfied = true) {i : Nat} (hlt : i < 64)
    (hi : b.cachedWantedMask.getLsbD i = true) :
    ∃ k, b.rowDirty.test (64 * k + i) = true := by
  rw [rowSatisfied] at h
  split at h
  · cases h
  · have hbits := congrArg (fun m => m.getLsbD i) (beq_iff_eq.mp h)
    rw [BitVec.getLsbD_and, hi, Bool.and_true,
      show b.rowDirty.words.foldl (· ||| ·) 0 = b.rowDirty.words.foldl (fun m x => m ||| id x) 0
        from rfl, getLsbD_foldl_or] at hbits
    have hzero : (0 : BitVec 64).getLsbD i = false := BitVec.getLsbD_zero
    simp only [hzero, Bool.false_or, id] at hbits
    obtain ⟨word, hword, hbit⟩ := List.any_eq_true.mp hbits
    obtain ⟨k, hk⟩ := List.mem_iff_getElem?.mp hword
    refine ⟨k, ?_⟩
    rw [WordSet.test, Nat.mul_add_div (by decide), Nat.div_eq_of_lt hlt, Nat.mul_add_mod,
      Nat.mod_eq_of_lt hlt, Nat.add_zero, hk]
    exact hbit

/-! ## The mask stays the same -/

/-- Creating a column keeps the cached mask: it was computed from the plan when the builder was
made. -/
theorem cachedWantedMask_ensureColumnIdx (b : TableBuilder) (name : String) :
    (b.ensureColumnIdx name).1.cachedWantedMask = b.cachedWantedMask := by
  rw [TableBuilder.ensureColumnIdx]
  split
  · rfl
  · split
    · rfl
    · rfl

/-- So does writing a value under its name. -/
theorem cachedWantedMask_pushFieldResolved (b : TableBuilder) (name : String) (value : Value) :
    (b.pushFieldResolved name value).cachedWantedMask = b.cachedWantedMask := by
  rw [TableBuilder.pushFieldResolved]
  split
  · rfl
  · exact b.cachedWantedMask_ensureColumnIdx name

/-- The null-fill keeps the cached mask. -/
theorem cachedWantedMask_nullFill (b : TableBuilder) :
    b.nullFill.cachedWantedMask = b.cachedWantedMask := by
  rw [TableBuilder.nullFill]
  split
  · rfl
  · rfl

/-- The writes of a drain keep the cached mask, by induction on the buffered values. -/
theorem cachedWantedMask_withDrained (b : TableBuilder) (fields : List (Nat × Value)) :
    (b.withDrained fields).cachedWantedMask = b.cachedWantedMask := by
  have hfields : ∀ (fields : List (Nat × Value)) (b : TableBuilder) (seen : WordSet 64),
      (b.drainFields seen fields).cachedWantedMask = b.cachedWantedMask := by
    intro fields
    induction fields with
    | nil => exact fun b seen => rfl
    | cons p fields ih =>
        intro b seen
        rw [TableBuilder.drainFields]
        split
        · exact ih b seen
        · exact ih ((b.writeSlot p.1 p.2).notifyPutField p.1 p.2) _
  exact hfields _ b.growDirty _

/-- The drain keeps the cached mask, for either verdict: it writes cells and counts the row. -/
theorem cachedWantedMask_drainBuffered (b : TableBuilder) (pass : Bool) :
    (b.drainBuffered pass).cachedWantedMask = b.cachedWantedMask := by
  cases hbuf : b.rowBuf with
  | none =>
      rw [TableBuilder.drainBuffered, hbuf]
  | some buf =>
      cases pass with
      | true =>
          have hdrained := b.cachedWantedMask_withDrained buf.fields
          rw [drainBuffered_true _ hbuf]
          split
          · exact hdrained
          · exact (b.withDrained buf.fields).cachedWantedMask_nullFill.trans hdrained
      | false =>
          rw [drainBuffered_false _ hbuf]
          rfl

/-- `end_row` keeps the cached mask in every mode of the row, so the mask that is asked after a row
is that of the plan. -/
theorem cachedWantedMask_endRow (b : TableBuilder) :
    b.endRow.cachedWantedMask = b.cachedWantedMask := by
  have hfinish : b.finishRow.cachedWantedMask = b.cachedWantedMask := by
    rw [TableBuilder.finishRow]
    split
    · split
      · exact b.cachedWantedMask_nullFill
      · exact b.cachedWantedMask_nullFill
    · exact b.cachedWantedMask_nullFill
  rw [TableBuilder.endRow]
  split
  · exact hfinish
  · split
    · exact b.cachedWantedMask_drainBuffered true
    · split
      · exact b.cachedWantedMask_nullFill
      · exact b.cachedWantedMask_drainBuffered _

/-- A put that is held in the row buffer keeps the cached mask. -/
theorem Held.cachedWantedMask {b' : TableBuilder} {name : String} {value : Value}
    (h : b.Held name value b') : b'.cachedWantedMask = b.cachedWantedMask := by
  obtain ⟨err, g, rfl, -⟩ := h.shape
  exact b.cachedWantedMask_ensureColumnIdx name

/-- Every put keeps the cached mask, by the three shapes a put can have. -/
theorem cachedWantedMask_put (hfrozen : b.frozen = none) (p : Put) :
    (b.put p).cachedWantedMask = b.cachedWantedMask := by
  cases htarget : p.target b.plan with
  | none => rw [put_of_dropped htarget]
  | some name =>
      cases put_shape hfrozen htarget with
      | pushed _ heq =>
          rw [heq]
          exact b.cachedWantedMask_pushFieldResolved name p.value
      | held _ hheld => exact hheld.cachedWantedMask
      | drained _ _ b' hheld heq =>
          rw [heq]
          exact ((b'.mapRowBuf _).cachedWantedMask_drainBuffered true).trans hheld.cachedWantedMask

/-! ## Dirty and buffered slots are those of the fields so far -/

/-- Every slot that is dirty or buffered is that of a column the row has put a value for. -/
structure Marked (b : TableBuilder) (seen : List String) : Prop where
  dirty : ∀ i, b.rowDirty.test i = true → ∃ n ∈ seen, b.fieldIndex.lookup n = some i
  held : ∀ buf, b.rowBuf = some buf → ∀ p ∈ buf.fields,
    ∃ n ∈ seen, b.fieldIndex.lookup n = some p.1

/-- At the start of a row no slot is marked. -/
theorem Tall.marked (h : b.Tall) : b.beginRow.Marked [] := by
  refine ⟨fun i hi => ?_, fun buf hbuf p hp => ?_⟩
  · have hi : b.rowDirty.test i = true := hi
    rw [h.clean] at hi
    cases hi
  · obtain ⟨buf, -, rfl⟩ := Option.map_eq_some_iff.mp hbuf
    cases hp

/-- Writing slots marks those slots: a bit that is dirty after a drain was so before it, or belongs
to a buffered value. -/
theorem dirty_withDrained (b : TableBuilder) (fields : List (Nat × Value)) {i : Nat}
    (hi : (b.withDrained fields).rowDirty.test i = true) :
    b.rowDirty.test i = true ∨ ∃ p ∈ fields, p.1 = i := by
  have hdrain : ∀ (fields : List (Nat × Value)) (b : TableBuilder) (seen : WordSet 64),
      (b.drainFields seen fields).rowDirty.test i = true →
        b.rowDirty.test i = true ∨ ∃ p ∈ fields, p.1 = i := by
    intro fields
    induction fields with
    | nil => exact fun b seen => Or.inl
    | cons p fields ih =>
        intro b seen h
        rw [TableBuilder.drainFields] at h
        split at h
        · rcases ih b seen h with h | ⟨q, hq, heq⟩
          · exact .inl h
          · exact .inr ⟨q, List.mem_cons_of_mem _ hq, heq⟩
        · rcases ih ((b.writeSlot p.1 p.2).notifyPutField p.1 p.2) _ h with h | ⟨q, hq, heq⟩
          · have h : (b.rowDirty.insert p.1).test i = true := h
            by_cases hslot : i = p.1
            · exact .inr ⟨p, List.mem_cons_self, hslot.symm⟩
            · rw [WordSet.test_insert_ne _ hslot] at h
              exact .inl h
          · exact .inr ⟨q, List.mem_cons_of_mem _ hq, heq⟩
  rcases hdrain _ b.growDirty _ hi with h | ⟨p, hp, heq⟩
  · refine .inl ?_
    rwa [← WordSet.test_growFor b.rowDirty b.columns.length]
  · exact .inr ⟨p, List.mem_reverse.mp hp, heq⟩

variable {seen : List String} {name : String} {slot : Nat} {value : Value}

/-- A builder that has marked the columns of some names has so for more names. -/
theorem Marked.weaken (h : b.Marked seen) (name : String) : b.Marked (seen ++ [name]) :=
  ⟨fun i hi => (h.dirty i hi).imp fun _ => .imp_left (List.mem_append_left _),
    fun buf hbuf p hp => (h.held buf hbuf p hp).imp fun _ => .imp_left (List.mem_append_left _)⟩

/-- A value written to a column marks its slot, and the dirty bits are still those of names that
were put. -/
theorem Marked.pushFieldResolved (h : b.Marked seen) (hslot : b.fieldIndex.lookup name = some slot) :
    (b.pushFieldResolved name value).Marked (seen ++ [name]) := by
  have hmem : name ∈ b.fieldIndex := AList.lookup_isSome.mp (hslot ▸ rfl)
  have hensure : b.ensureColumnIdx name = (b, slot) := by
    rw [TableBuilder.ensureColumnIdx, hslot]
  rw [TableBuilder.pushFieldResolved, exactWithout_of_mem hmem]
  simp only [hensure]
  refine ⟨fun i hi => ?_, (h.weaken name).held⟩
  have hi : (b.rowDirty.insert slot).test i = true := hi
  by_cases heq : i = slot
  · exact ⟨name, List.mem_append_right _ (List.mem_singleton_self _), heq ▸ hslot⟩
  · rw [WordSet.test_insert_ne _ heq] at hi
    exact (h.weaken name).dirty i hi

/-- A value kept in the row buffer is under its slot, so the buffered slots are still those of names
that were put. -/
theorem Marked.keep {b' : TableBuilder} (h : b.Marked seen)
    (hslot : b.fieldIndex.lookup name = some slot) (hheld : b.Held name value b') :
    b'.Marked (seen ++ [name]) := by
  have hensure : b.ensureColumnIdx name = (b, slot) := by
    rw [TableBuilder.ensureColumnIdx, hslot]
  obtain ⟨err, g, rfl, hg⟩ := hheld.shape
  rw [hensure] at hg ⊢
  refine ⟨(h.weaken name).dirty, fun buf hbuf p hp => ?_⟩
  obtain ⟨buf₀, hbuf₀, rfl⟩ := Option.map_eq_some_iff.mp hbuf
  rw [(hg buf₀).1] at hp
  rcases Assoc.mem_put hp with rfl | hp
  · exact ⟨name, List.mem_append_right _ (List.mem_singleton_self _), hslot⟩
  · exact (h.weaken name).held buf₀ hbuf₀ p hp

/-- Draining turns the buffered slots into dirty ones; both were accounted for by the names that
were put. -/
theorem Marked.drainMidRow (h : b.Marked seen) : b.drainMidRow.Marked seen := by
  have hindex := b.quiet_drainMidRow.toSameColumns.index
  cases hbuf : b.rowBuf with
  | none =>
      have hnone : (b.mapRowBuf fun buf => { buf with direct := true }).rowBuf = none := by
        rw [mapRowBuf, hbuf, Option.map_none]
      rw [TableBuilder.drainMidRow, drainBuffered, hnone]
      refine ⟨h.dirty, fun buf' hbuf' => ?_⟩
      rw [hnone] at hbuf'
      cases hbuf'
  | some buf =>
      refine ⟨fun i hi => ?_, fun buf' hbuf' p hp => ?_⟩
      · rw [hindex]
        rw [drainMidRow_eq hbuf] at hi
        rcases b.dirty_withDrained buf.fields hi with hi | ⟨p, hp, rfl⟩
        · exact h.dirty i hi
        · exact h.held buf hbuf p hp
      · -- a drain leaves no value buffered
        rw [drainMidRow_eq hbuf] at hbuf'
        obtain ⟨buf₀, -, rfl⟩ := Option.map_eq_some_iff.mp hbuf'
        cases hp

/-- **A put marks the slot of its column** and no other, whether the value is written, held, or
drained with those before it. -/
theorem Marked.put (h : b.Marked seen) (hfrozen : b.frozen = none) {p : Put}
    (hmem : ∀ n ∈ p.target b.plan, n ∈ b.fieldIndex) :
    (b.put p).Marked (seen ++ (p.target b.plan).toList) := by
  cases htarget : p.target b.plan with
  | none =>
      rw [put_of_dropped htarget, Option.toList_none, List.append_nil]
      exact h
  | some name =>
      obtain ⟨slot, hslot⟩ := Option.isSome_iff_exists.mp
        (AList.lookup_isSome.mpr (hmem name htarget))
      rw [Option.toList_some]
      cases put_shape hfrozen htarget with
      | pushed _ heq =>
          rw [heq]
          exact h.pushFieldResolved hslot
      | held _ hheld => exact h.keep hslot hheld
      | drained _ _ b' hheld heq =>
          rw [heq]
          exact (h.keep hslot hheld).drainMidRow

/-! ## Rows under a projection -/

variable {plan : ExecutionPlan}

/-- The builder has the columns of a new one under the plan, and its mask. -/
structure Projects (plan : ExecutionPlan) (b : TableBuilder) : Prop where
  same : (withPlan plan).SameColumns b
  mask : b.cachedWantedMask = (withPlan plan).cachedWantedMask

/-- A builder made from the plan has no layout. -/
theorem Projects.frozen (h : b.Projects plan) : b.frozen = none :=
  h.same.frozen.trans (withPlan_frame plan).2

/-- The plan never changes. -/
theorem Projects.plan_eq (h : b.Projects plan) : b.plan = plan :=
  h.same.plan.trans (withPlan_frame plan).1

/-- A name the plan resolves a field to has a column from the start. -/
theorem Projects.mem_index (h : b.Projects plan) (hschema : plan.schemaOrder ≠ []) {p : Put}
    (hp : p.Resolves) : ∀ n ∈ p.target b.plan, n ∈ b.fieldIndex := by
  intro n hn
  rw [h.plan_eq] at hn
  rw [h.same.index]
  have hraw : ∃ raw, plan.resolveField raw = some n := by
    cases p with
    | field raw value => exact ⟨raw, hn⟩
    | fieldResolved name value => exact hp.elim
    | resolveAndPut raw value => exact ⟨raw, hn⟩
  obtain ⟨raw, hraw⟩ := hraw
  have hmem := ExecutionPlan.mem_predeclared_of_resolve hschema hraw
  obtain ⟨i, hi, -⟩ := (isSome_getColumn _ n).mp
    ((laid_withPlan hschema).2 n (List.mem_eraseDups.mpr hmem))
  exact AList.lookup_isSome.mp (hi ▸ rfl)

/-- A put keeps the columns: under a projection every name it can resolve to has its column from the
start. -/
theorem Projects.put (h : b.Projects plan) (hschema : plan.schemaOrder ≠ []) {p : Put}
    (hp : p.Resolves) : (b.put p).Projects plan :=
  ⟨h.same.trans (sameColumns_put_of_mem (h.mem_index hschema hp)),
    (cachedWantedMask_put h.frozen p).trans h.mask⟩

/-- `begin_row` keeps the columns and the mask. -/
theorem Projects.beginRow (h : b.Projects plan) : b.beginRow.Projects plan :=
  ⟨h.same.trans b.quiet_beginRow.toSameColumns, h.mask⟩

/-- A whole row keeps them: `begin_row`, the puts by induction, and `end_row`, none of which creates
a column here. -/
theorem Projects.row (h : b.Projects plan) (hschema : plan.schemaOrder ≠ []) {puts : List Put}
    (hputs : ∀ p ∈ puts, p.Resolves) : (b.row puts).Projects plan := by
  have hall : ∀ {b : TableBuilder}, b.Projects plan → (b.putAll puts).Projects plan := by
    induction puts with
    | nil => exact id
    | cons p puts ih =>
        intro b hb
        obtain ⟨hp, hrest⟩ := List.forall_mem_cons.mp hputs
        exact ih hrest (hb.put hschema hp)
  have hend := hall h.beginRow
  exact ⟨hend.same.trans (quiet_endRow _).toSameColumns,
    (cachedWantedMask_endRow _).trans hend.mask⟩

/-- **Once the row is satisfied it has a value for every column.** -/
theorem Marked.mem_of_rowSatisfied (h : b.Marked seen) (hproj : b.Projects plan)
    (hsatisfied : b.rowSatisfied = true) {n : String} (hn : n ∈ b.fieldIndex) : n ∈ seen := by
  have hdeclared := (declared_withPlan plan).congr hproj.same
  have hmask : b.cachedWantedMask = b.computeWantedMask := by
    rw [hproj.mask, computeWantedMask, hproj.same.plan, hproj.same.index]
    rfl
  obtain ⟨i, hi⟩ := Option.isSome_iff_exists.mp (AList.lookup_isSome.mpr hn)
  have hne : b.computeWantedMask ≠ 0 := by
    intro hzero
    rw [rowSatisfied, hmask, if_pos hzero] at hsatisfied
    cases hsatisfied
  obtain ⟨hlt, hbit⟩ := getLsbD_computeWantedMask hne hi
  obtain ⟨k, hk⟩ := dirty_of_rowSatisfied hsatisfied hlt (hmask ▸ hbit)
  -- the dirty bit is of a column, whose slot fits in the first word
  obtain ⟨m, hm, hslot⟩ := h.dirty _ hk
  have hfirst := (getLsbD_computeWantedMask hne hslot).1
  obtain rfl : k = 0 := by omega
  rw [Nat.mul_zero, Nat.zero_add] at hslot
  have hname : some m = some n :=
    ((hdeclared.indexed m i).mp hslot).symm.trans ((hdeclared.indexed n i).mp hi)
  exact Option.some.inj hname ▸ hm

/-- Fields the plan drops change nothing. -/
theorem putAll_of_dropped {puts : List Put} (h : ∀ p ∈ puts, p.target b.plan = none) :
    b.putAll puts = b := by
  induction puts with
  | nil => rfl
  | cons p puts ih =>
      obtain ⟨hp, hrest⟩ := List.forall_mem_cons.mp h
      have hput := put_of_dropped hp
      rw [putAll, List.foldl_cons, hput]
      exact ih hrest

/-- Stopping once the row is satisfied leaves out only puts that change nothing. -/
theorem Marked.putUntilSatisfied (h : b.Marked seen) (hproj : b.Projects plan)
    (hschema : plan.schemaOrder ≠ []) {puts : List Put} (hputs : ∀ p ∈ puts, p.Resolves)
    (hnodup : (seen ++ puts.filterMap (·.target plan)).Nodup) :
    b.putUntilSatisfied puts = b.putAll puts := by
  induction puts generalizing b seen with
  | nil => rfl
  | cons p puts ih =>
      rw [TableBuilder.putUntilSatisfied]
      split
      · next hsatisfied =>
        -- a later field of a column would be the second one of the row
        refine (putAll_of_dropped fun q hq => ?_).symm
        rw [hproj.plan_eq]
        cases htarget : q.target plan with
        | none => rfl
        | some name =>
            have hindex := hproj.mem_index hschema (hputs q hq) name (hproj.plan_eq ▸ htarget)
            have hlater := List.mem_filterMap.mpr ⟨q, hq, htarget⟩
            exact (List.disjoint_of_nodup_append hnodup
              (h.mem_of_rowSatisfied hproj hsatisfied hindex) hlater).elim
      · obtain ⟨hp, hrest⟩ := List.forall_mem_cons.mp hputs
        have hmarked := h.put hproj.frozen (hproj.mem_index hschema hp)
        refine ih hmarked (hproj.put hschema hp) hrest ?_
        rw [hproj.plan_eq]
        cases htarget : p.target plan with
        | none => simpa [htarget] using hnodup
        | some name => simpa [htarget] using hnodup

variable {puts : List Put}

/-- **A row read until it is satisfied ends like the whole row.** -/
theorem rowUntilSatisfied_eq (htall : b.Tall) (hproj : b.Projects plan)
    (hschema : plan.schemaOrder ≠ []) (hputs : ∀ p ∈ puts, p.Resolves)
    (hnodup : (puts.filterMap (·.target plan)).Nodup) : b.rowUntilSatisfied puts = b.row puts := by
  rw [rowUntilSatisfied, TableBuilder.row,
    htall.marked.putUntilSatisfied hproj.beginRow hschema hputs hnodup]

/-- Rows of fields that resolve keep the columns and the mask. -/
theorem Projects.feed (h : b.Projects plan) (hschema : plan.schemaOrder ≠ [])
    {rows : List (List Put)} (hrows : ∀ puts ∈ rows, ∀ p ∈ puts, p.Resolves) :
    (b.feed rows).Projects plan := by
  induction rows generalizing b with
  | nil => exact h
  | cons puts rows ih =>
      obtain ⟨hputs, hrest⟩ := List.forall_mem_cons.mp hrows
      exact ih (h.row hschema hputs) hrest

/-- Rows that are each read until they are satisfied end like the whole rows. -/
theorem feedUntilSatisfied_eq (htall : b.Tall) (hproj : b.Projects plan)
    (hschema : plan.schemaOrder ≠ []) {rows : List (List Put)}
    (hrows : ∀ puts ∈ rows, (∀ p ∈ puts, p.Resolves) ∧ (puts.filterMap (·.target plan)).Nodup) :
    b.feedUntilSatisfied rows = b.feed rows := by
  induction rows generalizing b with
  | nil => rfl
  | cons puts rows ih =>
      obtain ⟨⟨hputs, hnodup⟩, hrest⟩ := List.forall_mem_cons.mp hrows
      have hrow := rowUntilSatisfied_eq htall hproj hschema hputs hnodup
      rw [feedUntilSatisfied, List.foldl_cons, hrow]
      exact ih (htall.row puts) (hproj.row hschema hputs) hrest

/-- **Under a projection the columns are those of `with_plan`, and stopping a row early is safe.**
Calls that resolve their fields create no column. After any such rows, a row whose fields are of
distinct columns leaves the same builder when its puts stop at `row_satisfied`, so the same outcome
and the same cells; and so does a run in which every row stops there. -/
theorem early_stop (plan : ExecutionPlan) (hschema : plan.schemaOrder ≠ []) :
    (∀ calls : List Call, (∀ p, .put p ∈ calls → p.Resolves) →
      (withPlan plan).SameColumns ((withPlan plan).callAll calls)) ∧
    (∀ rows : List (List Put), (∀ puts ∈ rows, ∀ p ∈ puts, p.Resolves) →
      ∀ puts : List Put, (∀ p ∈ puts, p.Resolves) → (puts.filterMap (·.target plan)).Nodup →
        ((withPlan plan).feed rows).rowUntilSatisfied puts =
          ((withPlan plan).feed rows).row puts) ∧
    ∀ rows : List (List Put),
      (∀ puts ∈ rows, (∀ p ∈ puts, p.Resolves) ∧ (puts.filterMap (·.target plan)).Nodup) →
      (withPlan plan).feedUntilSatisfied rows = (withPlan plan).feed rows := by
  have hstart : (withPlan plan).Projects plan := ⟨.refl _, rfl⟩
  refine ⟨fun calls hcalls => ?_, fun rows hrows puts hputs hnodup => ?_, fun rows hrows => ?_⟩
  · exact sameColumns_of_resolved hschema fun name value hmem => (hcalls _ hmem).elim
  · exact rowUntilSatisfied_eq ((tall_withPlan plan).feed rows) (hstart.feed hschema hrows) hschema
      hputs hnodup
  · exact feedUntilSatisfied_eq (tall_withPlan plan) hstart hschema hrows

end TableBuilder

end EarlyStop

section Examples

attribute [local instance] integerPlatform

namespace TableBuilder

/-- A row whose first field fills the only column: stopping after it leaves the builder that the
whole row leaves. -/
theorem early_stop_one_column :
    (withPlan { schemaOrder := ["a"] }).rowUntilSatisfied
        [.field "a" (.str "1"), .resolveAndPut "x" (.str "2")] =
      (withPlan { schemaOrder := ["a"] }).row
        [.field "a" (.str "1"), .resolveAndPut "x" (.str "2")] := by
  refine (early_stop { schemaOrder := ["a"] } (by decide)).2.1 [] (by simp) _ (fun p hp => ?_)
    (by decide)
  rcases List.mem_pair.mp hp with rfl | rfl
  · exact trivial
  · exact trivial

example : ((withPlan { schemaOrder := ["a"] }).beginRow.put
    (.field "a" (.str "1"))).rowSatisfied = true := rfl

end TableBuilder

end Examples

end Rypipe
