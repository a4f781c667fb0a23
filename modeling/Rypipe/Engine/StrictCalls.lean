import Rypipe.Engine.EveryColumn

/-! # The strict check in a run of calls

The strict check looks up the declared type of a slot by the name that the export order has there. The
slots follow that order (`Ordered`) as long as no value is put to a dropped column, so every string a
run without errors puts to a column of a declared type parses as that type (`checked_of_callAll`). -/

namespace Rypipe

variable [Platform]

namespace TableBuilder

/-- The column a call writes to. -/
def columnOf (b : TableBuilder) : Call → Option String
  | .put p => p.target b.plan
  | .putFieldAt slot _ | .putStrAt slot _ => b.columnOrder[slot]?
  | .beginRow | .endRow => none

/-- The calls put no value to a column that the plan drops. -/
def KeptNames (plan : ExecutionPlan) (calls : List Call) : Prop :=
  ∀ p, .put p ∈ calls → ∀ name, p.target plan = some name → name ∉ plan.dropFields

/-- The builder has the columns of the table, in the order in which it exports them. -/
structure Ordered (b : TableBuilder) (t : Table) : Prop extends b.Declared t where
  sameOrder : b.columnOrder = t.names
  projected : ∀ name ∈ b.plan.schemaOrder, name ∉ b.plan.dropFields → name ∈ t.names

variable {b b' : TableBuilder} {t : Table}

/-- The order is about the columns only, whatever they contain. -/
theorem Ordered.congr (h : b.Ordered t) (hsame : b.SameColumns b') : b'.Ordered t := by
  refine ⟨h.toDeclared.congr hsame, hsame.order.trans h.sameOrder, ?_⟩
  rw [hsame.plan]
  exact h.projected

/-- A new column that is not dropped comes last in both orders: the columns of the projection exist
already. -/
theorem Ordered.ensureColumnIdx (h : b.Ordered t) {name : String}
    (hexact : b.exactWithout name = none) (hdrop : name ∉ b.plan.dropFields) :
    (b.ensureColumnIdx name).1.Ordered (t.declare name (b.plan.columnType name)) ∧
      (b.ensureColumnIdx name).1.columnOrder[(b.ensureColumnIdx name).2]? = some name := by
  have hdeclared := h.toDeclared.ensureColumnIdx hexact
  rw [TableBuilder.ensureColumnIdx] at hdeclared ⊢
  cases hlook : b.fieldIndex.lookup name with
  | some i =>
      have hi := (h.indexed name i).mp hlook
      rw [RowTable.declare_of_mem (List.mem_of_getElem? hi)]
      exact ⟨h, h.sameOrder ▸ hi⟩
  | none =>
      rw [hlook] at hdeclared
      have hname : name ∉ t.names := by
        rw [← h.mem_index]
        exact AList.lookup_eq_none.mp hlook
      have hlast := schemaInsertIndex_of_notMem fun hmem => hname (h.projected name hmem hdrop)
      have horder : (b.createColumn name).columnOrder = t.names ++ [name] := by
        show b.columnOrder.insertIdx (b.schemaInsertIndex name) name = _
        rw [hlast, List.insertIdx_length_self, h.sameOrder]
      simp only [hexact] at hdeclared ⊢
      refine ⟨⟨hdeclared, ?_, fun n hn hnot => ?_⟩, ?_⟩
      · rw [horder, names_declare_of_notMem hname]
      · rw [RowTable.mem_names_declare]
        exact .inl (h.projected n hn hnot)
      · rw [horder, h.size, ← List.length_map Prod.fst]
        exact List.getElem?_concat_length

/-- A call that puts no value to a dropped column keeps the order. -/
theorem Ordered.call (h : b.Ordered t) {c : Call} (hkept : KeptNames b.plan [c])
    (hok : (b.call c).unknownError = none) : ∃ t', (b.call c).Ordered t' ∧ (b.call c).plan = b.plan := by
  have hquiet : ∀ {b' : TableBuilder}, b.SameColumns b' → ∃ t', b'.Ordered t' ∧ b'.plan = b.plan :=
    fun hsame => ⟨t, h.congr hsame, hsame.plan⟩
  cases c with
  | beginRow => exact hquiet b.quiet_beginRow.toSameColumns
  | put p =>
      cases htarget : p.target b.plan with
      | none =>
          have hput : b.call (.put p) = b := put_of_dropped htarget
          rw [hput]
          exact ⟨t, h, rfl⟩
      | some name =>
          cases hexact : b.exactWithout name with
          | some frozen =>
              have hsome := (put_refused htarget hexact).2
              have hok : (b.put p).unknownError = none := hok
              rw [hok] at hsome
              cases hsome
          | none =>
              have hdrop := hkept p List.mem_cons_self name htarget
              have hsame := (sameColumns_recordStrictViolationAt _ _ _).trans
                (quiet_put htarget hexact).toSameColumns
              exact ⟨_, (h.ensureColumnIdx hexact hdrop).1.congr hsame,
                hsame.plan.trans (admitField_frame hexact p.value).1⟩
  | putFieldAt slot value => exact hquiet (b.sameColumns_putFieldAt slot value).1
  | putStrAt slot value => exact hquiet (b.sameColumns_putStrAt slot value).1
  | endRow => exact hquiet b.quiet_endRow.toSameColumns

/-- A run of such calls keeps the order: as long as no put names a dropped column and no name is
unknown, every new column goes to the end. -/
theorem Ordered.callAll (h : b.Ordered t) {calls : List Call} (hkept : KeptNames b.plan calls)
    (hok : (b.callAll calls).unknownError = none) :
    ∃ t', (b.callAll calls).Ordered t' ∧ (b.callAll calls).plan = b.plan := by
  induction calls generalizing b t with
  | nil => exact ⟨t, h, rfl⟩
  | cons c calls ih =>
      have hfirst : KeptNames b.plan [c] := fun p hp =>
        hkept p (List.mem_cons.mpr (.inl (List.mem_singleton.mp hp)))
      obtain ⟨t', h', hplan⟩ := h.call hfirst (unknownError_of_callAll hok)
      have hrest : KeptNames (b.call c).plan calls := by
        rw [hplan]
        exact fun p hp => hkept p (List.mem_cons_of_mem c hp)
      obtain ⟨t'', h'', hplan'⟩ := ih h' hrest hok
      exact ⟨t'', h'', hplan'.trans hplan⟩

/-- The columns of the builder a run starts with are in order: the projected ones first and those of
the given layout behind them. -/
theorem ordered_start (plan : ExecutionPlan) (layout : Option FrozenSchema) :
    (∃ t, (start plan layout).Ordered t) ∧ (start plan layout).plan = plan := by
  have hdeclared := declared_withPlan plan
  have hwith := columnOrder_withPlan plan
  have hplan := (withPlan_frame plan).1
  cases layout with
  | none =>
      refine ⟨⟨_, hdeclared, hwith, ?_⟩, hplan⟩
      rw [start, hplan]
      exact fun name => mem_names_predeclared
  | some schema =>
      have hplan' := (plan_ensureSchema (withPlan plan) schema).trans hplan
      refine ⟨⟨_, hdeclared.ensureSchema schema,
        order_declareColumns hdeclared hwith schema.columns, ?_⟩, hplan'⟩
      rw [start, hplan']
      intro name hname hdrop
      rw [RowTable.mem_names_declareAll]
      exact .inl (mem_names_predeclared hname hdrop)

/-- A run without errors had none before. -/
theorem NoError.of_callAll {calls : List Call} (h : (b.callAll calls).NoError) : b.NoError := by
  induction calls generalizing b with
  | nil => exact h
  | cons c calls ih => exact (ih h).of_call

/-- **A call that leaves no error wrote a checked value.** The value is checked against the column
that the call writes it to, which has the type of the plan, and an error that is set would still be
there after the call. -/
theorem Ordered.checked (h : b.Ordered t) (hstrict : b.plan.strictTypes = true) {c : Call}
    (hkept : KeptNames b.plan [c]) (hok : (b.call c).NoError) {name : String}
    (hname : b.columnOf c = some name) {ty : FieldType} {value : Value}
    (hreceived : b.received c = some (ty, value)) : Checked b.plan name value := by
  -- both slot calls check the value against the column of the slot
  have hslot : ∀ {slot : Nat} {v : Value}, b.columnOrder[slot]? = some name →
      (b.kinds[slot]?).map (fun ty => (ty, v)) = some (ty, value) →
      (b.putFieldAt slot v).strictError = none → Checked b.plan name value := by
    intro slot v hname hreceived hnone
    obtain ⟨ty', hty, heq⟩ := Option.map_eq_some_iff.mp hreceived
    cases heq
    have hlt : slot < b.columns.length := by
      have hlt := (List.getElem?_eq_some_iff.mp hty).1
      rwa [kinds, List.length_map] at hlt
    rw [(b.quiet_putFieldAt hlt value).strict] at hnone
    exact (checked_of_strictError hstrict hname hnone).2
  cases c with
  | beginRow => cases hname
  | put p =>
      have hname : p.target b.plan = some name := hname
      rw [received, hname, Option.bind_some] at hreceived
      obtain ⟨ty', -, heq⟩ := Option.map_eq_some_iff.mp hreceived
      cases heq
      cases hexact : b.exactWithout name with
      | some frozen =>
          -- a refused name would have left an error
          have hsome := (put_refused hname hexact).2
          have hnone : (b.put p).unknownError = none := hok.unknown
          rw [hnone] at hsome
          cases hsome
      | none =>
          have hdrop := hkept p List.mem_cons_self name hname
          have hplan := (admitField_frame hexact p.value).1
          have hnone : (b.put p).strictError = none := hok.strict
          rw [(quiet_put hname hexact).strict, admitField] at hnone
          have hchecked := checked_of_strictError (b := (b.ensureColumnIdx name).1)
            (hplan.symm ▸ hstrict) (h.ensureColumnIdx hexact hdrop).2 hnone
          exact hplan ▸ hchecked.2
  | putFieldAt slot v => exact hslot hname hreceived hok.strict
  | putStrAt slot v =>
      have heq : b.call (.putStrAt slot v) = b.putFieldAt slot (.str v) := b.putStrAt_eq slot v
      exact hslot hname hreceived (heq ▸ hok.strict)
  | endRow => cases hname

/-- **A run without errors has checked every value it put to a column of a declared type**, if it puts
none to a dropped column. -/
theorem checked_of_callAll {plan : ExecutionPlan} (hstrict : plan.strictTypes = true)
    {layout : Option FrozenSchema} {before after : List Call} {c : Call}
    (hkept : KeptNames plan (before ++ c :: after))
    (hok : ((start plan layout).callAll (before ++ c :: after)).NoError) {name : String}
    (hname : ((start plan layout).callAll before).columnOf c = some name) {ty : FieldType}
    {value : Value} (hreceived : ((start plan layout).callAll before).received c = some (ty, value)) :
    Checked plan name value := by
  obtain ⟨⟨t, h⟩, hplan⟩ := ordered_start plan layout
  have hrun : (start plan layout).callAll (before ++ c :: after) =
      (((start plan layout).callAll before).call c).callAll after := List.foldl_append
  rw [hrun] at hok
  have hcall := hok.of_callAll
  have hbefore : KeptNames (start plan layout).plan before := by
    rw [hplan]
    exact fun p hp => hkept p (List.mem_append_left _ hp)
  obtain ⟨t', h', hplan'⟩ := h.callAll hbefore hcall.of_call.unknown
  have hsame := hplan'.trans hplan
  have hone : KeptNames ((start plan layout).callAll before).plan [c] := by
    rw [hsame]
    intro p hp
    exact hkept p (List.mem_append_right _ (List.mem_cons.mpr (.inl (List.mem_singleton.mp hp))))
  have hchecked := h'.checked (hsame.symm ▸ hstrict) hone hcall hname hreceived
  rwa [hsame] at hchecked

end TableBuilder

end Rypipe
