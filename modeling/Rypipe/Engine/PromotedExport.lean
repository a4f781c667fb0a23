import Rypipe.Columnar.Promotion
import Rypipe.Engine.Unfinished
import Rypipe.Foundation.Chains

/-! # The batch of promoted columns

A builder whose columns have been promoted still exports its rows: `finish` gives a batch with the
same names and row count, where a promoted column has the promoted values. -/

namespace Rypipe

section PromotedExport

variable [Platform]

/-- A type of a batch after a safe promotion. -/
inductive DataType.Promotes : DataType → DataType → Prop
  | refl (datatype : DataType) : Promotes datatype datatype
  | float : Promotes .int64 .float64
  | encode : Promotes .utf8 .dictionary

/-- An array after a safe promotion. -/
inductive ArrayRef.Promotes : ArrayRef → ArrayRef → Prop
  | refl (a : ArrayRef) : Promotes a a
  | float (v : List (Option Int)) :
      Promotes ⟨.int64, v.map (·.map .int64)⟩ ⟨.float64, v.map (·.map fun i => .float64 (intAsF64 i))⟩
  | encode (values : List (Option TypedValue)) : Promotes ⟨.utf8, values⟩ ⟨.dictionary, values⟩

/-- The same rows under the same names, some columns promoted. -/
structure RecordBatch.Promotes (batch batch' : RecordBatch) : Prop where
  schema : List.Forall₂ (fun f f' => f'.1 = f.1 ∧ f.2.Promotes f'.2) batch.schema batch'.schema
  columns : List.Forall₂ ArrayRef.Promotes batch.columns batch'.columns
  rowCount : batch'.rowCount = batch.rowCount

theorem RecordBatch.Promotes.refl (batch : RecordBatch) : batch.Promotes batch :=
  ⟨List.forall₂_same.mpr fun f _ => ⟨rfl, .refl f.2⟩, List.forall₂_same.mpr fun a _ => .refl a, rfl⟩

/-- A promotion keeps the number of values. -/
theorem ArrayRef.Promotes.length {a a' : ArrayRef} (h : a.Promotes a') :
    a'.values.length = a.values.length := by
  cases h with
  | refl => rfl
  | float v => rw [List.length_map, List.length_map]
  | encode => rfl

theorem ArrayRef.length_of_promotes {arrays arrays' : List ArrayRef} {rows : Nat}
    (h : List.Forall₂ ArrayRef.Promotes arrays arrays')
    (hrows : ∀ a ∈ arrays, a.values.length = rows) : ∀ a ∈ arrays', a.values.length = rows := by
  induction h with
  | nil => exact hrows
  | cons ha _ ih =>
      obtain ⟨hfirst, hrest⟩ := List.forall_mem_cons.mp hrows
      exact List.forall_mem_cons.mpr ⟨ha.length.trans hfirst, ih hrest⟩

namespace ColumnBuilder

/-- The later column reads like the earlier, up to a safe promotion. -/
inductive PromotesTo : ColumnBuilder → ColumnBuilder → Prop
  | alike {c c' : ColumnBuilder} (h : c.Alike c') : PromotesTo c c'
  | float (v : List (Option Int)) : PromotesTo (.int64 v) (.float64 (v.map (·.map intAsF64)))
  | encode {v : List (Option String)} {codes : List (Option Nat)} {dict : Interner String}
      (hcells : dict.decodeAll codes = v) (hcovers : dict.Covers codes) :
      PromotesTo (.string v) (.dictionary codes dict)
  | format (unit : TimeUnit) (f f' : Option String) (v : List (Option Int)) :
      PromotesTo (.timestamp unit f v) (.timestamp unit f' v)

variable {c c' : ColumnBuilder}

/-- Columns with the same cells up to a promotion export arrays that promote one another. The cases
are the promotions: the same type, integers read as doubles, texts encoded in a dictionary, and
timestamps with another format. -/
theorem Stores.promotes {ty ty' : FieldType} {cells : List (Option TypedValue)}
    (hty : Promotes ty ty') (h : c.Stores ty cells) (h' : c'.Stores ty' (widenAll ty' cells)) :
    c.PromotesTo c' := by
  cases hty with
  | refl =>
      refine .alike (h.alike ?_)
      have hself := c.widenAll_self
      rw [h.kind, h.cells] at hself
      rwa [hself] at h'
  | toFloat =>
      obtain ⟨-, hkind, rfl⟩ := h
      obtain ⟨-, hkind', hcells'⟩ := h'
      cases c with
      | int64 v =>
          cases c' with
          | float64 w =>
              -- the constructor is injective, so the raw values are those of the widened cells
              have hw : w = v.map (·.map intAsF64) := by
                refine (List.map_injective_iff.mpr (Option.map_injective
                  fun _ _ h => TypedValue.float64.inj h)) (hcells'.trans ?_)
                simp [widenAll, ColumnBuilder.cells, widen, Function.comp_def]
              exact hw ▸ .float v
          | _ => cases hkind'
      | _ => cases hkind
  | encode =>
      obtain ⟨-, hkind, rfl⟩ := h
      obtain ⟨hvalid', hkind', hcells'⟩ := h'
      cases c with
      | string v =>
          cases c' with
          | dictionary codes dict =>
              refine .encode ((List.map_injective_iff.mpr (Option.map_injective
                fun _ _ h => TypedValue.str.inj h)) (hcells'.trans ?_)) hvalid'.2
              simp [widenAll, ColumnBuilder.cells, widen, Function.comp_def]
          | _ => cases hkind'
      | _ => cases hkind
  | format unit f f' =>
      obtain ⟨-, hkind, rfl⟩ := h
      obtain ⟨-, hkind', hcells'⟩ := h'
      cases c with
      | timestamp unit₁ f₁ v =>
          cases c' with
          | timestamp unit₂ f₂ w =>
              obtain ⟨rfl, -⟩ := FieldType.timestamp.inj hkind
              obtain ⟨rfl, -⟩ := FieldType.timestamp.inj hkind'
              have hw : w = v := by
                -- the unit is that of both columns, and the format does not show in the cells
                have hinj : Function.Injective fun i => TypedValue.timestamp i unit₂ :=
                  fun _ _ h => (TypedValue.timestamp.inj h).1
                refine (List.map_injective_iff.mpr (Option.map_injective hinj))
                  (hcells'.trans ?_)
                simp [widenAll, ColumnBuilder.cells, widen, Function.comp_def]
              subst hw
              exact .format _ f₁ f₂ w
          | _ => cases hkind'
      | _ => cases hkind

/-- Truncating a column that retains the cells of another. -/
theorem Retains.promotes {n : Nat} (hc : c.Valid) (h : c.Retains n c') :
    (pop^[c.len - n] c).PromotesTo (pop^[c'.len - n] c') := by
  have hst := (stores_self hc).popTo n
  have hst' := (stores_self h.valid).popTo n
  rw [h.cells] at hst'
  exact hst.promotes h.kind hst'

/-- The automatic upgrade of promoted columns: it is decided on the texts, which are the same, and
encodes one that is not encoded yet. -/
theorem PromotesTo.tryUpgradeToDict (h : c.PromotesTo c') (minRows : Nat) (maxRatio : F64)
    (maxSize : Nat) : (c.tryUpgradeToDict minRows maxRatio maxSize).PromotesTo
      (c'.tryUpgradeToDict minRows maxRatio maxSize) := by
  cases h with
  | alike h => exact .alike (h.tryUpgradeToDict _ _ _)
  | float v => exact .float v
  | format unit f f' v => exact .format unit f f' v
  | @encode v codes dict hcells hcovers =>
      have hencode := PromotesTo.encode hcells hcovers
      have hst := Stores.encodeStrings v
      simp only [ColumnBuilder.tryUpgradeToDict]
      split
      · exact hencode
      · split
        · exact hencode
        · -- the upgrade encodes what the promotion has encoded
          obtain ⟨hdecode, hcovers'⟩ := Interner.decodeAll_internOpts Interner.empty_wf v
          exact .alike (.dictionary (hdecode.trans hcells.symm) hcovers' hcovers)

/-- The empty column that an export leaves is promoted like the column it was. -/
theorem PromotesTo.emptied (h : c.PromotesTo c') : c.emptied.PromotesTo c'.emptied := by
  cases h with
  | alike h =>
      cases h with
      | refl => exact .alike (.refl _)
      | dictionary =>
          exact .alike (.dictionary rfl (fun k hk => by cases hk) fun k hk => by cases hk)
  | float v => exact .float []
  | format unit f f' v => exact .format unit f f' []
  | encode => exact .encode rfl fun k hk => by cases hk

/-- **What promoted columns export**: a promoted array, and a column that can be exported again. -/
theorem PromotesTo.toArrowArray (h : c.PromotesTo c') {a : ArrayRef} {left : ColumnBuilder}
    (hok : c.toArrowArray = .ok (a, left)) :
    ∃ a' left', c'.toArrowArray = .ok (a', left') ∧ a.Promotes a' ∧ left.PromotesTo left' ∧
      c.arrowDatatype.Promotes c'.arrowDatatype ∧
      (c.arrowDatatype = a.datatype → c'.arrowDatatype = a'.datatype) := by
  have hempty := h.emptied
  cases h with
  | alike h =>
      have hkind : c'.arrowDatatype = c.arrowDatatype := by
        rw [arrowDatatype_eq, arrowDatatype_eq, h.kind]
      rcases h.toArrowArray with ⟨err, herr, -⟩ | ⟨a', left₁, left', hok₁, hok', hleft⟩
      · rw [herr] at hok
        cases hok
      · rw [hok₁, Except.ok.injEq, Prod.mk.injEq] at hok
        obtain ⟨rfl, rfl⟩ := hok
        rw [hkind]
        exact ⟨a', left', hok', .refl _, .alike hleft, .refl _, id⟩
  | float v =>
      obtain ⟨rfl, rfl⟩ := Prod.mk.inj (Except.ok.inj hok)
      -- widened before the export or after it, an integer gives the same double
      have hcells : (ColumnBuilder.float64 (v.map (·.map intAsF64))).cells =
          v.map (·.map fun i => .float64 (intAsF64 i)) := by
        rw [cells, List.map_map]
        refine List.map_congr_left fun cell _ => ?_
        cases cell <;> rfl
      refine ⟨_, _, rfl, ?_, hempty, .float, fun _ => rfl⟩
      rw [hcells]
      exact .float v
  | format unit f f' v =>
      obtain ⟨rfl, rfl⟩ := Prod.mk.inj (Except.ok.inj hok)
      exact ⟨_, _, rfl, .refl _, hempty, .refl _, fun _ => rfl⟩
  | @encode v codes dict hcells hcovers =>
      obtain ⟨rfl, rfl⟩ := Prod.mk.inj (Except.ok.inj hok)
      refine ⟨_, _, toArrowArray_dictionary hcovers, ?_, hempty, .encode, fun _ => rfl⟩
      have hvalues : (ColumnBuilder.dictionary codes dict).cells = (ColumnBuilder.string v).cells := by
        rw [cells, cells, hcells]
      rw [hvalues]
      exact .encode _

end ColumnBuilder

namespace TableBuilder

open ColumnBuilder

/-- Exporting slots whose columns have been promoted gives arrays that are promoted, slot by slot.
The decimals check and the refusal of a slot without a column come out the same on both sides. -/
theorem exportSlots_promotes {columns columns' : List ColumnBuilder} {slots : List (String × Nat)}
    (h : ∀ s ∈ slots, Option.Rel PromotesTo columns[s.2]? columns'[s.2]?) {fields : Schema}
    {arrays : List ArrayRef} (hok : exportSlots columns slots = .ok (fields, arrays)) :
    ∃ fields' arrays', exportSlots columns' slots = .ok (fields', arrays') ∧
      List.Forall₂ (fun f f' => f'.1 = f.1 ∧ f.2.Promotes f'.2) fields fields' ∧
      List.Forall₂ ArrayRef.Promotes arrays arrays' ∧
      (fields.map Prod.snd = arrays.map ArrayRef.datatype →
        fields'.map Prod.snd = arrays'.map ArrayRef.datatype) := by
  induction slots generalizing columns columns' fields arrays with
  | nil =>
      cases hok
      exact ⟨[], [], rfl, .nil, .nil, id⟩
  | cons slot slots ih =>
      have hslot := h slot List.mem_cons_self
      have hslots : ∀ s ∈ slots, Option.Rel PromotesTo columns[s.2]? columns'[s.2]? :=
        fun s hs => h s (List.mem_cons_of_mem _ hs)
      rw [exportSlots] at hok ⊢
      cases hc : columns[slot.2]? with
      | none =>
          rw [hc] at hslot hok
          cases hc' : columns'[slot.2]? with
          | none => exact ih hslots hok
          | some c' =>
              rw [hc'] at hslot
              cases hslot
      | some c =>
          rw [hc] at hslot hok
          cases hc' : columns'[slot.2]? with
          | none =>
              rw [hc'] at hslot
              cases hslot
          | some c' =>
              rw [hc'] at hslot
              obtain ⟨hpromotes⟩ := hslot
              simp only [bind, Except.bind] at hok ⊢
              cases harray : c.toArrowArray with
              | error err => simp [harray] at hok
              | ok out =>
                  obtain ⟨a, left⟩ := out
                  obtain ⟨a', left', harray', ha, hleft, htype, hsame⟩ :=
                    hpromotes.toArrowArray harray
                  simp only [harray] at hok
                  cases hrest : exportSlots (columns.set slot.2 left) slots with
                  | error err => simp [hrest] at hok
                  | ok rest =>
                      simp only [hrest, Except.ok.injEq, Prod.mk.injEq] at hok
                      obtain ⟨rfl, rfl⟩ := hok
                      -- the slot now holds what the export has left of the column
                      have hslots' : ∀ s ∈ slots, Option.Rel PromotesTo
                          (columns.set slot.2 left)[s.2]? (columns'.set slot.2 left')[s.2]? := by
                        intro s hs
                        by_cases heq : slot.2 = s.2
                        · rw [← heq, List.getElem?_set_self (List.getElem?_eq_some_iff.mp hc).1,
                            List.getElem?_set_self (List.getElem?_eq_some_iff.mp hc').1]
                          exact .some hleft
                        · rw [List.getElem?_set_ne heq, List.getElem?_set_ne heq]
                          exact hslots s hs
                      obtain ⟨fields', arrays', hrest', hfields, harrays, htypes⟩ := ih hslots' hrest
                      simp only [harray', hrest']
                      refine ⟨_, _, rfl, .cons ⟨rfl, htype⟩ hfields, .cons ha harrays, ?_⟩
                      intro hmap
                      rw [List.map_cons, List.map_cons, List.cons.injEq] at hmap ⊢
                      exact ⟨hsame hmap.1, htypes hmap.2⟩

/-- Arrow accepts promoted arrays like those they come from: the same number of columns, of the same
lengths, with types that fit the fields. -/
theorem tryNew_promotes {schema schema' : Schema} {arrays arrays' : List ArrayRef}
    (hfields : List.Forall₂ (fun f f' => f'.1 = f.1 ∧ f.2.Promotes f'.2) schema schema')
    (harrays : List.Forall₂ ArrayRef.Promotes arrays arrays')
    (htypes : schema.map Prod.snd = arrays.map ArrayRef.datatype →
      schema'.map Prod.snd = arrays'.map ArrayRef.datatype) {batch : RecordBatch}
    (hok : RecordBatch.tryNew schema arrays = .ok batch) :
    ∃ batch', RecordBatch.tryNew schema' arrays' = .ok batch' ∧ batch.Promotes batch' := by
  obtain ⟨hschema, hcolumns, hlength, hsame, hrows⟩ := RecordBatch.madeOf_of_tryNew hok
  have hrows' := ArrayRef.length_of_promotes harrays hrows
  have hlength' : schema'.length = arrays'.length := by
    rw [← hfields.length_eq, hlength, harrays.length_eq]
  refine ⟨⟨schema', arrays', batch.rowCount⟩, ?_, by rwa [← hschema] at hfields,
    by rwa [← hcolumns] at harrays, rfl⟩
  have hmade := RecordBatch.tryNewWithRows_eq hlength' hrows'
  rw [if_pos (htypes hsame)] at hmade
  cases harrays with
  | nil => cases hok
  | @cons a a' _ _ ha _ =>
      rw [RecordBatch.tryNew, List.head?_cons]
      dsimp only
      rw [hrows' a' List.mem_cons_self]
      exact hmade

variable {b b' : TableBuilder}

/-- The automatic upgrade of a builder with promoted columns. -/
theorem promotes_autoDictUpgrade (hplan : b'.plan = b.plan)
    (h : List.Forall₂ PromotesTo b.columns b'.columns) :
    List.Forall₂ PromotesTo b.autoDictUpgrade.columns b'.autoDictUpgrade.columns := by
  rw [autoDictUpgrade, autoDictUpgrade, hplan]
  split
  · refine List.forall₂_map_left_iff.mpr (List.forall₂_map_right_iff.mpr ?_)
    exact h.imp fun _ _ hc => hc.tryUpgradeToDict _ _ _
  · exact h

/-- **A builder whose columns have been promoted exports its rows**, promoted. The checks at the
start of `finish` look at errors and lengths, and the upgrade to dictionaries is itself a promotion,
so it may come on top on either side. -/
theorem finish_promotes (hmem : ∀ n ∈ b.exportNames, n ∈ b.fieldIndex)
    {columns : List ColumnBuilder} (hvalid : ∀ c ∈ b.columns, c.Valid)
    (hcolumns : List.Forall₂ (Retains b.rowCount) b.columns columns) {batch : RecordBatch}
    (hok : b.finish = .ok batch) :
    ∃ batch', ({ b with columns := columns } : TableBuilder).finish = .ok batch' ∧
      batch.Promotes batch' := by
  obtain ⟨hunknown, hstrict⟩ := errors_of_finish hok
  generalize hp : ({ b with columns := columns } : TableBuilder) = p
  have hunknown' : p.unknownError = none := hp ▸ hunknown
  have hstrict' : p.strictError = none := hp ▸ hstrict
  -- without columns both exports are the empty batch
  by_cases horder : b.columnOrder = []
  · rw [finish_of_no_column hunknown hstrict horder] at hok
    rw [finish_of_no_column hunknown' hstrict' (hp ▸ horder)]
    exact ⟨batch, hok, .refl batch⟩
  -- cut down to the row count, each column of the one builder promotes to that of the other
  · have hnormal : List.Forall₂ PromotesTo b.normalize.columns p.normalize.columns := by
      subst hp
      refine List.forall₂_map_left_iff.mpr (List.forall₂_map_right_iff.mpr ?_)
      exact ((List.forall₂_and_left _ _).mpr ⟨hvalid, hcolumns⟩).imp
        fun c c' h => h.2.promotes h.1
    have hupgraded := @promotes_autoDictUpgrade _ b.normalize p.normalize (by subst hp; rfl) hnormal
    have hnames : p.exportNames = b.exportNames := by
      subst hp
      rfl
    have hindex : p.fieldIndex = b.fieldIndex := by
      subst hp
      rfl
    rw [finish_eq hunknown hstrict horder hmem] at hok
    rw [finish_eq hunknown' hstrict' (by subst hp; exact horder)
      (by rw [hnames, hindex]; exact hmem), hnames, hindex]
    cases hex : exportSlots b.normalize.autoDictUpgrade.columns
        (slotsOf b.fieldIndex b.exportNames) with
    | error err =>
        rw [hex] at hok
        cases hok
    | ok out =>
        rw [hex] at hok
        obtain ⟨fields', arrays', hex', hfields, harrays, htypes⟩ :=
          @exportSlots_promotes _ _ p.normalize.autoDictUpgrade.columns _
            (fun s _ => rel_getElem? hupgraded s.2) _ _ hex
        rw [hex']
        exact tryNew_promotes hfields harrays htypes hok

end TableBuilder

end PromotedExport

end Rypipe
