import Rypipe.Spill
import Rypipe.ArrowExport
import Rypipe.ParallelExport
import Rypipe.Foundation.Assoc

/-! # Collected batches

`CollectingConsumer::finish` (`consumer.rs`): the batches a run has delivered are brought to one schema,
with the columns of all of them. A column a batch lacks is null there, and a column that is a dictionary
in one batch and plain text in another becomes plain text in all. -/

namespace Rypipe

variable [Platform]

/-! ## The union of the schemas -/

/-- One field in `Schema::try_merge`: it must have the type of the field of its name, if there is one
already. -/
def mergeField (merged : Schema) (p : String × DataType) : Except Error Schema :=
  match merged.find? fun q => q.1 == p.1 with
  | some q => if q.2 = p.2 then .ok merged else .error (.arrow "SchemaError")
  | none => .ok (merged ++ [p])

/-- `Schema::try_merge`. -/
def tryMerge (schemas : List Schema) : Except Error Schema := schemas.flatten.foldlM mergeField []

/-- Some batch has plain text under a name and some batch a dictionary (`encodings` is 3). -/
def mixedEncodings (batches : List RecordBatch) (name : String) : Bool :=
  (batches.any fun batch => batch.schema.contains (name, .utf8)) &&
    batches.any fun batch => batch.schema.contains (name, .dictionary)

/-- A field of the union: plain text where the encodings are mixed. -/
def unifiedField (batches : List RecordBatch) (p : String × DataType) : String × DataType :=
  if mixedEncodings batches p.1 then (p.1, .utf8) else p

/-- `cast`. In a merged schema only texts can have a type of their own, and plain text is then the
other. -/
def castArray (a : ArrayRef) (datatype : DataType) : Except Error ArrayRef :=
  match datatype with
  | .utf8 => .ok ⟨.utf8, a.values.map fun v => v.map fun v => .str (castUtf8 v)⟩
  | _ => .error (.arrow "CastError")

/-- The column of a batch for a field of the union. -/
def alignColumn (batch : RecordBatch) (p : String × DataType) : Except Error ArrayRef :=
  match batch.columnByName p.1 with
  | some a => if a.datatype ≠ p.2 then castArray a p.2 else .ok a
  | none => .ok (nullArray p.2 batch.rowCount)

/-- A batch over the union. -/
def alignBatch (schema : Schema) (batch : RecordBatch) : Except Error RecordBatch := do
  let columns ← schema.mapM (alignColumn batch)
  RecordBatch.tryNewWithRows schema columns batch.rowCount

/-- `CollectingConsumer::finish`. -/
def CollectingConsumer.finish (c : CollectingConsumer) : Except Error (List RecordBatch) :=
  match c.batches with
  | [] => .ok []
  | first :: _ =>
      if c.batches.all fun batch => batch.schema == first.schema then .ok c.batches
      else do
        let schema ← tryMerge (c.batches.map fun batch =>
          batch.schema.map (unifiedField c.batches))
        c.batches.mapM (alignBatch schema)

omit [Platform] in
/-- Merging fields each of which has the type of its name keeps the first of each name. -/
theorem foldlM_mergeField {types : String → DataType} {fields : Schema}
    (h : ∀ p ∈ fields, p.2 = types p.1) (seen : List String) :
    fields.foldlM mergeField (seen.eraseDups.map fun n => (n, types n)) =
      .ok ((seen ++ fields.map Prod.fst).eraseDups.map fun n => (n, types n)) := by
  induction fields generalizing seen with
  | nil =>
      rw [List.map_nil, List.append_nil]
      rfl
  | cons p fields ih =>
      obtain ⟨n, ty⟩ := p
      obtain rfl : ty = types n := h (n, ty) List.mem_cons_self
      have hstep : mergeField (seen.eraseDups.map fun n => (n, types n)) (n, types n) =
          .ok ((seen ++ [n]).eraseDups.map fun n => (n, types n)) := by
        obtain ⟨hfound, hnone⟩ := find?_typed types seen.eraseDups n
        rw [mergeField, eraseDups_concat]
        by_cases hn : n ∈ seen
        · rw [hfound (List.mem_eraseDups.mpr hn), if_pos hn]
          exact if_pos rfl
        · rw [hnone (fun h => hn (List.mem_eraseDups.mp h)), if_neg hn, List.map_append]
          rfl
      have hrest := ih (fun q hq => h q (List.mem_cons_of_mem _ hq)) (seen ++ [n])
      rw [List.append_assoc, List.singleton_append] at hrest
      rw [List.foldlM_cons, hstep, List.map_cons]
      exact hrest

/-! ## Aligned batches -/

/-- `Utf8`, as plain text or as a dictionary. -/
def DataType.isText : DataType → Bool
  | .utf8 | .dictionary => true
  | _ => false

namespace RecordBatch

/-- A batch whose schema describes its columns, each of them with a cell for every row, and where a
dictionary has texts. -/
structure Regular (batch : RecordBatch) : Prop where
  described : ∀ p ∈ batch.schema, ∃ a, batch.columnByName p.1 = some a ∧ a.datatype = p.2
  named : ∀ n a, batch.columnByName n = some a → n ∈ batch.names
  length : ∀ n a, batch.columnByName n = some a → a.values.length = batch.rowCount
  texts : ∀ n a, batch.columnByName n = some a → a.datatype = .dictionary →
    a.values.map (fun v => v.map fun v => .str (castUtf8 v)) = a.values

theorem Regular.length_cells {batch : RecordBatch} (h : batch.Regular) (n : String) :
    (batch.cells n).length = batch.rowCount := by
  rw [cells]
  cases hcol : batch.columnByName n with
  | some a => exact h.length n a hcol
  | none => exact List.length_replicate

theorem Regular.cells_of_notMem {batch : RecordBatch} (h : batch.Regular) {n : String}
    (hn : n ∉ batch.names) : batch.cells n = List.replicate batch.rowCount none := by
  rw [cells]
  cases hcol : batch.columnByName n with
  | some a => exact absurd (h.named n a hcol) hn
  | none => rfl

/-- The type of a column is in the schema. -/
theorem Regular.mem_schema {batch : RecordBatch} (h : batch.Regular) {n : String} {a : ArrayRef}
    (hcol : batch.columnByName n = some a) : (n, a.datatype) ∈ batch.schema := by
  obtain ⟨⟨m, ty⟩, hp, rfl⟩ := List.mem_map.mp (h.named n a hcol)
  obtain ⟨a', ha', rfl⟩ := h.described _ hp
  cases hcol.symm.trans ha'
  exact hp

/-- Batches whose columns of one name have one type, or are texts. -/
def Compatible (batches : List RecordBatch) : Prop :=
  ∀ b ∈ batches, ∀ b' ∈ batches, ∀ p ∈ b.schema, ∀ p' ∈ b'.schema, p.1 = p'.1 →
    p.2 = p'.2 ∨ p.2.isText = true ∧ p'.2.isText = true

/-- A batch brought to the columns of some names. -/
structure AlignedTo (names : List String) (batch aligned : RecordBatch) : Prop where
  rowCount : aligned.rowCount = batch.rowCount
  names : ∀ n, n ∈ aligned.names ↔ n ∈ names
  cells : ∀ n, aligned.cells n = batch.cells n

/-- Aligned batches have the names they are aligned to, and the cells of the batches. -/
theorem AlignedTo.of_forall₂ {names : List String} {batches aligned : List RecordBatch}
    (h : List.Forall₂ (AlignedTo names) batches aligned) :
    (∀ batch ∈ aligned, ∀ n, n ∈ batch.names ↔ n ∈ names) ∧
      ∀ n, (aligned.flatMap fun batch => batch.cells n) =
        batches.flatMap fun batch => batch.cells n := by
  induction h with
  | nil => exact ⟨fun batch hb => absurd hb List.not_mem_nil, fun _ => rfl⟩
  | cons hone _ ih =>
      refine ⟨fun batch hb => ?_, fun n => ?_⟩
      · rcases List.mem_cons.mp hb with rfl | hb
        · exact hone.names
        · exact ih.1 batch hb
      · rw [List.flatMap_cons, List.flatMap_cons, hone.cells, ih.2]

variable {batches : List RecordBatch}

omit [Platform] in
theorem eq_of_isText {ty ty' : DataType} (h : ty.isText = true) (h' : ty'.isText = true) :
    ty = ty' ∨ ty = .utf8 ∧ ty' = .dictionary ∨ ty = .dictionary ∧ ty' = .utf8 := by
  cases ty <;> cases ty' <;> simp_all [DataType.isText]

/-- The encodings are mixed as soon as two fields show it. -/
theorem mixedEncodings_of_mem {b b' : RecordBatch} (hb : b ∈ batches) (hb' : b' ∈ batches)
    {n : String} (hutf8 : (n, DataType.utf8) ∈ b.schema)
    (hdictionary : (n, DataType.dictionary) ∈ b'.schema) : mixedEncodings batches n = true := by
  rw [mixedEncodings, Bool.and_eq_true, List.any_eq_true, List.any_eq_true]
  exact ⟨⟨b, hb, List.contains_iff_mem.mpr hutf8⟩, b', hb', List.contains_iff_mem.mpr hdictionary⟩

/-- Fields of one name are one field in the union. Compatible batches agree on its type, or have it
as text and as a dictionary, and then it is text in the union. -/
theorem Compatible.unifiedField_eq (h : Compatible batches) {b b' : RecordBatch} (hb : b ∈ batches)
    (hb' : b' ∈ batches) {p p' : String × DataType} (hp : p ∈ b.schema) (hp' : p' ∈ b'.schema)
    (hname : p.1 = p'.1) : unifiedField batches p = unifiedField batches p' := by
  obtain ⟨n, ty⟩ := p
  obtain ⟨n', ty'⟩ := p'
  obtain rfl : n = n' := hname
  rw [unifiedField, unifiedField]
  by_cases hmixed : mixedEncodings batches n = true
  · rw [if_pos hmixed, if_pos hmixed]
  · rw [if_neg hmixed, if_neg hmixed]
    rcases h b hb b' hb' _ hp _ hp' rfl with heq | ⟨htext, htext'⟩
    · exact Prod.ext rfl heq
    · rcases eq_of_isText htext htext' with heq | ⟨hty, hty'⟩ | ⟨hty, hty'⟩
      · exact Prod.ext rfl heq
      · subst hty hty'
        exact absurd (mixedEncodings_of_mem hb hb' hp hp') hmixed
      · subst hty hty'
        exact absurd (mixedEncodings_of_mem hb' hb hp' hp) hmixed

/-- The union of the schemas has each name once. A field that is in both keeps its type if the types
agree; a text that is encoded in one and not in the other is met as plain text. -/
theorem Compatible.tryMerge (h : Compatible batches) :
    ∃ types : String → DataType,
      (∀ b ∈ batches, ∀ p ∈ b.schema, unifiedField batches p = (p.1, types p.1)) ∧
      Rypipe.tryMerge (batches.map fun b => b.schema.map (unifiedField batches)) =
        .ok ((batches.flatMap names).eraseDups.map fun n => (n, types n)) := by
  have hname : ∀ p, (unifiedField batches p).1 = p.1 := by
    intro p
    rw [unifiedField]
    split <;> rfl
  generalize hfields : (batches.map fun b => b.schema.map (unifiedField batches)).flatten = fields
  have hmem : ∀ q, q ∈ fields ↔ ∃ b ∈ batches, ∃ p ∈ b.schema, unifiedField batches p = q := by
    intro q
    rw [← hfields]
    simp only [List.mem_flatten, List.mem_map]
    constructor
    · rintro ⟨l, ⟨b, hb, rfl⟩, hq⟩
      obtain ⟨p, hp, rfl⟩ := List.mem_map.mp hq
      exact ⟨b, hb, p, hp, rfl⟩
    · rintro ⟨b, hb, p, hp, rfl⟩
      exact ⟨_, ⟨b, hb, rfl⟩, List.mem_map_of_mem hp⟩
  -- the type of a name is that of its first field
  let types := fun n => ((fields.find? fun q => q.1 == n).map Prod.snd).getD .utf8
  have htypes : ∀ q ∈ fields, q.2 = types q.1 := by
    intro q hq
    have hsome : (fields.find? fun r => r.1 == q.1).isSome = true :=
      List.find?_isSome.mpr ⟨q, hq, BEq.rfl⟩
    obtain ⟨r, hr⟩ := Option.isSome_iff_exists.mp hsome
    have hrmem := List.mem_of_find?_eq_some hr
    have hbeq := List.find?_some hr
    have hrname : r.1 = q.1 := eq_of_beq hbeq
    obtain ⟨b, hb, p, hp, rfl⟩ := (hmem q).mp hq
    obtain ⟨b', hb', p', hp', rfl⟩ := (hmem r).mp hrmem
    rw [hname, hname] at hrname
    have heq := h.unifiedField_eq hb' hb hp' hp hrname
    show (unifiedField batches p).2 =
      ((fields.find? fun q => q.1 == (unifiedField batches p).1).map Prod.snd).getD .utf8
    rw [hr, Option.map_some, Option.getD_some, heq]
  refine ⟨types, fun b hb p hp => ?_, ?_⟩
  · rw [← hname p, ← htypes _ ((hmem _).mpr ⟨b, hb, p, hp, rfl⟩)]
  · rw [Rypipe.tryMerge, hfields]
    have hmerged := foldlM_mergeField htypes []
    have hnames : fields.map Prod.fst = batches.flatMap names := by
      rw [← hfields, List.map_flatten, List.map_map, List.flatMap]
      congr 1
      refine List.map_congr_left fun b _ => ?_
      show (b.schema.map (unifiedField batches)).map Prod.fst = b.schema.map Prod.fst
      rw [List.map_map]
      exact List.map_congr_left fun p _ => hname p
    rw [List.nil_append, hnames] at hmerged
    exact hmerged

/-- A column for a field of the union: the cells the batch has under its name. -/
theorem Compatible.alignColumn (h : Compatible batches) {types : String → DataType}
    (htypes : ∀ b ∈ batches, ∀ p ∈ b.schema, unifiedField batches p = (p.1, types p.1))
    {b : RecordBatch} (hb : b ∈ batches) (hregular : b.Regular) (n : String) :
    Rypipe.alignColumn b (n, types n) = .ok ⟨types n, b.cells n⟩ := by
  rw [Rypipe.alignColumn, cells]
  cases hcol : b.columnByName n with
  | none => rfl
  | some a =>
      have hp := hregular.mem_schema hcol
      have hunified := htypes b hb _ hp
      dsimp only
      by_cases heq : a.datatype = types n
      · rw [if_neg (not_not.mpr heq), ← heq]
      · rw [if_pos heq]
        rw [unifiedField] at hunified
        by_cases hmixed : mixedEncodings batches n = true
        · rw [if_pos hmixed] at hunified
          have hutf8 : types n = .utf8 := (Prod.mk.inj hunified).2.symm
          obtain ⟨⟨b', hb', hother⟩, -⟩ : (∃ b' ∈ batches, (n, DataType.utf8) ∈ b'.schema) ∧ _ := by
            rw [mixedEncodings, Bool.and_eq_true, List.any_eq_true] at hmixed
            obtain ⟨⟨b', hb', hcontains⟩, hrest⟩ := hmixed
            exact ⟨⟨b', hb', List.contains_iff_mem.mp hcontains⟩, hrest⟩
          -- the column is the dictionary
          have hdictionary : a.datatype = .dictionary := by
            rcases h b hb b' hb' _ hp _ hother rfl with hsame | ⟨htext, htext'⟩
            · exact absurd (hsame.trans hutf8.symm) heq
            · rcases eq_of_isText htext htext' with hsame | ⟨hty, hty'⟩ | ⟨hty, -⟩
              · exact absurd (hsame.trans hutf8.symm) heq
              · cases hty'
              · exact hty
          rw [hutf8, castArray, hregular.texts n a hcol hdictionary]
        · rw [if_neg hmixed] at hunified
          exact absurd (Prod.mk.inj hunified).2 heq

/-- A batch over the union of the schemas: a column that it has is cast to the field's type, and one
that it lacks is made of nulls. Neither changes the number of rows. -/
theorem Compatible.alignBatch (h : Compatible batches) {types : String → DataType}
    (htypes : ∀ b ∈ batches, ∀ p ∈ b.schema, unifiedField batches p = (p.1, types p.1))
    {b : RecordBatch} (hb : b ∈ batches) (hregular : b.Regular) :
    ∃ aligned, Rypipe.alignBatch ((batches.flatMap names).eraseDups.map fun n => (n, types n)) b =
      .ok aligned ∧ AlignedTo (batches.flatMap names) b aligned := by
  generalize hnames : (batches.flatMap names).eraseDups = ns
  have hmem : ∀ n, n ∈ ns ↔ n ∈ batches.flatMap names := by
    intro n
    rw [← hnames, List.mem_eraseDups]
  -- each name of the unified schema gets the batch's column, cast or filled with nulls
  have hcolumns : (ns.map fun n => (n, types n)).mapM (Rypipe.alignColumn b) =
      .ok (ns.map fun n => ⟨types n, b.cells n⟩) := by
    have hall := List.forall₂_map_right_iff.mpr
      (List.forall₂_same.mpr fun n (_ : n ∈ ns) => (rfl : (n, types n) = (n, types n)))
    exact mapM_eq_map hall fun n _ p hp => hp ▸ h.alignColumn htypes hb hregular n
  -- and the columns all have the length of the batch
  have hnew : RecordBatch.tryNewWithRows (ns.map fun n => (n, types n))
      (ns.map fun n => ⟨types n, b.cells n⟩) b.rowCount =
        .ok ⟨ns.map fun n => (n, types n), ns.map fun n => ⟨types n, b.cells n⟩, b.rowCount⟩ := by
    rw [tryNewWithRows, if_neg (by simp), if_neg, if_neg]
    · simp
    · simp [hregular.length_cells]
  refine ⟨⟨ns.map fun n => (n, types n), ns.map fun n => ⟨types n, b.cells n⟩, b.rowCount⟩, ?_, rfl,
    fun n => ?_, fun n => ?_⟩
  · rw [Rypipe.alignBatch, hcolumns]
    exact hnew
  · rw [← hmem, RecordBatch.names, List.map_map, List.map_id'']
    exact fun m => rfl
  · rw [cells, columnByName_map]
    by_cases hn : n ∈ ns
    · have hsome : (ns.find? fun m => m == n).isSome = true :=
        List.find?_isSome.mpr ⟨n, hn, BEq.rfl⟩
      obtain ⟨m, hm⟩ := Option.isSome_iff_exists.mp hsome
      have hbeq := List.find?_some hm
      obtain rfl : m = n := eq_of_beq hbeq
      rw [hm]
      rfl
    · have hnone : ns.find? (fun m => m == n) = none := by
        rw [List.find?_eq_none]
        intro m hm hbeq
        exact hn (eq_of_beq hbeq ▸ hm)
      rw [hnone]
      refine (hregular.cells_of_notMem fun hnb => hn ?_).symm
      exact (hmem n).mpr (List.mem_flatMap.mpr ⟨b, hb, hnb⟩)

end RecordBatch

open RecordBatch (Regular Compatible AlignedTo)

/-- **Compatible batches are aligned**, each to the columns of all of them. -/
theorem CollectingConsumer.finish_aligned {c : CollectingConsumer}
    (hregular : ∀ b ∈ c.batches, b.Regular) (h : Compatible c.batches) :
    ∃ aligned, c.finish = .ok aligned ∧
      List.Forall₂ (AlignedTo (c.batches.flatMap RecordBatch.names)) c.batches aligned := by
  obtain ⟨batches⟩ := c
  dsimp only at hregular h ⊢
  cases hbatches : batches with
  | nil => exact ⟨[], rfl, .nil⟩
  | cons first rest =>
      rw [← hbatches]
      by_cases hsame : (batches.all fun batch => batch.schema == first.schema) = true
      -- batches of one schema are handed on as they are
      · have hschema : ∀ b ∈ batches, b.schema = first.schema := fun b hb =>
          eq_of_beq (List.all_eq_true.mp hsame b hb)
        have hfirst : first ∈ batches := hbatches ▸ List.mem_cons_self
        refine ⟨batches, ?_, List.forall₂_same.mpr fun b hb => ⟨rfl, fun n => ?_, fun _ => rfl⟩⟩
        · rw [finish, hbatches]
          dsimp only
          rw [← hbatches, if_pos hsame]
        · constructor
          · exact fun hn => List.mem_flatMap.mpr ⟨b, hb, hn⟩
          · intro hn
            obtain ⟨b', hb', hn⟩ := List.mem_flatMap.mp hn
            rwa [RecordBatch.names, hschema b hb, ← hschema b' hb']
      -- and others are aligned to the merged one
      · obtain ⟨types, htypes, hmerge⟩ := h.tryMerge
        obtain ⟨aligned, haligned, hall⟩ := mapM_forall₂ fun b hb =>
          h.alignBatch htypes hb (hregular b hb)
        refine ⟨aligned, ?_, hall⟩
        rw [finish, hbatches]
        dsimp only
        rw [← hbatches, if_neg hsame, hmerge]
        exact haligned

/-- A batch has the rows it is made with, also if it has no column to count them by. -/
theorem rowCount_tryNewWithRows {schema : Schema} {columns : List ArrayRef} {rows : Nat}
    {batch : RecordBatch} (hok : RecordBatch.tryNewWithRows schema columns rows = .ok batch) :
    batch.rowCount = rows := by
  rw [RecordBatch.tryNewWithRows] at hok
  split at hok
  · cases hok
  split at hok
  · cases hok
  split at hok
  · cases hok
  · cases hok
    rfl

/-- An aligned batch has the rows of the batch. A column that it lacks is filled with as many
nulls. -/
theorem rowCount_alignBatch {schema : Schema} {batch aligned : RecordBatch}
    (hok : alignBatch schema batch = .ok aligned) : aligned.rowCount = batch.rowCount := by
  rw [alignBatch] at hok
  cases hcolumns : schema.mapM (alignColumn batch) with
  | error err =>
      rw [hcolumns] at hok
      cases hok
  | ok columns =>
      rw [hcolumns] at hok
      exact rowCount_tryNewWithRows hok

/-- Aligning changes no number of rows. The batches stay in their order, each with the rows that it
had when it was collected. -/
theorem CollectingConsumer.rowCounts_finish {c : CollectingConsumer} {aligned : List RecordBatch}
    (hok : c.finish = .ok aligned) :
    aligned.map RecordBatch.rowCount = c.batches.map RecordBatch.rowCount := by
  obtain ⟨batches⟩ := c
  rw [finish] at hok
  cases hbatches : batches with
  | nil =>
      rw [hbatches] at hok
      cases hok
      rfl
  | cons first rest =>
      rw [hbatches] at hok
      dsimp only at hok ⊢
      rw [← hbatches] at hok ⊢
      by_cases hsame : (batches.all fun batch => batch.schema == first.schema) = true
      · rw [if_pos hsame] at hok
        cases hok
        rfl
      · rw [if_neg hsame] at hok
        cases hmerge : tryMerge (batches.map fun b => b.schema.map (unifiedField batches)) with
        | error err =>
            rw [hmerge] at hok
            cases hok
        | ok schema =>
            rw [hmerge] at hok
            have hall := forall₂_of_mapM hok
            clear hmerge hok hbatches hsame
            induction hall with
            | nil => rfl
            | cons hone _ ih => rw [List.map_cons, List.map_cons, rowCount_alignBatch hone, ih]

end Rypipe
