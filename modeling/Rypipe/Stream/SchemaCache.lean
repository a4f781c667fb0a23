import Rypipe.Stream.Discovery
import Mathlib.Data.List.Perm.Basic

/-! # When the schema cache is transparent

A cached entry answers every later call on the same bytes, whatever its parser. Calls are transparent,
whatever their order and whatever is evicted between them, exactly when any two of them on the same
bytes find names that freeze to one schema. -/

namespace Rypipe

namespace Discovery

universe u

/-! ## Recording -/

/-- Recorded names are those there were and the new ones, without repetition. -/
theorem mem_recordAll {order names : List String} {x : String} :
    x ∈ recordAll order names ↔ x ∈ order ∨ x ∈ names := by
  induction names generalizing order with
  | nil => simp [recordAll]
  | cons name names ih =>
      have hstep : recordAll order (name :: names) = recordAll (record order name) names := rfl
      rw [hstep, ih, List.mem_cons]
      unfold record
      split
      · rename_i hmem
        constructor
        · exact fun h => h.imp_right .inr
        · rintro (h | rfl | h)
          · exact .inl h
          · exact .inl hmem
          · exact .inr h
      · rw [List.mem_append, List.mem_singleton, or_assoc]

/-- Recording names keeps the list free of repetitions, since a name that is there is not recorded
again. -/
theorem nodup_recordAll {order names : List String} (h : order.Nodup) :
    (recordAll order names).Nodup := by
  induction names generalizing order with
  | nil => exact h
  | cons name names ih =>
      apply ih
      unfold record
      split
      · exact h
      · rename_i hmem
        rw [List.nodup_append]
        refine ⟨h, List.nodup_singleton name, ?_⟩
        rintro a ha b hb rfl
        exact hmem (List.mem_singleton.mp hb ▸ ha)

/-- A scan finds each name once. -/
theorem nodup_scan (parser : FieldNames) (chunk : List UInt8) : (scan parser chunk).Nodup :=
  nodup_recordAll List.nodup_nil

/-- So does the scan of several windows, one after the other. -/
theorem nodup_foldl_recordAll {order : List String} (h : order.Nodup) (windows : List (List String)) :
    (windows.foldl recordAll order).Nodup := by
  induction windows generalizing order with
  | nil => exact h
  | cons window windows ih => exact ih (nodup_recordAll h)

/-- Discovery finds every name once. -/
theorem nodup_discoverOrder (parser : FieldNames) (bytes : List UInt8) :
    (discoverOrder parser bytes).Nodup := by
  unfold discoverOrder
  dsimp only
  split
  · exact nodup_scan parser bytes
  · split
    · exact nodup_scan parser bytes
    · exact nodup_recordAll (nodup_foldl_recordAll List.nodup_nil _)

/-! ## The signature of a small input -/

/-- Pieces of one width make up a front part of the input. -/
theorem flatMap_pieces (bytes : List UInt8) (width n : Nat) :
    (List.range' 0 n width).flatMap
        (fun offset => slice bytes offset (min bytes.length (offset + width))) =
      slice bytes 0 (min bytes.length (n * width)) := by
  induction n with
  | zero => simp
  | succ n ih =>
      rw [List.range'_concat, List.flatMap_append, ih, List.flatMap_singleton, Nat.zero_add,
        Nat.mul_comm width n]
      have hsucc : (n + 1) * width = n * width + width := Nat.succ_mul n width
      rw [hsucc]
      by_cases h : n * width ≤ bytes.length
      · rw [Nat.min_eq_right h]
        exact slice_append bytes (Nat.zero_le _) (by omega)
      · have hend : min bytes.length (n * width + width) = bytes.length := by omega
        have hmin : min bytes.length (n * width) = bytes.length := by omega
        rw [hend, hmin, slice, slice]
        have hdrop : bytes.drop (n * width) = [] := List.drop_eq_nil_of_le (by omega)
        rw [hdrop, List.take_nil, List.append_nil]

/-- The pieces hashed of a small input are the whole input, as everything is hashed below the
threshold. -/
theorem flatten_sampled {bytes : List UInt8} (h : bytes.length < fullScanThreshold) :
    (sampled bytes).flatten = bytes := by
  have hchunks : signatureChunks bytes.length = pieces 0 bytes.length := by
    unfold signatureChunks
    simp [h]
  have hflat := flatMap_pieces bytes 65536 ((bytes.length + 65535) / 65536)
  have hwhole : min bytes.length ((bytes.length + 65535) / 65536 * 65536) = bytes.length := by omega
  rw [hwhole, slice_zero_length] at hflat
  unfold sampled
  rw [hchunks]
  unfold pieces
  rw [Nat.sub_zero, List.map_map, ← List.flatMap_def]
  exact hflat

/-! ## Freezing -/

/-- Distinct names with the same members at the same positions are the same list of names. -/
theorem eq_of_idxOf_eq {names names' : List String} (h : names.Nodup) (h' : names'.Nodup)
    (hmem : ∀ x, x ∈ names ↔ x ∈ names') (hidx : ∀ x ∈ names, names.idxOf x = names'.idxOf x) :
    names = names' := by
  have hlen : names.length = names'.length := ((List.perm_ext_iff_of_nodup h h').mpr hmem).length_eq
  apply List.ext_getElem hlen
  intro i hi hi'
  have hget := List.getElem_mem hi
  have hpos := hidx _ hget
  rw [h.idxOf_getElem i hi] at hpos
  have := List.getElem_idxOf (List.idxOf_lt_length_of_mem ((hmem _).mp hget))
  simp only [← hpos] at this
  exact this.symm

section Plan

variable [Platform]

/-- The plan gives the raw name a column. -/
def kept (plan : ExecutionPlan) (name : String) : Bool := (plan.resolveField name).isSome

/-- The column of a kept raw name. -/
def columnOf (plan : ExecutionPlan) (name : String) : String × FieldType :=
  (plan.rename name, plan.columnType (plan.rename name))

/-- A name that the plan keeps gets a column after the others, and the next slot. -/
theorem discovered_of_kept {plan : ExecutionPlan} {name : String} (h : kept plan name = true)
    (schema : Schema) :
    discovered plan schema name =
      { schema.assign name (some schema.columns.length) with
        columns := schema.columns ++ [columnOf plan name] } := by
  obtain ⟨resolved, hresolved⟩ := Option.isSome_iff_exists.mp h
  obtain ⟨rfl, hdrop⟩ := ExecutionPlan.resolveField_eq_some hresolved
  unfold discovered columnOf
  rw [hresolved]
  exact if_neg hdrop

/-- A name that the plan drops gets no slot. -/
theorem discovered_of_not_kept {plan : ExecutionPlan} {name : String} (h : kept plan name = false)
    (schema : Schema) : discovered plan schema name = schema.assign name none := by
  unfold kept at h
  rw [Option.isSome_eq_false_iff, Option.isNone_iff_eq_none] at h
  unfold discovered
  rw [h]

/-- What freezing makes of distinct names: the kept ones are the columns, in order, and every
name is indexed. By induction on the names: each adds its column at the end, or an entry without
a slot. -/
theorem foldl_discovered (plan : ExecutionPlan) {names : List String} (h : names.Nodup)
    (schema : Schema) :
    names.foldl (discovered plan) schema =
      { columns := schema.columns ++ (names.filter (kept plan)).map (columnOf plan)
        index := fun x =>
          if x ∈ names then
            some (if kept plan x then
              some (schema.columns.length + (names.filter (kept plan)).idxOf x) else none)
          else schema.index x
        exact := schema.exact } := by
  induction names generalizing schema with
  | nil => simp
  | cons name names ih =>
      obtain ⟨hname, hnames⟩ := List.nodup_cons.mp h
      rw [List.foldl_cons, ih hnames]
      cases hkept : kept plan name with
      | true =>
          rw [discovered_of_kept hkept, List.filter_cons_of_pos hkept]
          congr 1
          · simp
          · funext x
            by_cases hx : x = name
            · subst hx
              simp [hname, hkept, Schema.assign]
            -- the positions of the names after a kept one move by one
            · have hcons : (name :: names.filter (kept plan)).idxOf x =
                  (names.filter (kept plan)).idxOf x + 1 :=
                List.idxOf_cons_ne _ (Ne.symm hx)
              simp only [List.mem_cons, hx, false_or, hcons, List.length_append,
                List.length_singleton, Schema.assign, if_false]
              split
              · congr 3
                omega
              · rfl
      | false =>
          rw [discovered_of_not_kept hkept, List.filter_cons_of_neg (by simp [hkept])]
          congr 1
          funext x
          by_cases hx : x = name
          · subst hx
            simp [hname, hkept, Schema.assign]
          · simp [hx, Schema.assign]

/-- The schema of distinct names: the kept ones are its columns in order, and the index finds the
place of a kept name among them. -/
theorem fromDiscovered_eq (plan : ExecutionPlan) {names : List String} (h : names.Nodup) :
    fromDiscovered names plan =
      { columns := (names.filter (kept plan)).map (columnOf plan)
        index := fun x =>
          if x ∈ names then
            some (if kept plan x then some ((names.filter (kept plan)).idxOf x) else none)
          else none
        exact := false } := by
  unfold fromDiscovered
  rw [foldl_discovered plan h]
  simp

/-- Names freeze to one schema exactly when they are the same, those the plan keeps in one order. -/
theorem fromDiscovered_eq_iff (plan : ExecutionPlan) {names names' : List String}
    (h : names.Nodup) (h' : names'.Nodup) :
    fromDiscovered names plan = fromDiscovered names' plan ↔
      names.filter (kept plan) = names'.filter (kept plan) ∧ ∀ x, x ∈ names ↔ x ∈ names' := by
  rw [fromDiscovered_eq plan h, fromDiscovered_eq plan h']
  constructor
  · intro heq
    have hindex := fun x => congrFun (congrArg Schema.index heq) x
    dsimp only at hindex
    have hmem : ∀ x, x ∈ names ↔ x ∈ names' := by
      intro x
      have hx := hindex x
      by_cases hin : x ∈ names <;> by_cases hin' : x ∈ names' <;> simp [hin, hin'] at hx ⊢
    refine ⟨?_, hmem⟩
    apply eq_of_idxOf_eq (h.filter _) (h'.filter _)
    · intro x
      rw [List.mem_filter, List.mem_filter, hmem]
    · intro x hx
      obtain ⟨hin, hkept⟩ := List.mem_filter.mp hx
      have hpos := hindex x
      rw [if_pos hin, if_pos ((hmem x).mp hin), if_pos hkept, if_pos hkept] at hpos
      exact Option.some.inj (Option.some.inj hpos)
  · rintro ⟨hfilter, hmem⟩
    simp only [hfilter, hmem]

end Plan

/-! ## Sessions -/

section Sessions

variable [Platform] {H : Type u} [DecidableEq H] {hash : List (List UInt8) → H}

/-- The names discovery finds for a call. -/
def Call.names (call : Call) : List String := discoverOrder call.parser call.bytes

/-- A call discovers each name once. -/
theorem Call.nodup_names (call : Call) : call.names.Nodup := nodup_discoverOrder _ _

/-- The second call may be answered with the names of the first: it has a `schema_order`, or reads
other bytes, or finds the same names, those its plan keeps in the same order. -/
def Compatible (call call' : Call) : Prop :=
  call.plan.schemaOrder = [] → call'.plan.schemaOrder = [] → call.bytes = call'.bytes →
    call.names ≠ [] →
    call.names.filter (kept call'.plan) = call'.names.filter (kept call'.plan) ∧
      ∀ x, x ∈ call.names ↔ x ∈ call'.names

/-- The schema of a call without the cache. -/
theorem uncached_eq {call : Call} (hash : List (List UInt8) → H) (h : call.plan.schemaOrder = []) :
    call.uncached hash = freeze call.names call.plan := by
  unfold Call.uncached discoverSchemaForBytes
  rw [h, AList.lookup_empty]
  rfl

/-- What a compatible call's names freeze to. -/
theorem fromDiscovered_eq_uncached_iff {call call' : Call} (hash : List (List UInt8) → H)
    (horder : call'.plan.schemaOrder = []) (hne : call.names ≠ []) :
    fromDiscovered call.names call'.plan = call'.uncached hash ↔
      call.names.filter (kept call'.plan) = call'.names.filter (kept call'.plan) ∧
        ∀ x, x ∈ call.names ↔ x ∈ call'.names := by
  rw [uncached_eq hash horder]
  cases hnames : call'.names with
  | nil =>
      -- without names the schema is exact, and a name of the other call is missing
      constructor
      · intro heq
        have hexact := congrArg Schema.exact heq
        rw [fromDiscovered_eq _ (call.nodup_names)] at hexact
        exact absurd hexact (by simp [freeze, fromPlan])
      · rintro ⟨-, hmem⟩
        obtain ⟨x, hx⟩ := List.exists_mem_of_ne_nil _ hne
        exact absurd ((hmem x).mp hx) (List.not_mem_nil)
  | cons name names =>
      have hfreeze : freeze (name :: names) call'.plan =
          fromDiscovered (name :: names) call'.plan := rfl
      rw [hfreeze, ← hnames]
      exact fromDiscovered_eq_iff _ call.nodup_names call'.nodup_names

/-- Every entry is what some call of `calls` found. -/
def FoundBy (hash : List (List UInt8) → H) (calls : Set Call) (cache : Cache H) : Prop :=
  ∀ key order, cache.lookup key = some order → ∃ call ∈ calls, call.plan.schemaOrder = [] ∧
    layoutSignature hash call.bytes = key ∧ call.names = order ∧ order ≠ []

/-- An empty cache has no entry to account for. -/
theorem foundBy_empty (calls : Set Call) : FoundBy hash calls ∅ := by
  intro key order h
  rw [AList.lookup_empty] at h
  cases h

omit [Platform] in
/-- An insertion keeps entries or removes them, apart from the new one. -/
theorem Inserts.lookup {cache cache' : Cache H} {key key' : Nat × H} {order order' : List String}
    (h : Inserts cache key order cache') (hlookup : cache'.lookup key' = some order') :
    (key' = key ∧ order' = order) ∨ cache.lookup key' = some order' := by
  by_cases hkey : key' = key
  · subst hkey
    left
    cases h with
    | free => simpa [eq_comm] using hlookup
    | evict => simpa [eq_comm] using hlookup
  · right
    cases h with
    | free => rwa [AList.lookup_insert_ne hkey] at hlookup
    | evict _ victim =>
        rw [AList.lookup_insert_ne hkey] at hlookup
        by_cases hvictim : key' = victim
        · rw [hvictim, AList.lookup_erase] at hlookup
          cases hlookup
        · rwa [AList.lookup_erase_ne hvictim] at hlookup

/-- What a call returns and inserts. -/
theorem discoverSchemaForBytes_cases (hash : List (List UInt8) → H) (cache : Cache H) (call : Call) :
    (call.plan.schemaOrder ≠ [] ∧
      discoverSchemaForBytes hash cache call = (call.uncached hash, none)) ∨
    (call.plan.schemaOrder = [] ∧ ∃ order,
      cache.lookup (layoutSignature hash call.bytes) = some order ∧
      discoverSchemaForBytes hash cache call = (fromDiscovered order call.plan, none)) ∨
    (call.plan.schemaOrder = [] ∧
      cache.lookup (layoutSignature hash call.bytes) = none ∧
      discoverSchemaForBytes hash cache call =
        (call.uncached hash, if call.names.isEmpty then none else some call.names)) := by
  by_cases horder : call.plan.schemaOrder = []
  · right
    have huncached := uncached_eq hash horder
    cases hlookup : cache.lookup (layoutSignature hash call.bytes) with
    | some order =>
        left
        refine ⟨horder, order, rfl, ?_⟩
        unfold discoverSchemaForBytes
        rw [horder, hlookup]
        rfl
    | none =>
        right
        refine ⟨horder, rfl, ?_⟩
        rw [huncached]
        unfold discoverSchemaForBytes
        rw [horder, hlookup]
        rfl
  · left
    refine ⟨horder, ?_⟩
    unfold Call.uncached discoverSchemaForBytes
    have hfalse : (!call.plan.schemaOrder.isEmpty) = true := by
      simp [horder]
    rw [if_pos hfalse, if_pos hfalse]

/-- A call that finds names answers the next call on its bytes. -/
theorem session_of_two {call call' : Call} (hash : List (List UInt8) → H)
    (horder : call.plan.schemaOrder = []) (horder' : call'.plan.schemaOrder = [])
    (hbytes : call.bytes = call'.bytes) (hne : call.names ≠ []) :
    ∃ cache', Session hash ∅ [(call, call.uncached hash),
      (call', fromDiscovered call.names call'.plan)] cache' := by
  -- the first call fills the cache
  have hfirst : Step hash ∅ call (call.uncached hash)
      ((∅ : Cache H).insert (layoutSignature hash call.bytes) call.names) := by
    apply Step.insert _ (.free _)
    · rcases discoverSchemaForBytes_cases hash ∅ call with ⟨hne', -⟩ | ⟨-, _, hlookup, -⟩ | ⟨-, -, heq⟩
      · exact absurd horder hne'
      · rw [AList.lookup_empty] at hlookup
        cases hlookup
      · rw [heq, if_neg (by simpa [List.isEmpty_iff] using hne)]
    · rw [AList.keys_empty]
      exact (by decide : 0 < schemaCacheCap)
  -- the second one finds its entry there
  have hsecond : Step hash ((∅ : Cache H).insert (layoutSignature hash call.bytes) call.names)
      call' (fromDiscovered call.names call'.plan)
      ((∅ : Cache H).insert (layoutSignature hash call.bytes) call.names) := by
    apply Step.answer
    unfold discoverSchemaForBytes
    rw [horder', ← hbytes, AList.lookup_insert]
    rfl
  exact ⟨_, .cons hfirst (.cons hsecond (.nil _))⟩

section Fixed

variable {calls : Set Call}
  (hsmall : ∀ call ∈ calls, call.bytes.length < fullScanThreshold)
  (hfree : ∀ call ∈ calls, ∀ call' ∈ calls, hash (sampled call.bytes) = hash (sampled call'.bytes) →
    sampled call.bytes = sampled call'.bytes)

include hsmall hfree

omit [DecidableEq H] in
/-- Without collisions a signature stands for the bytes. -/
theorem bytes_eq_of_signature {call call' : Call} (hcall : call ∈ calls) (hcall' : call' ∈ calls)
    (h : layoutSignature hash call.bytes = layoutSignature hash call'.bytes) :
    call.bytes = call'.bytes := by
  have hsampled := hfree call hcall call' hcall' (congrArg Prod.snd h)
  rw [← flatten_sampled (hsmall call hcall), ← flatten_sampled (hsmall call' hcall'), hsampled]

/-- A step of compatible calls returns the uncached schema and keeps the cache's origin. -/
theorem Step.of_compatible (hcompat : ∀ call ∈ calls, ∀ call' ∈ calls, Compatible call call')
    {cache cache' : Cache H} {call : Call} {schema : Schema} (hcall : call ∈ calls)
    (hfound : FoundBy hash calls cache) (h : Step hash cache call schema cache') :
    schema = call.uncached hash ∧ FoundBy hash calls cache' := by
  have hcases := discoverSchemaForBytes_cases hash cache call
  cases h with
  | answer h =>
      refine ⟨?_, hfound⟩
      rw [h] at hcases
      rcases hcases with ⟨-, heq⟩ | ⟨horder, order, hlookup, heq⟩ | ⟨-, -, heq⟩
      · exact congrArg Prod.fst heq
      · obtain ⟨call₀, hcall₀, horder₀, hsig, rfl, hne⟩ := hfound _ _ hlookup
        -- an entry found under the key was made by a call on the same bytes
        have hbytes := bytes_eq_of_signature hsmall hfree hcall₀ hcall hsig
        have hschema : schema = fromDiscovered call₀.names call.plan := congrArg Prod.fst heq
        rw [hschema]
        exact (fromDiscovered_eq_uncached_iff hash horder hne).mpr
          (hcompat call₀ hcall₀ call hcall horder₀ horder hbytes hne)
      · exact congrArg Prod.fst heq
  | insert h hinsert =>
      rw [h] at hcases
      rcases hcases with ⟨-, heq⟩ | ⟨-, _, -, heq⟩ | ⟨horder, -, heq⟩
      · cases heq
      · cases heq
      · refine ⟨congrArg Prod.fst heq, ?_⟩
        have hnames := congrArg Prod.snd heq
        dsimp only at hnames
        split at hnames
        · cases hnames
        · rename_i hne
          intro key order' hlookup
          -- an entry of the new cache is the one just made or an old one
          rcases hinsert.lookup hlookup with ⟨rfl, rfl⟩ | hold
          · refine ⟨call, hcall, horder, rfl, (Option.some.inj hnames).symm, ?_⟩
            rw [Option.some.inj hnames]
            simpa [List.isEmpty_iff] using hne
          · exact hfound key order' hold

/-- In a session of compatible calls every call returns its uncached schema. -/
theorem Session.of_compatible (hcompat : ∀ call ∈ calls, ∀ call' ∈ calls, Compatible call call')
    {cache cache' : Cache H} {session : List (Call × Schema)}
    (h : Session hash cache session cache') (hcalls : ∀ e ∈ session, e.1 ∈ calls)
    (hfound : FoundBy hash calls cache) : ∀ e ∈ session, e.2 = e.1.uncached hash := by
  induction h with
  | nil => nofun
  | cons hstep hrest ih =>
      obtain ⟨hschema, hfound'⟩ := hstep.of_compatible hsmall hfree hcompat
        (hcalls _ List.mem_cons_self) hfound
      intro e he
      rcases List.mem_cons.mp he with rfl | he
      · exact hschema
      · exact ih (fun e' he' => hcalls e' (List.mem_cons_of_mem _ he')) hfound' e he

/-- **The schema cache is transparent exactly for compatible calls.** Over calls on inputs below the
full-scan threshold, whose samples the hash tells apart, every session that starts with an empty cache
returns the uncached schemas if and only if any two of the calls are compatible. -/
theorem transparent_iff_compatible :
    (∀ session cache', Session hash ∅ session cache' → (∀ e ∈ session, e.1 ∈ calls) →
      ∀ e ∈ session, e.2 = e.1.uncached hash) ↔
    ∀ call ∈ calls, ∀ call' ∈ calls, Compatible call call' := by
  constructor
  · intro htransparent call hcall call' hcall' horder horder' hbytes hne
    obtain ⟨cache', hsession⟩ := session_of_two hash horder horder' hbytes hne
    have hschemas := htransparent _ _ hsession (by
      intro e he
      rcases List.mem_cons.mp he with rfl | he
      · exact hcall
      · rw [List.mem_singleton.mp he]
        exact hcall')
    apply (fromDiscovered_eq_uncached_iff hash horder' hne).mp
    exact hschemas (call', fromDiscovered call.names call'.plan) (by simp)
  · intro hcompat session cache' h hcalls
    exact h.of_compatible hsmall hfree hcompat hcalls (foundBy_empty calls)

end Fixed

end Sessions

section Examples

attribute [local instance] integerPlatform

/-- A parser of a header line with the given separator. -/
def headerNames (separator : UInt8) : FieldNames := fun bytes =>
  (bytes.splitOn separator).map fun field => String.ofList (field.map fun b => Char.ofNat b.toNat)

/-- A call on the header `a;b,c`. -/
def headerCall (separator : UInt8) : Call := ⟨[97, 59, 98, 44, 99], headerNames separator, {}⟩

/-- The second of two calls on the same bytes, with another separator, gets the columns of the
first. -/
theorem cache_not_transparent :
    ¬ ∀ session cache', Session (H := List (List UInt8)) id ∅ session cache' →
      ∀ e ∈ session, e.2 = e.1.uncached id := by
  intro h
  obtain ⟨cache', hsession⟩ :=
    @session_of_two _ _ _ (headerCall 44) (headerCall 59) id rfl rfl rfl (by decide)
  have heq := h _ _ hsession (headerCall 59, fromDiscovered (headerCall 44).names {}) (by simp [headerCall])
  exact absurd (congrArg Schema.columns heq) (by decide)

/-- A call on the same header with the same parser, whose plan drops a column. -/
def droppingCall : Call := { headerCall 44 with plan := { dropFields := ["c"] } }

/-- The second of two calls on the same bytes is answered from the cache, and its own plan is applied to
the names the first one found. -/
theorem other_plan_transparent :
    ∃ cache' schema, Session (H := List (List UInt8)) id ∅
        [(headerCall 44, (headerCall 44).uncached id), (droppingCall, schema)] cache' ∧
      schema = fromDiscovered (headerCall 44).names droppingCall.plan ∧
      schema = droppingCall.uncached id := by
  have hbytes : ∀ call ∈ ({headerCall 44, droppingCall} : Set Call),
      call.bytes = (headerCall 44).bytes ∧ call.names = (headerCall 44).names := by
    rintro call (rfl | rfl)
    · exact ⟨rfl, rfl⟩
    · exact ⟨rfl, rfl⟩
  have hsmall : ∀ call ∈ ({headerCall 44, droppingCall} : Set Call),
      call.bytes.length < fullScanThreshold := by
    intro call hcall
    rw [(hbytes call hcall).1]
    decide
  -- the two calls find the same names, and differ in their plans alone
  have hcompatible : ∀ call ∈ ({headerCall 44, droppingCall} : Set Call),
      ∀ call' ∈ ({headerCall 44, droppingCall} : Set Call), Compatible call call' := by
    intro call hcall call' hcall' _ _ _ _
    rw [(hbytes call hcall).2, (hbytes call' hcall').2]
    exact ⟨rfl, fun x => Iff.rfl⟩
  have hfree : ∀ call ∈ ({headerCall 44, droppingCall} : Set Call),
      ∀ call' ∈ ({headerCall 44, droppingCall} : Set Call),
        id (sampled call.bytes) = id (sampled call'.bytes) →
          sampled call.bytes = sampled call'.bytes := fun _ _ _ _ h => h
  obtain ⟨cache', hsession⟩ :=
    @session_of_two _ _ _ (headerCall 44) droppingCall id rfl rfl rfl (by decide)
  refine ⟨cache', _, hsession, rfl, ?_⟩
  refine (transparent_iff_compatible hsmall hfree).mpr hcompatible _ _ hsession (fun e he => ?_)
    (droppingCall, fromDiscovered (headerCall 44).names droppingCall.plan)
    (List.mem_cons_of_mem _ List.mem_cons_self)
  rcases List.mem_cons.mp he with rfl | he
  · exact .inl rfl
  · rw [List.mem_singleton.mp he]
    exact .inr rfl

end Examples

end Discovery

end Rypipe
