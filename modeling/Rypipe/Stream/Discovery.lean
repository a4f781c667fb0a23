import Rypipe.Plan
import Rypipe.Foundation.Slices

/-! # Schema discovery and its cache

Discovery runs a parser over the input, or over windows of a large one, against a sink that only
records field names, and freezes the names under a plan (`parallel_stream/discovery.rs`). The names
found are cached by the length and a sample of the input (`schema.rs`). -/

namespace Rypipe

namespace Discovery

universe u

/-! ## The recording sink -/

/-- `DiscoverySink::resolve` and `put_field`: a name is recorded at its first appearance. -/
def record (order : List String) (name : String) : List String :=
  if name ∈ order then order else order ++ [name]

/-- Names recorded one after another. -/
def recordAll (order names : List String) : List String := names.foldl record order

/-- What a parser reports of a chunk to a sink that wants every field and no value: the raw names of
the fields, row by row. -/
abbrev FieldNames : Type := List UInt8 → List String

/-! ## Windows of a large input -/

/-- `DiscoveryOpts::default()`. -/
def fullScanThreshold : Nat := 128 * 1024 * 1024
def windowBytes : Nat := 2 * 1024 * 1024

/-- `dynamic_window_count`. -/
def dynamicWindowCount (fileSize : Nat) : Nat :=
  if fileSize < 128 * 1024 * 1024 then 0
  else if fileSize < 1024 * 1024 * 1024 then 16
  else if fileSize < 10 * 1024 * 1024 * 1024 then 32
  else 64

/-- `dynamic_window_size`. -/
def dynamicWindowSize (fileSize : Nat) : Nat :=
  if fileSize < 1024 * 1024 * 1024 then 2 * 1024 * 1024 else 4 * 1024 * 1024

/-- The names a parser finds in a chunk, in order of appearance. -/
def scan (parser : FieldNames) (chunk : List UInt8) : List String := recordAll [] (parser chunk)

/-- The names `discover_schema` finds: in the whole input when it is small, otherwise in its windows
and its tail, and again in the whole input when these have none. -/
def discoverOrder (parser : FieldNames) (bytes : List UInt8) : List String :=
  let n := dynamicWindowCount bytes.length
  let size := dynamicWindowSize bytes.length
  if bytes.length < fullScanThreshold ∨ n = 0 then scan parser bytes
  else
    let perWindow := (List.range n).map fun i =>
      let start := bytes.length * i / n
      let stop := min (start + size) bytes.length
      if stop ≤ start then [] else scan parser (slice bytes start stop)
    let merged := perWindow.foldl recordAll []
    let merged := recordAll merged (scan parser (bytes.drop (bytes.length - size)))
    if merged.isEmpty && !bytes.isEmpty then scan parser bytes else merged

/-! ## The layout signature -/

/-- `(start..end).step_by(65536)`, each offset with the end of its piece. -/
def pieces (start stop : Nat) : List (Nat × Nat) :=
  (List.range' start ((stop - start + 65535) / 65536) 65536).map fun offset =>
    (offset, min stop (offset + 65536))

/-- `signature_chunks` with the default options. -/
def signatureChunks (len : Nat) : List (Nat × Nat) :=
  let full := len < fullScanThreshold
  let count := if full then 1 else 4
  let width := if full then len else min windowBytes len
  (List.range count).flatMap fun i =>
    let start := (len - width) * i / count
    pieces start (start + width)

/-- The pieces of the input the signature hashes. -/
def sampled (bytes : List UInt8) : List (List UInt8) :=
  (signatureChunks bytes.length).map fun r => slice bytes r.1 r.2

/-- `layout_signature`, with the hasher's result on a list of pieces. -/
def layoutSignature {H : Type u} (hash : List (List UInt8) → H) (bytes : List UInt8) : Nat × H :=
  (bytes.length, hash (sampled bytes))

/-! ## Frozen schemas -/

/-- A `FrozenSchema` with its index: the slot of each raw name, `none` for a dropped one. -/
structure Schema where
  columns : List (String × FieldType)
  index : String → Option (Option Nat)
  exact : Bool

/-- `index.insert(raw, slot)`. -/
def Schema.assign (schema : Schema) (raw : String) (slot : Option Nat) : Schema :=
  { schema with index := fun name => if name = raw then some slot else schema.index name }

/-- `FrozenSchema::resolve`. -/
def Schema.resolve (schema : Schema) (raw : String) : Option Nat := (schema.index raw).join

section Plan

variable [Platform]

/-- The next declared column of `from_plan` and `from_partial_plan`. -/
def declare (plan : ExecutionPlan) (schema : Schema) (name : String) : Schema :=
  { schema.assign name (some schema.columns.length) with
    columns := schema.columns ++ [(name, plan.columnType name)] }

/-- `FrozenSchema::from_plan`. -/
def fromPlan (names : List String) (plan : ExecutionPlan) : Schema :=
  names.foldl (declare plan) ⟨[], fun _ => none, true⟩

/-- `FrozenSchema::from_partial_plan`. -/
def fromPartialPlan (names : List String) (plan : ExecutionPlan) : Schema :=
  names.foldl (declare plan) ⟨[], fun _ => none, false⟩

/-- The next discovered name of `from_discovered`: renamed, and indexed as dropped or given a
column. -/
def discovered (plan : ExecutionPlan) (schema : Schema) (name : String) : Schema :=
  match plan.resolveField name with
  | some resolved =>
      if resolved ∈ plan.dropFields then schema.assign name none
      else
        { schema.assign name (some schema.columns.length) with
          columns := schema.columns ++ [(resolved, plan.columnType resolved)] }
  | none => schema.assign name none

/-- `FrozenSchema::from_discovered`. -/
def fromDiscovered (names : List String) (plan : ExecutionPlan) : Schema :=
  names.foldl (discovered plan) ⟨[], fun _ => none, false⟩

/-- The schema `discover_schema` makes of the names it found. -/
def freeze (order : List String) (plan : ExecutionPlan) : Schema :=
  if order.isEmpty then fromPlan [] plan else fromDiscovered order plan

end Plan

/-! ## The cache -/

/-- `SCHEMA_CACHE_CAP`. -/
def schemaCacheCap : Nat := 128

/-- `SCHEMA_CACHE`: the names found, by signature. -/
abbrev Cache (H : Type u) : Type u := AList fun _ : Nat × H => List String

section Cache

variable {H : Type u} [DecidableEq H]

/-- `insert_schema_cache`; at capacity some entry goes first, whichever the hash map lists first. -/
inductive Inserts (cache : Cache H) (key : Nat × H) (order : List String) : Cache H → Prop where
  | free (h : cache.keys.length < schemaCacheCap) : Inserts cache key order (cache.insert key order)
  | evict (h : schemaCacheCap ≤ cache.keys.length) (victim : Nat × H) (hvictim : victim ∈ cache) :
      Inserts cache key order ((cache.erase victim).insert key order)

variable [Platform]

/-- A call of `discover_schema_for_bytes`; the splitter takes no part in it. -/
structure Call where
  bytes : List UInt8
  parser : FieldNames
  plan : ExecutionPlan

/-- `discover_schema_for_bytes`: the schema, and the names it puts into the cache. -/
def discoverSchemaForBytes (hash : List (List UInt8) → H) (cache : Cache H) (call : Call) :
    Schema × Option (List String) :=
  if !call.plan.schemaOrder.isEmpty then (fromPartialPlan call.plan.schemaOrder call.plan, none)
  else
    match cache.lookup (layoutSignature hash call.bytes) with
    | some order => (fromDiscovered order call.plan, none)
    | none =>
        let order := discoverOrder call.parser call.bytes
        (freeze order call.plan, if order.isEmpty then none else some order)

/-- A call on the process's cache. -/
inductive Step (hash : List (List UInt8) → H) (cache : Cache H) (call : Call) :
    Schema → Cache H → Prop where
  | answer {schema : Schema}
      (h : discoverSchemaForBytes hash cache call = (schema, none)) : Step hash cache call schema cache
  | insert {schema : Schema} {order : List String} {cache' : Cache H}
      (h : discoverSchemaForBytes hash cache call = (schema, some order))
      (hinsert : Inserts cache (layoutSignature hash call.bytes) order cache') :
      Step hash cache call schema cache'

/-- A sequence of calls with the schemas they return. -/
inductive Session (hash : List (List UInt8) → H) :
    Cache H → List (Call × Schema) → Cache H → Prop where
  | nil (cache : Cache H) : Session hash cache [] cache
  | cons {cache cache' cache'' : Cache H} {call : Call} {schema : Schema}
      {rest : List (Call × Schema)} (hstep : Step hash cache call schema cache')
      (hrest : Session hash cache' rest cache'') : Session hash cache ((call, schema) :: rest) cache''

/-- The schema a call returns with an empty cache. -/
def Call.uncached (hash : List (List UInt8) → H) (call : Call) : Schema :=
  (discoverSchemaForBytes hash ∅ call).1

end Cache

end Discovery

end Rypipe
