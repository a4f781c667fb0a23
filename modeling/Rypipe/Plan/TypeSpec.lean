import Rypipe.Plan
import Mathlib.Data.List.Basic

/-! # Type specs

`FieldType::from_str` of `plan.rs`: the spelling of a storage type, with the bracketed unit and
format of a timestamp (`parse_timestamp_spec`) and the parenthesised scale of a decimal. The grammar
of timestamp specs is stated apart (`TimestampSpec`); the parser follows it except for a format that
comes without a unit and contains a comma. -/

namespace Rypipe

/-! ## Cutting strings -/

/-- `s.strip_prefix(pre)`. -/
def stripPrefix (s pre : String) : Option String :=
  (s.toList.dropPrefix? pre.toList).map String.ofList

/-- `s.strip_suffix(suf)`. -/
def stripSuffix (s suf : String) : Option String :=
  (s.toList.dropSuffix? suf.toList).map String.ofList

/-- The characters before the first `c` and those after it. -/
def cutAt (c : Char) : List Char → Option (List Char × List Char)
  | [] => none
  | d :: cs => if d = c then some ([], cs) else (cutAt c cs).map fun p => (d :: p.1, p.2)

/-- `s.split_once(c)`. -/
def splitOnce (s : String) (c : Char) : Option (String × String) :=
  (cutAt c s.toList).map fun p => (String.ofList p.1, String.ofList p.2)

/-- `strip_prefix` finds the rest exactly where the text is the prefix followed by it. -/
theorem stripPrefix_eq_some {s pre t : String} : stripPrefix s pre = some t ↔ s = pre ++ t := by
  rw [stripPrefix, Option.map_eq_some_iff]
  constructor
  · rintro ⟨cs, hcs, rfl⟩
    obtain ⟨p, hp, heq⟩ := List.dropPrefix?_eq_some_iff.mp hcs
    rw [beq_iff_eq] at heq
    rw [← String.toList_inj, String.toList_append, String.toList_ofList, hp, heq]
  · rintro rfl
    refine ⟨t.toList, ?_, String.ofList_toList⟩
    rw [String.toList_append]
    exact List.dropPrefix?_append_of_beq _ BEq.rfl

/-- `strip_suffix` finds the rest exactly where the text is it followed by the suffix. -/
theorem stripSuffix_eq_some {s suf t : String} : stripSuffix s suf = some t ↔ s = t ++ suf := by
  rw [stripSuffix, Option.map_eq_some_iff]
  constructor
  · rintro ⟨cs, hcs, rfl⟩
    obtain ⟨p, hp, heq⟩ := List.dropSuffix?_eq_some_iff.mp hcs
    rw [beq_iff_eq] at heq
    rw [← String.toList_inj, String.toList_append, String.toList_ofList, hp, heq]
  · rintro rfl
    refine ⟨t.toList, ?_, String.ofList_toList⟩
    rw [String.toList_append]
    exact List.dropSuffix?_eq_some_iff.mpr ⟨_, rfl, BEq.rfl⟩

/-- The cut is at the first occurrence: the part before it does not have the character. -/
theorem cutAt_eq_some {c : Char} {cs before after : List Char} :
    cutAt c cs = some (before, after) ↔ cs = before ++ c :: after ∧ c ∉ before := by
  induction cs generalizing before with
  | nil => simp [cutAt]
  | cons d cs ih =>
      rw [cutAt]
      -- the text is cut at the first `c`, and never behind it
      by_cases hd : d = c
      · subst hd
        rw [if_pos rfl]
        constructor
        · intro h
          obtain ⟨rfl, rfl⟩ := Prod.mk.inj (Option.some.inj h)
          exact ⟨rfl, List.not_mem_nil⟩
        · rintro ⟨heq, hnot⟩
          cases before with
          | nil =>
              obtain ⟨-, rfl⟩ := List.cons.inj heq
              rfl
          | cons e before =>
              obtain ⟨rfl, -⟩ := List.cons.inj heq
              exact absurd List.mem_cons_self hnot
      · rw [if_neg hd, Option.map_eq_some_iff]
        constructor
        · rintro ⟨⟨first, rest⟩, hcut, heq⟩
          obtain ⟨rfl, rfl⟩ := Prod.mk.inj heq
          obtain ⟨rfl, hnot⟩ := ih.mp hcut
          refine ⟨rfl, fun hmem => ?_⟩
          exact (List.mem_cons.mp hmem).elim (fun h => hd h.symm) hnot
        · rintro ⟨heq, hnot⟩
          cases before with
          | nil => exact absurd (List.cons.inj heq).1 hd
          | cons e before =>
              obtain ⟨rfl, rfl⟩ := List.cons.inj heq
              exact ⟨(before, after), ih.mpr ⟨rfl, fun h => hnot (List.mem_cons_of_mem _ h)⟩, rfl⟩

/-- There is no cut exactly where the character does not occur. -/
theorem cutAt_eq_none {c : Char} {cs : List Char} : cutAt c cs = none ↔ c ∉ cs := by
  induction cs with
  | nil => simp [cutAt]
  | cons d cs ih =>
      rw [cutAt, List.mem_cons, not_or]
      by_cases hd : d = c
      · simp [hd]
      · rw [if_neg hd, Option.map_eq_none_iff, ih]
        exact ⟨fun h => ⟨Ne.symm hd, h⟩, And.right⟩

/-- `split_once` cuts at the first occurrence of the character, as in the standard library. -/
theorem splitOnce_eq_some {s : String} {c : Char} {before after : String} :
    splitOnce s c = some (before, after) ↔
      s = before ++ String.singleton c ++ after ∧ c ∉ before.toList := by
  rw [splitOnce, Option.map_eq_some_iff]
  constructor
  · rintro ⟨⟨first, rest⟩, hcut, heq⟩
    obtain ⟨rfl, rfl⟩ := Prod.mk.inj heq
    obtain ⟨hs, hnot⟩ := cutAt_eq_some.mp hcut
    rw [String.toList_ofList]
    refine ⟨?_, hnot⟩
    rw [← String.toList_inj, hs]
    simp
  · rintro ⟨rfl, hnot⟩
    refine ⟨(before.toList, after.toList), cutAt_eq_some.mpr ⟨?_, hnot⟩, ?_⟩
    · simp
    · rw [String.ofList_toList, String.ofList_toList]

/-- `split_once` fails exactly on texts without the character. -/
theorem splitOnce_eq_none {s : String} {c : Char} : splitOnce s c = none ↔ c ∉ s.toList := by
  rw [splitOnce, Option.map_eq_none_iff, cutAt_eq_none]

/-! ## Parsing -/

namespace FieldType

/-- The unit of a timestamp, by its spelling. -/
def parseTimeUnit (s : String) : Option TimeUnit :=
  if s = "" ∨ s = "us" ∨ s = "µs" then some .microsecond
  else if s = "s" then some .second
  else if s = "ms" then some .millisecond
  else if s = "ns" then some .nanosecond
  else none

/-- What follows a comma in the brackets of a timestamp: `format=` and a format. -/
def parseFormatOption (opt : String) : Option String := do
  let fmt ← stripPrefix opt "format="
  if fmt = "" then none else some fmt

/-- The unit and the format in the brackets of a timestamp. -/
def parseTimestampBody (inner : String) : Option (String × Option String) :=
  match splitOnce inner ',' with
  | some (unit, opt) => (parseFormatOption opt).map fun fmt => (unit, some fmt)
  | none =>
      match stripPrefix inner "format=" with
      | some fmt => if fmt = "" then none else some ("us", some fmt)
      | none => some (inner, none)

/-- `parse_timestamp_spec`. -/
def parseTimestampSpec (s : String) : Option FieldType := do
  let rest ← stripPrefix s "timestamp"
  if rest = "" then some (.timestamp .microsecond none)
  else do
    let opened ← stripPrefix rest "["
    let inner ← stripSuffix opened "]"
    let (unitStr, format) ← parseTimestampBody inner
    let unit ← parseTimeUnit unitStr
    some (.timestamp unit (format.bind fun f => if f = "" then none else some f))

/-- The loop of `parse::<u8>()`, with the texts of its errors. -/
def parseU8Digits (acc : Nat) : List Char → Except String Nat
  | [] => .ok acc
  | c :: cs =>
      if !c.isDigit then .error "invalid digit found in string"
      else if 255 < 10 * acc + (c.toNat - 48) then .error "number too large to fit in target type"
      else parseU8Digits (10 * acc + (c.toNat - 48)) cs

/-- `s.parse::<u8>()`. -/
def parseU8 (s : String) : Except String Nat :=
  match s.toList with
  | [] => .error "cannot parse integer from empty string"
  | ['+'] => .error "invalid digit found in string"
  | '+' :: cs => parseU8Digits 0 cs
  | cs => parseU8Digits 0 cs

/-- The scale of a decimal, in parentheses. -/
def parseDecimalSpec (s : String) : Except String FieldType :=
  match (stripPrefix s "decimal128(").bind (stripSuffix · ")") with
  | none => .error ("invalid decimal128 spec: " ++ debugStr s)
  | some inner =>
      match parseU8 inner with
      | .error e => .error ("invalid decimal128 scale: " ++ e)
      | .ok scale =>
          if 38 < scale then .error ("decimal128 scale exceeds 38: " ++ toString scale)
          else .ok (.decimal128 scale)

/-- `FieldType::from_str`. -/
def fromStr (s : String) : Except String FieldType :=
  if s = "string" then .ok .string
  else if s = "int64" then .ok .int64
  else if s = "float64" then .ok .float64
  else if s = "bool" ∨ s = "boolean" then .ok .boolean
  else if s = "dictionary" then .ok .dictionary
  else if s = "date32" then .ok .date32
  else if startsWith s "timestamp" then
    match parseTimestampSpec s with
    | some ty => .ok ty
    | none => .error ("invalid timestamp spec: " ++ debugStr s)
  else if s = "decimal128" then .ok (.decimal128 18)
  else if startsWith s "decimal128(" then parseDecimalSpec s
  else .error ("unknown field type: " ++ debugStr s)

/-! ## The grammar of timestamps -/

/-- The spellings of the units, with the units they denote. -/
def unitSpellings : List (String × TimeUnit) :=
  [("", .microsecond), ("us", .microsecond), ("µs", .microsecond), ("s", .second),
    ("ms", .millisecond), ("ns", .nanosecond)]

/-- A timestamp spec, its unit and its format. -/
inductive TimestampSpec : String → TimeUnit → Option String → Prop
  | bare : TimestampSpec "timestamp" .microsecond none
  | unit {u : String} {unit : TimeUnit} (hu : (u, unit) ∈ unitSpellings) :
      TimestampSpec ("timestamp[" ++ u ++ "]") unit none
  | unitFormat {u f : String} {unit : TimeUnit} (hu : (u, unit) ∈ unitSpellings) (hf : f ≠ "") :
      TimestampSpec ("timestamp[" ++ u ++ ",format=" ++ f ++ "]") unit (some f)
  | format {f : String} (hf : f ≠ "") :
      TimestampSpec ("timestamp[format=" ++ f ++ "]") .microsecond (some f)

/-- The spellings of the units are the entries of the table, each with its unit. -/
theorem parseTimeUnit_eq_some {s : String} {unit : TimeUnit} :
    parseTimeUnit s = some unit ↔ (s, unit) ∈ unitSpellings := by
  rw [parseTimeUnit]
  constructor
  · intro h
    split at h
    · next hs =>
      obtain rfl := Option.some.inj h
      rcases hs with rfl | rfl | rfl <;> decide
    split at h
    · next hs =>
      obtain rfl := Option.some.inj h
      exact hs ▸ by decide
    split at h
    · next hs =>
      obtain rfl := Option.some.inj h
      exact hs ▸ by decide
    split at h
    · next hs =>
      obtain rfl := Option.some.inj h
      exact hs ▸ by decide
    · cases h
  · intro h
    simp only [unitSpellings, List.mem_cons, Prod.mk.injEq, List.not_mem_nil, or_false] at h
    rcases h with ⟨rfl, rfl⟩ | ⟨rfl, rfl⟩ | ⟨rfl, rfl⟩ | ⟨rfl, rfl⟩ | ⟨rfl, rfl⟩ | ⟨rfl, rfl⟩ <;>
      decide

/-- No spelling of a unit contains a comma or is a format. -/
theorem plain_of_spelling {u : String} {unit : TimeUnit} (hu : (u, unit) ∈ unitSpellings) :
    ',' ∉ u.toList ∧ ∀ f, u ≠ "format=" ++ f := by
  have hall : ∀ p ∈ unitSpellings, ',' ∉ p.1.toList ∧ stripPrefix p.1 "format=" = none := by decide
  refine ⟨(hall _ hu).1, fun f hf => ?_⟩
  have hnone := (hall _ hu).2
  rw [stripPrefix_eq_some.mpr hf] at hnone
  cases hnone

/-- The option of a format is `format=` and a text that is not empty. -/
theorem parseFormatOption_eq_some {opt f : String} :
    parseFormatOption opt = some f ↔ opt = "format=" ++ f ∧ f ≠ "" := by
  rw [parseFormatOption, Option.bind_eq_bind, Option.bind_eq_some_iff]
  constructor
  · rintro ⟨fmt, hfmt, h⟩
    split at h
    · cases h
    · next hne =>
      obtain rfl := Option.some.inj h
      exact ⟨stripPrefix_eq_some.mp hfmt, hne⟩
  · rintro ⟨hopt, hne⟩
    exact ⟨f, stripPrefix_eq_some.mpr hopt, if_neg hne⟩

/-- A unit and a format, cut at the comma between them. -/
theorem append_comma (u f : String) :
    u ++ ",format=" ++ f = u ++ String.singleton ',' ++ ("format=" ++ f) := by
  rw [← String.toList_inj]
  simp

/-- **What the brackets of a timestamp parse to**: a text before the first comma with the format
after it, a format alone without a comma, or a text alone. -/
theorem parseTimestampBody_eq_some {inner u : String} {format : Option String} :
    parseTimestampBody inner = some (u, format) ↔
      (∃ f, inner = u ++ ",format=" ++ f ∧ ',' ∉ u.toList ∧ f ≠ "" ∧ format = some f) ∨
      (∃ f, inner = "format=" ++ f ∧ ',' ∉ inner.toList ∧ f ≠ "" ∧ u = "us" ∧ format = some f) ∨
      (inner = u ∧ ',' ∉ u.toList ∧ (∀ f, u ≠ "format=" ++ f) ∧ format = none) := by
  rw [parseTimestampBody]
  cases hsplit : splitOnce inner ',' with
  | some p =>
      -- with a comma the part behind it must be a format option
      obtain ⟨before, after⟩ := p
      obtain ⟨rfl, hbefore⟩ := splitOnce_eq_some.mp hsplit
      have hmem : ',' ∈ (before ++ String.singleton ',' ++ after).toList := by simp
      dsimp only
      rw [Option.map_eq_some_iff]
      constructor
      · rintro ⟨f, hf, heq⟩
        obtain ⟨rfl, rfl⟩ := Prod.mk.inj heq
        obtain ⟨rfl, hne⟩ := parseFormatOption_eq_some.mp hf
        exact .inl ⟨f, (append_comma before f).symm, hbefore, hne, rfl⟩
      · rintro (⟨f, heq, hu, hne, rfl⟩ | ⟨f, -, hnot, -⟩ | ⟨rfl, hnot, -⟩)
        · rw [append_comma] at heq
          have hparts := splitOnce_eq_some.mpr ⟨heq, hu⟩
          rw [hsplit] at hparts
          obtain ⟨rfl, rfl⟩ := Prod.mk.inj (Option.some.inj hparts)
          exact ⟨f, parseFormatOption_eq_some.mpr ⟨rfl, hne⟩, rfl⟩
        · exact absurd hmem hnot
        · exact absurd hmem hnot
  | none =>
      have hnot := splitOnce_eq_none.mp hsplit
      dsimp only
      cases hstrip : stripPrefix inner "format=" with
      | some fmt =>
          -- without a comma the body is a format on its own, in microseconds
          have hinner := stripPrefix_eq_some.mp hstrip
          dsimp only
          constructor
          · intro h
            split at h
            · cases h
            · next hne =>
              obtain ⟨rfl, rfl⟩ := Prod.mk.inj (Option.some.inj h)
              exact .inr (.inl ⟨fmt, hinner, hnot, hne, rfl, rfl⟩)
          · rintro (⟨f, heq, -⟩ | ⟨f, heq, -, hne, rfl, rfl⟩ | ⟨rfl, -, hplain, -⟩)
            · rw [heq, append_comma] at hnot
              exact absurd (by simp) hnot
            · rw [stripPrefix_eq_some.mpr heq] at hstrip
              obtain rfl := Option.some.inj hstrip
              exact if_neg hne
            · exact absurd hinner (hplain fmt)
      | none =>
          dsimp only
          constructor
          · intro h
            obtain ⟨rfl, rfl⟩ := Prod.mk.inj (Option.some.inj h)
            refine .inr (.inr ⟨rfl, hnot, fun f hf => ?_, rfl⟩)
            rw [stripPrefix_eq_some.mpr hf] at hstrip
            cases hstrip
          · rintro (⟨f, heq, -⟩ | ⟨f, heq, -⟩ | ⟨rfl, -, -, rfl⟩)
            · rw [heq, append_comma] at hnot
              exact absurd (by simp) hnot
            · rw [stripPrefix_eq_some.mpr heq] at hstrip
              cases hstrip
            · rfl

/-- The spec with the given text in its brackets. -/
def bracketed (inner : String) : String := "timestamp[" ++ inner ++ "]"

/-- What stands in the brackets of `timestamp[…]` can be read back. -/
theorem bracketed_injective {inner inner' : String} (h : bracketed inner = bracketed inner') :
    inner = inner' := by
  have hlists := congrArg String.toList h
  simp only [bracketed, String.toList_append, List.append_cancel_right_eq,
    List.append_cancel_left_eq] at hlists
  exact String.toList_inj.mp hlists

/-- A format alone stands in brackets. -/
theorem bracketed_format (f : String) :
    "timestamp[format=" ++ f ++ "]" = bracketed ("format=" ++ f) := by
  rw [bracketed, ← String.toList_inj]
  simp

/-- So do a unit and a format. -/
theorem bracketed_unitFormat (u f : String) :
    "timestamp[" ++ u ++ ",format=" ++ f ++ "]" = bracketed (u ++ ",format=" ++ f) := by
  rw [bracketed, ← String.toList_inj]
  simp

/-- A format in brackets is not empty. -/
theorem ne_empty_of_body {inner u f : String} (h : parseTimestampBody inner = some (u, some f)) :
    f ≠ "" := by
  rcases parseTimestampBody_eq_some.mp h with ⟨g, -, -, hne, heq⟩ | ⟨g, -, -, hne, -, heq⟩ |
    ⟨-, -, -, heq⟩
  · exact Option.some.inj heq ▸ hne
  · exact Option.some.inj heq ▸ hne
  · cases heq

/-- A spec parses if it is bare, or if its brackets parse and name a unit. The prefix and the
bracket are stripped first, and a text after the closing bracket is refused. -/
theorem parseTimestampSpec_eq_some {s : String} {ty : FieldType} :
    parseTimestampSpec s = some ty ↔ (s = "timestamp" ∧ ty = .timestamp .microsecond none) ∨
      ∃ inner u format unit, s = bracketed inner ∧ parseTimestampBody inner = some (u, format) ∧
        (u, unit) ∈ unitSpellings ∧ ty = .timestamp unit format := by
  -- the filter of empty formats drops none
  have hfilter : ∀ {inner u format}, parseTimestampBody inner = some (u, format) →
      (format.bind fun f => if f = "" then none else some f) = format := by
    intro inner u format hbody
    cases format with
    | none => rfl
    | some f => exact if_neg (ne_empty_of_body hbody)
  rw [parseTimestampSpec, Option.bind_eq_bind, Option.bind_eq_some_iff]
  constructor
  · rintro ⟨rest, hrest, h⟩
    have hs := stripPrefix_eq_some.mp hrest
    split at h
    · next hempty =>
      obtain rfl := Option.some.inj h
      subst hempty
      exact .inl ⟨hs, rfl⟩
    · simp only [Option.bind_eq_bind, Option.bind_eq_some_iff, Prod.exists] at h
      obtain ⟨opened, hopened, inner, hinner, u, format, hbody, unit, hunit, h⟩ := h
      obtain rfl := Option.some.inj h
      refine .inr ⟨inner, u, format, unit, ?_, hbody, parseTimeUnit_eq_some.mp hunit, ?_⟩
      · rw [hs, stripPrefix_eq_some.mp hopened, stripSuffix_eq_some.mp hinner, bracketed,
          ← String.toList_inj]
        simp
      · rw [hfilter hbody]
  · rintro (⟨rfl, rfl⟩ | ⟨inner, u, format, unit, rfl, hbody, hunit, rfl⟩)
    · exact ⟨"", stripPrefix_eq_some.mpr rfl, rfl⟩
    · refine ⟨"[" ++ inner ++ "]", stripPrefix_eq_some.mpr ?_, ?_⟩
      · rw [bracketed, ← String.toList_inj]
        simp
      · rw [if_neg (by rw [← String.toList_inj]; simp)]
        simp only [Option.bind_eq_bind, Option.bind_eq_some_iff, Prod.exists]
        refine ⟨inner ++ "]", stripPrefix_eq_some.mpr (String.append_assoc), inner,
          stripSuffix_eq_some.mpr rfl, u, format, hbody, unit, parseTimeUnit_eq_some.mpr hunit, ?_⟩
        rw [hfilter hbody]

/-- A format without a unit that contains a comma. -/
def CommaFormat (s : String) : Prop :=
  ∃ f : String, s = "timestamp[format=" ++ f ++ "]" ∧ ',' ∈ f.toList

/-- In brackets, the format that is lost is one with a comma and without a unit before it. -/
theorem commaFormat_bracketed {inner : String} :
    CommaFormat (bracketed inner) ↔ ∃ f : String, inner = "format=" ++ f ∧ ',' ∈ f.toList := by
  constructor
  · rintro ⟨f, heq, hmem⟩
    rw [bracketed_format] at heq
    exact ⟨f, bracketed_injective heq, hmem⟩
  · rintro ⟨f, rfl, hmem⟩
    exact ⟨f, (bracketed_format f).symm, hmem⟩

/-- The bare word `timestamp` has no format to lose. -/
theorem not_commaFormat_bare : ¬ CommaFormat "timestamp" := by
  rintro ⟨f, heq, -⟩
  have hlength := congrArg (fun t : String => t.toList.length) heq
  simp at hlength

/-- What comes before the first comma of a format with a comma is no unit. -/
theorem not_commaFormat_of_unit {u f : String} {unit : TimeUnit} (hu : (u, unit) ∈ unitSpellings) :
    ¬ CommaFormat (bracketed (u ++ ",format=" ++ f)) := by
  rw [commaFormat_bracketed]
  rintro ⟨g, heq, hmem⟩
  obtain ⟨hnot, hplain⟩ := plain_of_spelling hu
  cases hsplit : splitOnce g ',' with
  | none => exact splitOnce_eq_none.mp hsplit hmem
  | some p =>
      obtain ⟨before, after⟩ := p
      obtain ⟨rfl, hbefore⟩ := splitOnce_eq_some.mp hsplit
      have hleft : splitOnce (u ++ ",format=" ++ f) ',' = some (u, "format=" ++ f) :=
        splitOnce_eq_some.mpr ⟨append_comma u f, hnot⟩
      have hright : splitOnce ("format=" ++ (before ++ String.singleton ',' ++ after)) ',' =
          some ("format=" ++ before, after) := by
        refine splitOnce_eq_some.mpr ⟨?_, ?_⟩
        · rw [String.append_assoc, String.append_assoc, String.append_assoc]
        · simpa using hbefore
      rw [heq, hright, Option.some.injEq, Prod.mk.injEq] at hleft
      exact hplain before hleft.1.symm

/-- **The parser follows the grammar**, except for formats with commas that come without a unit. The
body is cut at its first comma, so a format that comes alone and has a comma is taken for a unit and
refused. -/
theorem parseTimestampSpec_eq_some_iff {s : String} {ty : FieldType} :
    parseTimestampSpec s = some ty ↔
      ∃ unit format, TimestampSpec s unit format ∧ ¬ CommaFormat s ∧
        ty = .timestamp unit format := by
  rw [parseTimestampSpec_eq_some]
  constructor
  · rintro (⟨rfl, rfl⟩ | ⟨inner, u, format, unit, rfl, hbody, hunit, rfl⟩)
    · exact ⟨_, _, .bare, not_commaFormat_bare, rfl⟩
    · rcases parseTimestampBody_eq_some.mp hbody with ⟨f, rfl, -, hne, rfl⟩ |
        ⟨f, rfl, hnot, hne, rfl, rfl⟩ | ⟨rfl, -, hplain, rfl⟩
      · refine ⟨unit, some f, ?_, not_commaFormat_of_unit hunit, rfl⟩
        rw [← bracketed_unitFormat]
        exact .unitFormat hunit hne
      -- a format on its own has the unit `us`
      · have hmicro : unit = .microsecond := by
          simpa [unitSpellings] using hunit
        subst hmicro
        refine ⟨.microsecond, some f, ?_, ?_, rfl⟩
        · rw [← bracketed_format]
          exact .format hne
        · rw [commaFormat_bracketed]
          rintro ⟨g, heq, hmem⟩
          rw [heq] at hnot
          exact absurd (by simp [hmem]) hnot
      · refine ⟨unit, none, .unit hunit, ?_, rfl⟩
        rw [commaFormat_bracketed]
        rintro ⟨g, heq, -⟩
        exact hplain g heq
  · rintro ⟨unit, format, hspec, hcomma, rfl⟩
    cases hspec with
    | bare => exact .inl ⟨rfl, rfl⟩
    | @unit u unit hu =>
        obtain ⟨hnot, hplain⟩ := plain_of_spelling hu
        exact .inr ⟨u, u, none, unit, rfl,
          parseTimestampBody_eq_some.mpr (.inr (.inr ⟨rfl, hnot, hplain, rfl⟩)), hu, rfl⟩
    | @unitFormat u f unit hu hf =>
        exact .inr ⟨_, u, some f, unit, bracketed_unitFormat u f,
          parseTimestampBody_eq_some.mpr (.inl ⟨f, rfl, (plain_of_spelling hu).1, hf, rfl⟩), hu,
          rfl⟩
    | @format f hf =>
        have hnot : ',' ∉ ("format=" ++ f).toList := by
          -- a comma in a lone format is cut at, which `CommaFormat` excludes
          intro hmem
          exact hcomma ⟨f, rfl, by simpa using hmem⟩
        exact .inr ⟨_, "us", some f, .microsecond, bracketed_format f,
          parseTimestampBody_eq_some.mpr (.inr (.inl ⟨f, rfl, hnot, hf, rfl, rfl⟩)), by decide, rfl⟩

/-- A string that starts with `timestamp` is parsed as a timestamp. -/
theorem fromStr_eq_ok {s : String} (h : startsWith s "timestamp" = true) {ty : FieldType} :
    fromStr s = .ok ty ↔ parseTimestampSpec s = some ty := by
  have hne : ∀ t : String, startsWith t "timestamp" = false → s ≠ t := by
    rintro t ht rfl
    rw [h] at ht
    cases ht
  rw [fromStr, if_neg (hne _ rfl), if_neg (hne _ rfl), if_neg (hne _ rfl),
    if_neg (by exact not_or.mpr ⟨hne _ rfl, hne _ rfl⟩), if_neg (hne _ rfl), if_neg (hne _ rfl),
    if_pos h]
  cases parseTimestampSpec s with
  | some ty' => simp
  | none => simp

/-- **The grammar of timestamps.** `FieldType::from_str` gives a string that starts with `timestamp`
the meaning that the grammar gives it, exactly unless it is a format without a unit that contains a
comma. -/
theorem timestamp_grammar_iff (s : String) (h : startsWith s "timestamp" = true) :
    (∀ ty, fromStr s = .ok ty ↔
      ∃ unit format, TimestampSpec s unit format ∧ ty = .timestamp unit format) ↔
    ¬ ∃ f : String, s = "timestamp[format=" ++ f ++ "]" ∧ ',' ∈ f.toList := by
  constructor
  · rintro hgrammar ⟨f, hs, hmem⟩
    have hne : f ≠ "" := by
      rintro rfl
      cases hmem
    have hspec : TimestampSpec s .microsecond (some f) := hs ▸ .format hne
    have hok := (hgrammar _).mpr ⟨_, _, hspec, rfl⟩
    obtain ⟨unit, format, -, hnot, -⟩ :=
      parseTimestampSpec_eq_some_iff.mp ((fromStr_eq_ok h).mp hok)
    exact hnot ⟨f, hs, hmem⟩
  · intro hnot ty
    rw [fromStr_eq_ok h, parseTimestampSpec_eq_some_iff]
    constructor
    · rintro ⟨unit, format, hspec, -, rfl⟩
      exact ⟨unit, format, hspec, rfl⟩
    · rintro ⟨unit, format, hspec, rfl⟩
      exact ⟨unit, format, hspec, hnot, rfl⟩

/-- A format with a comma after a unit. -/
theorem timestamp_grammar_unit : fromStr "timestamp[ms,format=%d, %H]" =
    .ok (.timestamp .millisecond (some "%d, %H")) := by
  have hspec : TimestampSpec ("timestamp[" ++ "ms" ++ ",format=" ++ "%d, %H" ++ "]") .millisecond
      (some "%d, %H") := .unitFormat (by decide) (by decide)
  refine ((timestamp_grammar_iff "timestamp[ms,format=%d, %H]" (by decide)).mpr ?_ _).mpr
    ⟨_, _, hspec, rfl⟩
  rintro ⟨f, heq, -⟩
  have hlists := congrArg String.toList heq
  simp at hlists

/-- The same format without a unit is refused. What stands before its comma is taken for the unit,
and what follows is no format option. -/
theorem timestamp_grammar_falls : ¬ ∀ s, startsWith s "timestamp" = true → ∀ ty,
    fromStr s = .ok ty ↔
      ∃ unit format, TimestampSpec s unit format ∧ ty = .timestamp unit format := by
  intro h
  have hspec : TimestampSpec "timestamp[format=%d, %H]" .microsecond (some "%d, %H") :=
    .format (f := "%d, %H") (by decide)
  have hok := (h _ (by decide) _).mpr ⟨_, _, hspec, rfl⟩
  have herr : fromStr "timestamp[format=%d, %H]" =
      .error ("invalid timestamp spec: " ++ debugStr "timestamp[format=%d, %H]") := by
    rfl
  rw [herr] at hok
  cases hok

end FieldType

end Rypipe
