import Rypipe.Decoder
import Mathlib.Order.Bounds.Basic

/-! # The record-boundary search finds the least boundary

What a boundary newline is, said of the lines of the input, and that the search returns the position
after the least one from its start on, wherever that start lies. -/

namespace Rypipe

/-! ## Byte search -/

/-- `memchr` finds the first position of the byte: it is there, and at no position before. -/
theorem memchr_eq_some {byte : UInt8} {bytes : List UInt8} {i : Nat} :
    memchr byte bytes = some i ↔ bytes[i]? = some byte ∧ ∀ j < i, bytes[j]? ≠ some byte := by
  unfold memchr
  rw [List.findIdx?_eq_some_iff_getElem]
  constructor
  · rintro ⟨hi, hbyte, hbefore⟩
    refine ⟨by simpa [hi] using hbyte, ?_⟩
    intro j hj hjb
    have hlt : j < bytes.length := hj.trans hi
    rw [List.getElem?_eq_getElem hlt] at hjb
    exact hbefore j hj (by simpa using Option.some.inj hjb)
  · rintro ⟨hbyte, hbefore⟩
    obtain ⟨hi, hget⟩ := List.getElem?_eq_some_iff.mp hbyte
    refine ⟨hi, by simpa using hget, ?_⟩
    intro j hj hjb
    apply hbefore j hj
    rw [List.getElem?_eq_getElem (hj.trans hi)]
    simpa using hjb

/-- `memchr` fails exactly when the byte does not occur anywhere in the slice. -/
theorem memchr_eq_none {byte : UInt8} {bytes : List UInt8} :
    memchr byte bytes = none ↔ ∀ i : Nat, bytes[i]? ≠ some byte := by
  unfold memchr
  rw [List.findIdx?_eq_none_iff]
  constructor
  · intro h i hi
    have := h byte (List.mem_of_getElem? hi)
    simp at this
  · intro h b hb
    obtain ⟨i, hi, rfl⟩ := List.getElem_of_mem hb
    have hne := h i
    rw [List.getElem?_eq_getElem hi] at hne
    simpa using hne

/-- The search from a position on, with the answer relative to that position as in the code. -/
theorem memchr_drop_eq_some {byte : UInt8} {bytes : List UInt8} {pos rel : Nat} :
    memchr byte (bytes.drop pos) = some rel ↔ bytes[pos + rel]? = some byte ∧
      ∀ j, pos ≤ j → j < pos + rel → bytes[j]? ≠ some byte := by
  rw [memchr_eq_some, List.getElem?_drop]
  refine and_congr_right fun _ => ⟨?_, ?_⟩
  · intro h j hj hlt
    have hne := h (j - pos) (by omega)
    rwa [List.getElem?_drop, Nat.add_sub_cancel' hj] at hne
  · intro h j hj
    rw [List.getElem?_drop]
    exact h (pos + j) (by omega) (by omega)

/-- The search from a position on fails when the byte does not occur there. -/
theorem memchr_drop_eq_none {byte : UInt8} {bytes : List UInt8} {pos : Nat} :
    memchr byte (bytes.drop pos) = none ↔ ∀ j, pos ≤ j → bytes[j]? ≠ some byte := by
  rw [memchr_eq_none]
  constructor
  · intro h j hj
    have hne := h (j - pos)
    rwa [List.getElem?_drop, Nat.add_sub_cancel' hj] at hne
  · intro h i
    rw [List.getElem?_drop]
    exact h (pos + i) (Nat.le_add_right pos i)

/-- `memrchr` finds the last position of the byte: it is there, and at no position after. -/
theorem memrchr_eq_some {byte : UInt8} {bytes : List UInt8} {i : Nat}
    (h : memrchr byte bytes = some i) :
    bytes[i]? = some byte ∧ ∀ j, i < j → bytes[j]? ≠ some byte := by
  obtain ⟨k, hk, rfl⟩ := Option.map_eq_some_iff.mp h
  obtain ⟨hbyte, hbefore⟩ := memchr_eq_some.mp hk
  have hlt : k < bytes.length := by
    simpa using (List.getElem?_eq_some_iff.mp hbyte).1
  constructor
  · rwa [List.getElem?_reverse hlt] at hbyte
  · intro j hj hjb
    have hjlt : j < bytes.length := (List.getElem?_eq_some_iff.mp hjb).1
    apply hbefore (bytes.length - 1 - j) (by omega)
    rw [List.getElem?_reverse (by omega)]
    have : bytes.length - 1 - (bytes.length - 1 - j) = j := by omega
    rw [this, hjb]

/-- `memrchr` fails when the byte does not occur. -/
theorem memrchr_eq_none {byte : UInt8} {bytes : List UInt8} (h : memrchr byte bytes = none) (i : Nat) :
    bytes[i]? ≠ some byte := by
  intro hi
  have hlt : i < bytes.length := (List.getElem?_eq_some_iff.mp hi).1
  have hnone := memchr_eq_none.mp (Option.map_eq_none_iff.mp h) (bytes.length - 1 - i)
  rw [List.getElem?_reverse (by omega)] at hnone
  have : bytes.length - 1 - (bytes.length - 1 - i) = i := by omega
  rw [this] at hnone
  exact hnone hi

/-! ## Lines -/

/-- The newline at `nl` ends the line that starts at `start`. -/
structure IsLine (bytes : List UInt8) (start nl : Nat) : Prop where
  ends : bytes[nl]? = some newline
  le : start ≤ nl
  starts : start = 0 ∨ bytes[start - 1]? = some newline
  clean : ∀ i, start ≤ i → i < nl → bytes[i]? ≠ some newline

/-- A newline ends one line. -/
theorem IsLine.unique {bytes : List UInt8} {start start' nl : Nat} (h : IsLine bytes start nl)
    (h' : IsLine bytes start' nl) : start = start' := by
  have key : ∀ {s s' : Nat}, IsLine bytes s nl → IsLine bytes s' nl → s' ≤ s := by
    intro s s' hs hs'
    by_contra hlt
    rcases hs'.starts with h0 | hnl
    · omega
    · exact hs.clean (s' - 1) (by omega) (by have := hs'.le; omega) hnl
  exact le_antisymm (key h' h) (key h h')

/-- `lineStart` is the start of the line: the position after the last newline before it, or 0, with
no newline in between. -/
theorem isLine_lineStart {bytes : List UInt8} {nl : Nat} (h : bytes[nl]? = some newline) :
    IsLine bytes (lineStart bytes nl) nl := by
  unfold lineStart
  cases hr : memrchr newline (bytes.take nl) with
  | none =>
      refine ⟨h, Nat.zero_le _, .inl rfl, ?_⟩
      intro i _ hi
      have hne := memrchr_eq_none hr i
      rwa [List.getElem?_take_of_lt hi] at hne
  | some p =>
      obtain ⟨hp, hafter⟩ := memrchr_eq_some hr
      have hlt : p < nl := by
        have := (List.getElem?_eq_some_iff.mp hp).1
        rw [List.length_take] at this
        omega
      rw [List.getElem?_take_of_lt hlt] at hp
      refine ⟨h, hlt, .inr hp, ?_⟩
      intro i hi hinl
      have hne := hafter i hi
      rwa [List.getElem?_take_of_lt hinl] at hne

/-- The line of a newline is the one that starts at `lineStart`. -/
theorem isLine_iff {bytes : List UInt8} {start nl : Nat} (h : bytes[nl]? = some newline) :
    IsLine bytes start nl ↔ start = lineStart bytes nl := by
  constructor
  · exact fun hline => hline.unique (isLine_lineStart h)
  · rintro rfl
    exact isLine_lineStart h

/-- The last line start before a newline: a byte in front of it that is a newline starts the line
there. -/
theorem lineStart_of_prev {bytes : List UInt8} {start nl : Nat} (h : bytes[nl]? = some newline)
    (hle : start ≤ nl) (hprev : bytes[start - 1]? = some newline)
    (hclean : ∀ i, start ≤ i → i < nl → bytes[i]? ≠ some newline) : lineStart bytes nl = start :=
  ((isLine_iff h).mp ⟨h, hle, .inr hprev, hclean⟩).symm

/-! ## Continued newlines -/

/-- Exactly `k` backslashes end at `stop`. -/
structure BackslashesEnd (bytes : List UInt8) (stop k : Nat) : Prop where
  le : k ≤ stop
  all : ∀ i, stop - k ≤ i → i < stop → bytes[i]? = some backslash
  maximal : k = stop ∨ bytes[stop - k - 1]? ≠ some backslash

/-- `backslashRun` counts the backslashes that end at a position. -/
theorem backslashesEnd_backslashRun (bytes : List UInt8) (stop : Nat) :
    BackslashesEnd bytes stop (backslashRun bytes stop) := by
  induction stop with
  | zero => exact ⟨le_rfl, fun i _ hi => absurd hi (Nat.not_lt_zero i), .inl rfl⟩
  | succ stop ih =>
      unfold backslashRun
      split
      · rename_i hlast
        have hle := ih.le
        refine ⟨by omega, ?_, ?_⟩
        · intro i hi hlt
          by_cases heq : i = stop
          · rwa [heq]
          · exact ih.all i (by omega) (by omega)
        · have hsub : stop + 1 - (backslashRun bytes stop + 1) = stop - backslashRun bytes stop := by
            omega
          rw [hsub]
          exact ih.maximal.imp_left (congrArg (· + 1))
      · rename_i hlast
        refine ⟨Nat.zero_le _, fun i hi hlt => absurd hlt (by omega), .inr hlast⟩

/-- The number of backslashes that end at a position is unique, since the byte before them is no
backslash. -/
theorem BackslashesEnd.unique {bytes : List UInt8} {stop k k' : Nat}
    (h : BackslashesEnd bytes stop k) (h' : BackslashesEnd bytes stop k') : k = k' := by
  have key : ∀ {a b : Nat}, BackslashesEnd bytes stop a → BackslashesEnd bytes stop b → b ≤ a := by
    intro a b ha hb
    by_contra hlt
    have hle := hb.le
    rcases ha.maximal with heq | hne
    · omega
    · exact hne (hb.all (stop - a - 1) (by omega) (by omega))
  exact le_antisymm (key h' h) (key h h')

/-- The newline at `nl` is continued: an odd number of backslashes, or the continuation character,
stands in front of it or of its carriage return. -/
def IsContinued (bytes : List UInt8) (continuation : Option UInt8) (nl : Nat) : Prop :=
  if continuation = some backslash then
    ∃ k, BackslashesEnd bytes (contentEnd bytes nl) k ∧ k % 2 = 1
  else
    0 < contentEnd bytes nl ∧ ∃ character, continuation = some character ∧
      bytes[contentEnd bytes nl - 1]? = some character

/-- The closure `continued` decides `IsContinued` at newlines: it counts the backslashes before the
line end, or looks for the continuation byte. -/
theorem continued_iff {bytes : List UInt8} (continuation : Option UInt8) {nl : Nat}
    (h : bytes[nl]? = some newline) :
    continued bytes continuation nl = true ↔ IsContinued bytes continuation nl := by
  unfold continued IsContinued
  cases continuation with
  | none => simp
  | some character =>
      by_cases hback : character = backslash
      · subst hback
        have hrun := backslashesEnd_backslashRun bytes (contentEnd bytes nl)
        have hiff : (∃ k, BackslashesEnd bytes (contentEnd bytes nl) k ∧ k % 2 = 1) ↔
            backslashRun bytes (contentEnd bytes nl) % 2 = 1 := by
          constructor
          · rintro ⟨k, hk, hodd⟩
            rwa [hrun.unique hk]
          · exact fun hodd => ⟨_, hrun, hodd⟩
        simp only [Option.any_some, if_true, hiff]
        unfold isContinuedNewline
        split
        · rename_i hpos
          -- no backslash stands before the first byte
          have hzero : nl = 0 := hpos.resolve_right (not_not.mpr h)
          subst hzero
          simp [contentEnd, backslashRun]
        · exact beq_iff_eq
      · have hne : some character ≠ some backslash := fun heq => hback (Option.some.inj heq)
        simp [hback]

/-- `continued` fails at newlines that are not continued. -/
theorem continued_eq_false {bytes : List UInt8} (continuation : Option UInt8) {nl : Nat}
    (h : bytes[nl]? = some newline) :
    continued bytes continuation nl = false ↔ ¬ IsContinued bytes continuation nl := by
  rw [← continued_iff continuation h, Bool.not_eq_true]

/-! ## Boundaries -/

section Boundary

variable (bytes : List UInt8) (continuation : Option UInt8) (commentPrefixes : List (List UInt8))
  (blankLineMode : Bool)

/-- The text of a line starts with a comment prefix. -/
def IsComment (start nl : Nat) : Prop :=
  ∃ pre ∈ commentPrefixes, pre <+: slice bytes start nl

/-- The newline at `nl` ends an empty line (or one of a carriage return) after a line that is neither
a comment nor continued. -/
def EndsBlankLine (nl : Nat) : Prop :=
  ∃ start previous, IsLine bytes start nl ∧
    (slice bytes start nl = [] ∨ slice bytes start nl = [carriageReturn]) ∧
    0 < start ∧ IsLine bytes previous (start - 1) ∧
    ¬ IsComment bytes commentPrefixes previous (start - 1) ∧
    ¬ IsContinued bytes continuation (start - 1)

/-- The newline at `nl` is a record boundary. -/
structure IsBoundary (nl : Nat) : Prop where
  ends : bytes[nl]? = some newline
  notContinued : ¬ IsContinued bytes continuation nl
  notComment : ∀ start, IsLine bytes start nl → ¬ IsComment bytes commentPrefixes start nl
  blank : blankLineMode = true → EndsBlankLine bytes continuation commentPrefixes nl

variable {bytes continuation commentPrefixes blankLineMode}

theorem startsWithAny_iff {start nl : Nat} :
    startsWithAny commentPrefixes (slice bytes start nl) = true ↔
      IsComment bytes commentPrefixes start nl := by
  simp only [startsWithAny, IsComment, List.any_eq_true, List.isPrefixOf_iff_prefix]

theorem not_isComment_of_isEmpty (h : commentPrefixes.isEmpty = true) (start nl : Nat) :
    ¬ IsComment bytes commentPrefixes start nl := by
  rintro ⟨pre, hpre, -⟩
  rw [List.isEmpty_iff.mp h] at hpre
  cases hpre

/-- The text of a line that ends where it starts, or after one carriage return. -/
theorem slice_eq_nil_iff {start nl : Nat} (hle : start ≤ nl) (hnl : nl ≤ bytes.length) :
    slice bytes start nl = [] ↔ start = nl := by
  rw [← List.length_eq_zero_iff, length_slice bytes hnl]
  omega

theorem slice_eq_carriageReturn_iff {start nl : Nat} (hle : start ≤ nl) (hnl : nl ≤ bytes.length) :
    slice bytes start nl = [carriageReturn] ↔
      nl = start + 1 ∧ bytes[start]? = some carriageReturn := by
  constructor
  · intro h
    have hlen := congrArg List.length h
    rw [length_slice bytes hnl, List.length_singleton] at hlen
    refine ⟨by omega, ?_⟩
    have hget := getElem?_slice bytes (s := start) (e := nl) (i := 0) (by omega)
    rw [h, Nat.add_zero] at hget
    exact hget.symm
  · rintro ⟨rfl, hcr⟩
    apply List.ext_getElem?
    intro i
    cases i with
    | zero =>
        rw [getElem?_slice bytes (by omega), Nat.add_zero, hcr]
        rfl
    | succ i =>
        rw [List.getElem?_eq_none, List.getElem?_eq_none]
        · simp
        · rw [length_slice bytes hnl]
          omega

/-- A blank line's content ends where it starts, also when it consists of a carriage return. -/
theorem contentEnd_of_blank {nl : Nat} (h : bytes[nl]? = some newline)
    (hpos : 0 < lineStart bytes nl)
    (hblank : slice bytes (lineStart bytes nl) nl = [] ∨
      slice bytes (lineStart bytes nl) nl = [carriageReturn]) :
    contentEnd bytes nl = lineStart bytes nl := by
  have hline := isLine_lineStart h
  have hnl : nl ≤ bytes.length := (List.getElem?_eq_some_iff.mp h).1.le
  have hprev := hline.starts.resolve_left (by omega)
  rw [slice_eq_nil_iff hline.le hnl, slice_eq_carriageReturn_iff hline.le hnl] at hblank
  unfold contentEnd
  rcases hblank with heq | ⟨heq, hcr⟩
  · rw [heq] at hprev
    rw [heq, if_neg]
    rintro ⟨-, hcr⟩
    rw [hprev] at hcr
    exact absurd (Option.some.inj hcr) (by decide)
  · have hsub : nl - 1 = lineStart bytes nl := by omega
    rw [hsub, if_pos ⟨by omega, hcr⟩]

/-- What the first blank-line test sees: the content end lies behind a newline exactly when the line
is empty or a carriage return, and not the first line. -/
theorem contentEnd_behind_newline_iff {nl : Nat} (h : bytes[nl]? = some newline) :
    (contentEnd bytes nl ≠ 0 ∧ bytes[contentEnd bytes nl - 1]? = some newline) ↔
      0 < lineStart bytes nl ∧ (slice bytes (lineStart bytes nl) nl = [] ∨
        slice bytes (lineStart bytes nl) nl = [carriageReturn]) := by
  have hline := isLine_lineStart h
  have hnl : nl ≤ bytes.length := (List.getElem?_eq_some_iff.mp h).1.le
  constructor
  · rintro ⟨hne, hprev⟩
    rw [slice_eq_nil_iff hline.le hnl, slice_eq_carriageReturn_iff hline.le hnl]
    by_cases hcr : 0 < nl ∧ bytes[nl - 1]? = some carriageReturn
    · rw [contentEnd, if_pos hcr] at hne hprev
      have hstart : lineStart bytes nl = nl - 1 := by
        apply lineStart_of_prev h (by omega) hprev
        intro i hi hlt
        have : i = nl - 1 := by omega
        rw [this, hcr.2]
        decide
      rw [hstart]
      exact ⟨by omega, .inr ⟨by omega, hcr.2⟩⟩
    · rw [contentEnd, if_neg hcr] at hne hprev
      have hstart : lineStart bytes nl = nl :=
        lineStart_of_prev h le_rfl hprev fun i hi hlt => absurd hlt (by omega)
      rw [hstart]
      exact ⟨by omega, .inl rfl⟩
  · rintro ⟨hpos, hblank⟩
    rw [contentEnd_of_blank h hpos hblank]
    exact ⟨by omega, hline.starts.resolve_left (by omega)⟩

/-- The blank-line condition at the computed line starts, in the form in which the loop tests it. -/
theorem endsBlankLine_iff {nl : Nat} (h : bytes[nl]? = some newline) :
    EndsBlankLine bytes continuation commentPrefixes nl ↔
      (0 < lineStart bytes nl ∧ (slice bytes (lineStart bytes nl) nl = [] ∨
        slice bytes (lineStart bytes nl) nl = [carriageReturn])) ∧
      ¬ IsContinued bytes continuation (lineStart bytes nl - 1) ∧
      ¬ IsComment bytes commentPrefixes (lineStart bytes (lineStart bytes nl - 1))
        (lineStart bytes nl - 1) := by
  constructor
  · rintro ⟨start, previous, hline, hblank, hpos, hprevious, hcomment, hcont⟩
    rw [isLine_iff hprevious.ends] at hprevious
    rw [isLine_iff h] at hline
    subst hline hprevious
    exact ⟨⟨hpos, hblank⟩, hcont, hcomment⟩
  · rintro ⟨⟨hpos, hblank⟩, hcont, hcomment⟩
    have hline := isLine_lineStart h
    have hprev := hline.starts.resolve_left (by omega)
    exact ⟨_, _, hline, hblank, hpos, isLine_lineStart hprev, hcomment, hcont⟩

/-- The boundary condition at the computed line start: not continued, no comment line, and in
blank-line mode the end of a blank line. -/
theorem isBoundary_iff {nl : Nat} (h : bytes[nl]? = some newline) :
    IsBoundary bytes continuation commentPrefixes blankLineMode nl ↔
      ¬ IsContinued bytes continuation nl ∧
      ¬ IsComment bytes commentPrefixes (lineStart bytes nl) nl ∧
      (blankLineMode = true → EndsBlankLine bytes continuation commentPrefixes nl) := by
  constructor
  · intro hb
    exact ⟨hb.notContinued, hb.notComment _ (isLine_lineStart h), hb.blank⟩
  · rintro ⟨hcont, hcomment, hblank⟩
    refine ⟨h, hcont, ?_, hblank⟩
    intro start hline
    rwa [(isLine_iff h).mp hline]

/-- The tests of the loop decide whether a newline is a boundary. Each test of the code is matched
with a clause of `IsBoundary`: a continuation mark before the newline, and a blank or comment line
after it. -/
theorem stopsAt_iff {nl : Nat} (h : bytes[nl]? = some newline) :
    stopsAt bytes continuation commentPrefixes blankLineMode nl = true ↔
      IsBoundary bytes continuation commentPrefixes blankLineMode nl := by
  rw [isBoundary_iff h, ← continued_eq_false continuation h]
  unfold stopsAt
  -- a continued line ends no record in either mode
  cases hcont : continued bytes continuation nl with
  | true => simp
  | false =>
      cases blankLineMode with
      | false =>
          cases hempty : commentPrefixes.isEmpty with
          | true =>
              have : ¬ IsComment bytes _ (lineStart bytes nl) nl := not_isComment_of_isEmpty hempty _ _
              simp [this]
          | false => simp [← startsWithAny_iff]
      | true =>
          -- in blank line mode the line before the blank ones is asked about its comment prefix
          -- and its continuation
          rw [endsBlankLine_iff h]
          by_cases hbehind : contentEnd bytes nl ≠ 0 ∧
              bytes[contentEnd bytes nl - 1]? = some newline
          · obtain ⟨hpos, hblank⟩ := (contentEnd_behind_newline_iff h).mp hbehind
            have hstop := contentEnd_of_blank h hpos hblank
            have hprev := hbehind.2
            rw [hstop] at hprev
            rw [← continued_eq_false continuation hprev]
            simp only [← startsWithAny_iff]
            cases hempty : commentPrefixes.isEmpty with
            | true =>
                have hcomment : ∀ line, startsWithAny commentPrefixes line = false := by
                  intro line
                  rw [List.isEmpty_iff.mp hempty]
                  rfl
                simp [hstop, hprev, hpos, hpos.ne', hblank, hcomment]
            | false => simp [hstop, hprev, hpos, hpos.ne', hblank]
          · have hfirst : (contentEnd bytes nl == 0 ||
                bytes[contentEnd bytes nl - 1]? != some newline) = true := by
              rcases not_and_or.mp hbehind with hzero | hne
              · simp [not_not.mp hzero]
              · simp [hne]
            rw [contentEnd_behind_newline_iff h] at hbehind
            simp [hfirst, hbehind]

/-! ## The search -/

/-- `r` is the answer of a search for boundaries from `pos` on: the position after the least boundary,
or `none` without one. -/
def IsAnswer (bytes : List UInt8) (continuation : Option UInt8)
    (commentPrefixes : List (List UInt8)) (blankLineMode : Bool) (pos : Nat) : Option Nat → Prop
  | some r => ∃ nl, r = nl + 1 ∧
      IsLeast {nl | pos ≤ nl ∧ IsBoundary bytes continuation commentPrefixes blankLineMode nl} nl
  | none => ∀ nl, pos ≤ nl → ¬ IsBoundary bytes continuation commentPrefixes blankLineMode nl

/-- Without a boundary in between, a later search has the same answer. -/
theorem IsAnswer.of_skip {pos pos' : Nat} {r : Option Nat}
    (h : IsAnswer bytes continuation commentPrefixes blankLineMode pos' r) (hle : pos ≤ pos')
    (hskip : ∀ nl, pos ≤ nl → nl < pos' →
      ¬ IsBoundary bytes continuation commentPrefixes blankLineMode nl) :
    IsAnswer bytes continuation commentPrefixes blankLineMode pos r := by
  have hlater : ∀ nl, pos ≤ nl →
      IsBoundary bytes continuation commentPrefixes blankLineMode nl → pos' ≤ nl := by
    intro nl hnl hboundary
    by_contra hlt
    exact hskip nl hnl (by omega) hboundary
  cases r with
  | none => exact fun nl hnl hboundary => h nl (hlater nl hnl hboundary) hboundary
  | some r =>
      obtain ⟨nl, hr, ⟨hge, hboundary⟩, hleast⟩ := h
      refine ⟨nl, hr, ⟨hle.trans hge, hboundary⟩, ?_⟩
      rintro nl' ⟨hge', hboundary'⟩
      exact hleast ⟨hlater nl' hge' hboundary', hboundary'⟩

/-- A newline found first and accepted is the answer. -/
theorem isAnswer_of_first {pos nl : Nat} (hle : pos ≤ nl)
    (hbefore : ∀ j, pos ≤ j → j < nl → bytes[j]? ≠ some newline)
    (hboundary : IsBoundary bytes continuation commentPrefixes blankLineMode nl) :
    IsAnswer bytes continuation commentPrefixes blankLineMode pos (some (nl + 1)) := by
  refine ⟨nl, rfl, ⟨hle, hboundary⟩, ?_⟩
  rintro nl' ⟨hge, hboundary'⟩
  by_contra hlt
  exact hbefore nl' hge (by omega) hboundary'.ends

/-- Nothing to find without a newline. -/
theorem isAnswer_none {pos : Nat} (h : ∀ j, pos ≤ j → bytes[j]? ≠ some newline) :
    IsAnswer bytes continuation commentPrefixes blankLineMode pos none :=
  fun nl hnl hboundary => h nl hnl hboundary.ends

/-- The loop answers the search, when its bound covers the bytes that are left. -/
theorem isAnswer_boundaryLoop {fuel pos : Nat} (hfuel : bytes.length ≤ pos + fuel) :
    IsAnswer bytes continuation commentPrefixes blankLineMode pos
      (boundaryLoop bytes continuation commentPrefixes blankLineMode fuel pos) := by
  induction fuel generalizing pos with
  | zero =>
      apply isAnswer_none
      intro j hj
      rw [List.getElem?_eq_none (by omega)]
      simp
  | succ fuel ih =>
      unfold boundaryLoop
      cases hfind : memchr newline (bytes.drop pos) with
      | none => exact isAnswer_none (memchr_drop_eq_none.mp hfind)
      | some rel =>
          obtain ⟨hnl, hbefore⟩ := memchr_drop_eq_some.mp hfind
          by_cases hstop : stopsAt bytes continuation commentPrefixes blankLineMode (pos + rel)
          · simp only [hstop, if_true]
            exact isAnswer_of_first (Nat.le_add_right pos rel) hbefore ((stopsAt_iff hnl).mp hstop)
          · simp only [hstop, if_false, Bool.false_eq_true]
            apply (ih (by omega)).of_skip (by omega)
            intro nl hge hlt hboundary
            by_cases heq : nl = pos + rel
            · exact hstop ((stopsAt_iff hnl).mpr (heq ▸ hboundary))
            · exact hbefore nl hge (by omega) hboundary.ends

/-- Without continuations, comments and blank-line mode every newline is a boundary. -/
theorem isBoundary_of_plain {nl : Nat} (h : bytes[nl]? = some newline) :
    IsBoundary bytes none [] false nl := by
  refine ⟨h, ?_, fun start _ => not_isComment_of_isEmpty rfl start nl, nofun⟩
  rintro ⟨-, character, hnone, -⟩
  cases hnone

/-- `find_next_record_boundary` answers the search: the position after the least boundary, or `none`
if there is none. The shortcuts before the loop return what the loop would. -/
theorem isAnswer_findNextRecordBoundary (bytes : List UInt8) (start : Nat)
    (continuation : Option UInt8) (commentPrefixes : List (List UInt8)) (blankLineMode : Bool) :
    IsAnswer bytes continuation commentPrefixes blankLineMode start
      (findNextRecordBoundary bytes start continuation commentPrefixes blankLineMode) := by
  unfold findNextRecordBoundary
  split
  · rename_i hplain
    obtain ⟨⟨rfl, rfl⟩, rfl⟩ : (continuation = none ∧ commentPrefixes = []) ∧
        blankLineMode = false := by simpa using hplain
    split
    · apply isAnswer_none
      intro j hj
      rw [List.getElem?_eq_none (by omega)]
      simp
    · cases hfind : memchr newline (bytes.drop start) with
      | none => exact isAnswer_none (memchr_drop_eq_none.mp hfind)
      | some rel =>
          obtain ⟨hnl, hbefore⟩ := memchr_drop_eq_some.mp hfind
          exact isAnswer_of_first (Nat.le_add_right start rel) hbefore (isBoundary_of_plain hnl)
  · exact isAnswer_boundaryLoop (Nat.le_add_left _ _)

/-- A search has one answer, since the least boundary is unique. -/
theorem IsAnswer.unique {pos : Nat} {r r' : Option Nat}
    (h : IsAnswer bytes continuation commentPrefixes blankLineMode pos r)
    (h' : IsAnswer bytes continuation commentPrefixes blankLineMode pos r') : r = r' := by
  cases r with
  | none =>
      cases r' with
      | none => rfl
      | some _ =>
          obtain ⟨nl, -, ⟨hge, hboundary⟩, -⟩ := h'
          exact absurd hboundary (h nl hge)
  | some _ =>
      obtain ⟨nl, rfl, hleast⟩ := h
      cases r' with
      | none => exact absurd hleast.1.2 (h' nl hleast.1.1)
      | some _ =>
          obtain ⟨nl', rfl, hleast'⟩ := h'
          rw [hleast.unique hleast']

/-- A search from anywhere before the boundary found has the same answer. -/
theorem IsAnswer.from_later {pos pos' r : Nat}
    (h : IsAnswer bytes continuation commentPrefixes blankLineMode pos (some r)) (hle : pos ≤ pos')
    (hlt : pos' < r) :
    IsAnswer bytes continuation commentPrefixes blankLineMode pos' (some r) := by
  obtain ⟨nl, rfl, ⟨-, hboundary⟩, hleast⟩ := h
  refine ⟨nl, rfl, ⟨Nat.le_of_lt_succ hlt, hboundary⟩, ?_⟩
  rintro nl' ⟨hge', hboundary'⟩
  exact hleast ⟨hle.trans hge', hboundary'⟩

/-- **The search returns the position after the least boundary from its start on**, or `none` when
there is none. Searches that start between a start and its result agree, and the newline before a
result is not continued. -/
theorem findNextRecordBoundary_least (bytes : List UInt8) (start : Nat)
    (continuation : Option UInt8) (commentPrefixes : List (List UInt8)) (blankLineMode : Bool) :
    (∀ r, findNextRecordBoundary bytes start continuation commentPrefixes blankLineMode = some r ↔
      ∃ nl, r = nl + 1 ∧ IsLeast {nl | start ≤ nl ∧
        IsBoundary bytes continuation commentPrefixes blankLineMode nl} nl) ∧
    (findNextRecordBoundary bytes start continuation commentPrefixes blankLineMode = none ↔
      ∀ nl, start ≤ nl → ¬ IsBoundary bytes continuation commentPrefixes blankLineMode nl) ∧
    ∀ r, findNextRecordBoundary bytes start continuation commentPrefixes blankLineMode = some r →
      (∀ start', start ≤ start' → start' < r →
        findNextRecordBoundary bytes start' continuation commentPrefixes blankLineMode = some r) ∧
      ¬ IsContinued bytes continuation (r - 1) := by
  have hanswer :=
    isAnswer_findNextRecordBoundary bytes start continuation commentPrefixes blankLineMode
  refine ⟨fun r => ⟨fun h => ?_, fun h => ?_⟩, ⟨fun h => ?_, fun h => ?_⟩, fun r h => ⟨?_, ?_⟩⟩
  · rwa [h] at hanswer
  · exact @IsAnswer.unique _ _ _ _ _ _ (some r) hanswer h
  · rwa [h] at hanswer
  · exact @IsAnswer.unique _ _ _ _ _ _ none hanswer h
  · intro start' hle hlt
    rw [h] at hanswer
    exact (isAnswer_findNextRecordBoundary bytes start' _ _ _).unique (hanswer.from_later hle hlt)
  · rw [h] at hanswer
    obtain ⟨nl, rfl, ⟨-, hboundary⟩, -⟩ := hanswer
    exact hboundary.notContinued

/-- A comment line, two records: the search from the start skips the comment. -/
example : findNextRecordBoundary ("# comment\nfirst\nsecond\n".toList.map (UInt8.ofNat ·.toNat)) 0 none
    [[35]] false = some 16 := by decide

/-- A continued line is not cut; the blank line after it is no boundary either. -/
example : findNextRecordBoundary ("a\\\n\nb\n\nc".toList.map (UInt8.ofNat ·.toNat)) 0
    (some backslash) [] true = some 7 := by decide

end Boundary

end Rypipe
