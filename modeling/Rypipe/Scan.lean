import Rypipe.Decoder.Boundary
import Rypipe.Foundation.Quoted
import Mathlib.Tactic.IntervalCases

/-! # Scanning a delimited field

`find2` and `scan_delimited_field` of `scan/mod.rs`. A field ends after its first delimiter outside
quotes; the scan returns the position after that delimiter or after the first closing quote,
whichever comes first, and so finds the end of a field with quotes only where the closing quote is
the last byte of the input. -/

namespace Rypipe

/-! ## The functions -/

/-- `memchr::memchr2(a, b, bytes)`: the first position of either byte. -/
def memchr2 (a b : UInt8) (bytes : List UInt8) : Option Nat :=
  bytes.findIdx? fun c => c == a || c == b

/-- `find2`. -/
def find2 (hay : List UInt8) (start : Nat) (a b : UInt8) : Option (Nat × UInt8) :=
  if hay[start]? = some a then some (start, a)
  else if hay[start]? = some b then some (start, b)
  else (memchr2 a b (hay.drop start)).bind fun p =>
    hay[start + p]?.map fun c => (start + p, c)

/-- The `while` loop of `scan_delimited_field`: the position after the closing quote, from a position
inside the quoted region. -/
def skipQuoted (bytes : List UInt8) (quote : UInt8) (pos : Nat) : Nat :=
  match _h : memchr quote (bytes.drop pos) with
  | none => bytes.length
  | some rel =>
      -- a doubled quote is skipped
      if bytes[pos + rel + 1]? = some quote then skipQuoted bytes quote (pos + rel + 2)
      else pos + rel + 1
termination_by bytes.length - pos
decreasing_by
  have hquote := (memchr_drop_eq_some.mp _h).1
  have hlt := (List.getElem?_eq_some_iff.mp hquote).1
  omega

/-- `scan_delimited_field`. -/
def scanDelimitedField (bytes : List UInt8) (start : Nat) (delimiter quote : UInt8) : Nat :=
  if bytes.length ≤ start then bytes.length
  else
    match find2 bytes start delimiter quote with
    | some (rel, b) => if b = quote then skipQuoted bytes quote (rel + 1) else rel + 1
    | none => bytes.length

/-! ## The end of a field -/

/-- `stop` is the position after the first one from `start` on that has the property, or the length
of the input when none has. -/
def PastFirst (P : Nat → Prop) (bytes : List UInt8) (start stop : Nat) : Prop :=
  ∃ r, Least P start r ∧ stop = (r.map (· + 1)).getD bytes.length

/-- An unquoted delimiter of the field that begins at `start`: it lies outside every quoted section,
where a doubled quote inside a section does not end it. -/
def Unquoted (bytes : List UInt8) (start : Nat) (delimiter quote : UInt8) : Nat → Prop :=
  Free (· == quote) bytes start delimiter

/-- The quote that closes a quoted section of the field. -/
def ClosingQuote (bytes : List UInt8) (start : Nat) (quote : UInt8) : Nat → Prop :=
  Closing (· == quote) bytes start

variable {bytes : List UInt8} {start : Nat} {delimiter quote : UInt8}

/-- Positions without the property before the first are skipped. -/
theorem PastFirst.skip {P : Nat → Prop} {a m stop : Nat} (ham : a ≤ m) (hskip : NoneIn P a m)
    (h : PastFirst P bytes m stop) : PastFirst P bytes a stop := by
  obtain ⟨r, hr, rfl⟩ := h
  exact ⟨r, hr.skip ham hskip, rfl⟩

/-- The first position of either byte. The result says which of the two it is, and neither of them
is before it. -/
theorem find2_eq_some {a b c : UInt8} {p : Nat} (h : find2 bytes start a b = some (p, c)) :
    start ≤ p ∧ bytes[p]? = some c ∧ (c = a ∨ c = b) ∧
      NoneIn (fun i => bytes[i]? = some a ∨ bytes[i]? = some b) start p := by
  unfold find2 at h
  split at h
  · rename_i ha
    cases h
    exact ⟨Nat.le_refl _, ha, .inl rfl, noneIn_self _ _⟩
  · split at h
    · rename_i hb
      cases h
      exact ⟨Nat.le_refl _, hb, .inr rfl, noneIn_self _ _⟩
    · obtain ⟨rel, hrel, hbyte⟩ := Option.bind_eq_some_iff.mp h
      obtain ⟨c', hc', heq⟩ := Option.map_eq_some_iff.mp hbyte
      cases heq
      obtain ⟨hlt, heither, hbefore⟩ := List.findIdx?_eq_some_iff_getElem.mp hrel
      rw [List.getElem_drop] at heither
      obtain ⟨hp, rfl⟩ := List.getElem?_eq_some_iff.mp hc'
      refine ⟨Nat.le_add_right _ _, hc', by simpa using heither, ?_⟩
      intro i hi hip hor
      have hne := hbefore (i - start) (by omega)
      simp only [List.getElem_drop, Nat.add_sub_cancel' hi] at hne
      apply hne
      rw [List.getElem?_eq_getElem (by omega)] at hor
      simpa using hor

/-- Neither byte occurs from the start on. The search then has no result, as there is no least
position of one. -/
theorem find2_eq_none {a b : UInt8} (h : find2 bytes start a b = none) :
    Least (fun i => bytes[i]? = some a ∨ bytes[i]? = some b) start none := by
  unfold find2 at h
  split at h
  · cases h
  · split at h
    · cases h
    · intro i hi hor
      rw [Option.bind_eq_none_iff] at h
      cases hrel : memchr2 a b (bytes.drop start) with
      | some rel =>
        obtain ⟨hlt, -⟩ := List.findIdx?_eq_some_iff_getElem.mp hrel
        rw [List.length_drop] at hlt
        have hnone := h rel hrel
        rw [List.getElem?_eq_getElem (by omega)] at hnone
        cases hnone
      | none =>
        rw [memchr2, List.findIdx?_eq_none_iff] at hrel
        have hmem : ∀ c, bytes[i]? = some c → c ∈ bytes.drop start := by
          intro c hc
          have hdrop : (bytes.drop start)[i - start]? = some c := by
            rw [List.getElem?_drop, Nat.add_sub_cancel' hi, hc]
          exact List.mem_of_getElem? hdrop
        rcases hor with ha | hb
        · simpa using hrel a (hmem a ha)
        · simpa using hrel b (hmem b hb)

/-- Inside a quoted section the loop finds its closing quote. By induction on the rest of the input:
a doubled quote is skipped as a pair, and the first quote that is not doubled ends the section. -/
theorem skipQuoted_spec {pos : Nat} (hpos : start ≤ pos)
    (hin : regionAt (· == quote) bytes start pos = some quote) :
    PastFirst (ClosingQuote bytes start quote) bytes pos (skipQuoted bytes quote pos) := by
  induction pos using skipQuoted.induct bytes quote with
  -- no quote is left, so the region never closes
  | case1 pos hfind =>
    have habsent := memchr_drop_eq_none.mp hfind
    rw [skipQuoted, hfind]
    refine ⟨none, ?_, rfl⟩
    rintro i hi ⟨q, hregion, hq, -⟩
    have hq' : q = quote := by simpa using isQuote_of_regionAt hregion
    exact habsent i hi (hq' ▸ hq)
  -- a doubled quote closes the region and opens it again
  | case2 pos rel hfind hdoubled ih =>
    obtain ⟨hquote, hbefore⟩ := memchr_drop_eq_some.mp hfind
    have hstay : regionAt (· == quote) bytes start (pos + rel) = some quote :=
      regionAt_of_inside hpos (Nat.le_add_right _ _) hin hbefore
    have hclosed := regionAt_close (hpos.trans (Nat.le_add_right _ _)) hstay hquote
    have hagain : regionAt (· == quote) bytes start (pos + rel + 2) = some quote :=
      regionAt_open (hpos.trans (by omega)) hclosed hdoubled (by simp)
    have hrest := ih (hpos.trans (by omega)) hagain
    rw [skipQuoted, hfind]
    simp only [if_pos hdoubled]
    refine hrest.skip (by omega) ?_
    rintro i hi hlt ⟨q, hregion, hq, hnext⟩
    obtain rfl : q = quote := by simpa using isQuote_of_regionAt hregion
    rcases Nat.lt_trichotomy i (pos + rel) with hlow | rfl | hhigh
    · exact hbefore i hi hlow hq
    · exact hnext hdoubled
    · obtain rfl : i = pos + rel + 1 := by omega
      rw [hclosed] at hregion
      cases hregion
  -- a single quote is the closing one
  | case3 pos rel hfind hsingle =>
    obtain ⟨hquote, hbefore⟩ := memchr_drop_eq_some.mp hfind
    have hstay : regionAt (· == quote) bytes start (pos + rel) = some quote :=
      regionAt_of_inside hpos (Nat.le_add_right _ _) hin hbefore
    rw [skipQuoted, hfind]
    simp only [if_neg hsingle]
    refine ⟨some (pos + rel), ⟨Nat.le_add_right _ _, ⟨quote, hstay, hquote, hsingle⟩, ?_⟩, rfl⟩
    rintro i hi hlt ⟨q, hregion, hq, -⟩
    obtain rfl : q = quote := by simpa using isQuote_of_regionAt hregion
    exact hbefore i hi hlt hq

/-- No delimiter is unquoted before the closing quote. The loop goes from quote to quote and steps
over a doubled one, and all that it passes is inside the quotes. -/
theorem skipQuoted_unquoted (hne : delimiter ≠ quote) {pos : Nat} (hpos : start ≤ pos)
    (hin : regionAt (· == quote) bytes start pos = some quote) :
    PastFirst (fun i => Unquoted bytes start delimiter quote i ∨ ClosingQuote bytes start quote i)
      bytes pos (skipQuoted bytes quote pos) := by
  obtain ⟨r, hr, heq⟩ := skipQuoted_spec hpos hin
  refine ⟨r, ?_, heq⟩
  cases r with
  | none =>
    rintro i hi (hfree | hclosing)
    · exact noneIn_free_of_region hpos hne hin (fun j hj _ => hr j hj) i hi (Nat.lt_succ_self i)
        hfree
    · exact hr i hi hclosing
  | some c =>
    refine ⟨hr.1, .inr hr.2.1, ?_⟩
    rintro i hi hlt (hfree | hclosing)
    · exact noneIn_free_of_region hpos hne hin hr.2.2 i hi hlt hfree
    · exact hr.2.2 i hi hlt hclosing

/-- The scan returns the position after the first unquoted delimiter or closing quote. By induction
on the rest of the input: an opening quote skips to its closing one, and that the scan returns
there, instead of going on, is the branch the claim is about. -/
theorem scanDelimitedField_spec (bytes : List UInt8) (start : Nat) (hne : delimiter ≠ quote) :
    PastFirst (fun i => Unquoted bytes start delimiter quote i ∨ ClosingQuote bytes start quote i)
      bytes start (scanDelimitedField bytes start delimiter quote) := by
  unfold scanDelimitedField
  split
  · rename_i hlen
    refine ⟨none, ?_, rfl⟩
    rintro i hi (hfree | hclosing)
    · exact absurd hfree.lt_length (by omega)
    · exact absurd hclosing.lt_length (by omega)
  · cases hfind : find2 bytes start delimiter quote with
    | none =>
      have hnone := find2_eq_none hfind
      refine ⟨none, ?_, rfl⟩
      rintro i hi (hfree | ⟨q, hregion, hq, -⟩)
      · exact hnone i hi (.inl hfree.1)
      · obtain rfl : q = quote := by simpa using isQuote_of_regionAt hregion
        exact hnone i hi (.inr hq)
    | some found =>
      obtain ⟨p, b⟩ := found
      obtain ⟨hstart, hbyte, hor, hbefore⟩ := find2_eq_some hfind
      have hskip : NoneIn (fun i => Unquoted bytes start delimiter quote i ∨
          ClosingQuote bytes start quote i) start p := by
        rintro i hi hlt (hfree | ⟨q, hregion, hq, -⟩)
        · exact hbefore i hi hlt (.inl hfree.1)
        · obtain rfl : q = quote := by simpa using isQuote_of_regionAt hregion
          exact hbefore i hi hlt (.inr hq)
      have hout : regionAt (· == quote) bytes start p = none := by
        refine regionAt_of_no_quote (Nat.le_refl _) hstart (regionAt_self bytes start) ?_
        intro i q hi hlt hq
        by_contra hquote
        obtain rfl : q = quote := by simpa using hquote
        exact hbefore i hi hlt (.inr hq)
      dsimp only
      by_cases hb : b = quote
      · rw [if_pos hb]
        subst hb
        -- inside the quoted section no delimiter is unquoted up to the closing quote
        have hin := regionAt_open hstart hout hbyte (by simp)
        have hrest := skipQuoted_unquoted hne (hstart.trans (Nat.le_succ p)) hin
        refine hrest.skip (hstart.trans (Nat.le_succ p)) (hskip.trans ?_)
        intro i hi hlt heither
        obtain rfl : i = p := by omega
        rcases heither with hfree | ⟨q, hregion, -, -⟩
        · exact hne (Option.some.inj (hfree.1.symm.trans hbyte))
        · rw [hout] at hregion
          cases hregion
      · rw [if_neg hb]
        have hd : b = delimiter := hor.resolve_right hb
        subst hd
        exact ⟨some p, ⟨hstart, .inl ⟨hbyte, hout⟩, hskip⟩, rfl⟩

/-- **The scan finds the end of an unquoted field.** The scan returns the position after the first
delimiter outside quotes, or the length of the input when there is none, exactly when a quote that
is closed before that delimiter is closed by the last byte of the input. -/
theorem scanDelimitedField_iff (bytes : List UInt8) (start : Nat) (delimiter quote : UInt8)
    (hne : delimiter ≠ quote) :
    PastFirst (Unquoted bytes start delimiter quote) bytes start
        (scanDelimitedField bytes start delimiter quote) ↔
      ∀ c, start ≤ c → ClosingQuote bytes start quote c →
        NoneIn (Unquoted bytes start delimiter quote) start c → c + 1 = bytes.length := by
  obtain ⟨r, hr, heq⟩ := scanDelimitedField_spec bytes start hne
  have hapart : ∀ i, Unquoted bytes start delimiter quote i →
      ¬ ClosingQuote bytes start quote i := by
    rintro i hfree ⟨q, hregion, -, -⟩
    rw [hfree.2] at hregion
    cases hregion
  rw [heq]
  cases r with
  | none =>
    constructor
    · intro _ c hc hclosing _
      exact absurd (.inr hclosing) (hr c hc)
    · exact fun _ => ⟨none, fun i hi hfree => hr i hi (.inl hfree), rfl⟩
  | some p =>
    obtain ⟨hstart, hp, hbefore⟩ := hr
    have hfirst : NoneIn (Unquoted bytes start delimiter quote) start p :=
      fun i hi hlt hfree => hbefore i hi hlt (.inl hfree)
    rcases hp with hfree | hclosing
    · constructor
      · intro _ c hc hclosing hnone
        -- the delimiter is not after the quote, so the quote is not closed before it
        have hle : p ≤ c := by
          by_contra hlt
          exact hbefore c hc (Nat.lt_of_not_le hlt) (.inr hclosing)
        rcases Nat.lt_or_eq_of_le hle with hlt | rfl
        · exact absurd hfree (hnone p hstart hlt)
        · exact absurd hclosing (hapart p hfree)
      · exact fun _ => ⟨some p, ⟨hstart, hfree, hfirst⟩, rfl⟩
    · constructor
      · rintro ⟨r, hr, hstop⟩ c hc hclosed -
        have hle : p ≤ c := by
          by_contra hlt
          exact hbefore c hc (Nat.lt_of_not_le hlt) (.inr hclosed)
        have hlast : p + 1 = bytes.length := by
          cases r with
          | none => exact hstop
          | some p' =>
            obtain rfl : p = p' := Nat.succ.inj hstop
            exact absurd hclosing (hapart p hr.2.1)
        have hlt := hclosed.lt_length
        omega
      · intro hcond
        have hlast := hcond p hstart hclosing hfirst
        refine ⟨none, ?_, hlast⟩
        intro i hi hfree
        by_cases hlt : i < p
        · exact hfirst i hi hlt hfree
        · have hlen := hfree.lt_length
          obtain rfl : i = p := by omega
          exact hapart i hfree hclosing

section Examples

/-- The field `"a""b"` that is the whole input; 34 is the quote and 44 the comma. -/
theorem scanDelimitedField_iff_whole :
    PastFirst (Unquoted [34, 97, 34, 34, 98, 34] 0 44 34) [34, 97, 34, 34, 98, 34] 0
      (scanDelimitedField [34, 97, 34, 34, 98, 34] 0 44 34) := by
  rw [scanDelimitedField_iff _ 0 44 34 (by decide)]
  rintro c - hclosing -
  have hlt := hclosing.lt_length
  obtain ⟨q, hregion, hq, hnext⟩ := hclosing
  obtain rfl : q = 34 := by simpa using isQuote_of_regionAt hregion
  have hlen : ([34, 97, 34, 34, 98, 34] : List UInt8).length = 6 := rfl
  rw [hlen] at hlt ⊢
  interval_cases c
  · exact absurd hregion (by decide)
  · exact absurd hq (by decide)
  · exact absurd rfl hnext
  · exact absurd hregion (by decide)
  · exact absurd hq (by decide)
  · rfl

/-- In `"a",b` the scan stops before the comma. It returns the position behind the closing quote,
which is the comma and not the byte after it. -/
theorem scanDelimitedField_fails :
    ¬ ∀ (bytes : List UInt8) (start : Nat) (delimiter quote : UInt8), delimiter ≠ quote →
      PastFirst (Unquoted bytes start delimiter quote) bytes start
        (scanDelimitedField bytes start delimiter quote) := by
  intro h
  have hscan : scanDelimitedField [34, 97, 34, 44, 98] 0 44 34 = 3 := by
    decide +kernel
  obtain ⟨r, hr, hstop⟩ := h [34, 97, 34, 44, 98] 0 44 34 (by decide)
  rw [hscan] at hstop
  cases r with
  | none => cases hstop
  | some p =>
    obtain rfl : 2 = p := Nat.succ.inj hstop
    exact absurd hr.2.1.1 (by decide)

end Examples

end Rypipe
