import Rypipe.Foundation.Quoted

/-! # Scanning past regions with openers and closers

Regions of several kinds in a text, each begun by an opener and ended by the closer of that opener.
The scan from the left takes the next opener outside a region and then the first closer after it, so
that whatever looks like another opener inside a region is text. Where several openers begin at one
position the scan may take any of them. -/

namespace Rypipe

universe u

variable {α : Type u}

/-! ## Occurrences -/

/-- `part` occurs in the text at position `i`. -/
def OccursAt (part text : List α) (i : Nat) : Prop := part <+: text.drop i

instance [DecidableEq α] (part text : List α) (i : Nat) : Decidable (OccursAt part text i) :=
  inferInstanceAs (Decidable (part <+: text.drop i))

/-- An occurrence lies in the text. -/
theorem OccursAt.add_length_le {part text : List α} {i : Nat} (hpart : part ≠ [])
    (h : OccursAt part text i) : i + part.length ≤ text.length := by
  have hlen := h.length_le
  have hpos := List.length_pos_iff.mpr hpart
  rw [List.length_drop] at hlen
  omega

/-- Occurrences in the rest of a text. -/
theorem occursAt_drop {part text : List α} {a i : Nat} :
    OccursAt part (text.drop a) i ↔ OccursAt part text (a + i) := by
  rw [OccursAt, OccursAt, List.drop_drop]

/-- Nothing but the empty part occurs in the empty text. -/
theorem not_occursAt_nil {part : List α} (hpart : part ≠ []) (i : Nat) :
    ¬ OccursAt part [] i := by
  intro h
  have hlen := h.add_length_le hpart
  have hpos := List.length_pos_iff.mpr hpart
  rw [List.length_nil] at hlen
  omega

/-! ## The scan -/

section Scan

variable (openers : List (List α)) (closerFor : List α → List α) (text : List α)

/-- From `p` on the first opener is `opener`, at `s`. -/
def NextOpener (p s : Nat) (opener : List α) : Prop :=
  opener ∈ openers ∧ Least (fun i => ∃ o ∈ openers, OccursAt o text i) p (some s) ∧
    OccursAt opener text s

/-- The scan gets to position `p` and is outside every region there. -/
inductive Outside : Nat → Prop
  | start : Outside 0
  /-- A region is passed. -/
  | region {p s c : Nat} {opener : List α} : Outside p → NextOpener openers text p s opener →
      Least (OccursAt (closerFor opener) text) (s + opener.length) (some c) →
      Outside (c + (closerFor opener).length)

/-- The scan ends inside the region that `opener` begins at `s`: no closer follows it. -/
def EndsInside (opener : List α) (s : Nat) : Prop :=
  ∃ p, Outside openers closerFor text p ∧ NextOpener openers text p s opener ∧
    Least (OccursAt (closerFor opener) text) (s + opener.length) none

/-- An opener at `s` with no closer after it, wherever a scan takes it for one. -/
def Unclosed (opener : List α) (s : Nat) : Prop :=
  opener ∈ openers ∧ OccursAt opener text s ∧
    ∀ c, s + opener.length ≤ c → ¬ OccursAt (closerFor opener) text c

variable {openers closerFor text}

/-- The opener of the region a scan ends in is unclosed. -/
theorem EndsInside.unclosed {opener : List α} {s : Nat}
    (h : EndsInside openers closerFor text opener s) : Unclosed openers closerFor text opener s := by
  obtain ⟨p, -, ⟨hmem, -, hoccurs⟩, hopen⟩ := h
  exact ⟨hmem, hoccurs, hopen⟩

end Scan

end Rypipe
