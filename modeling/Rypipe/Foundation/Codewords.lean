import Mathlib.Data.List.Basic

/-! # Texts made of code words

A code whose words begin with a leader and go on without one, such as the byte encodings of
characters. A text made of such words can be cut anywhere before a leader and nowhere else: the
pieces of a text are made of words exactly when each begins with a leader (`spelled_pieces_iff`). -/

namespace Rypipe

universe u

variable {α : Type u}

/-- Every word begins with a leader, its only one. -/
def Led (leader : α → Prop) (word : List α → Prop) : Prop :=
  ∀ w, word w → ∃ a rest, w = a :: rest ∧ leader a ∧ ∀ b ∈ rest, ¬ leader b

/-- The text is a sequence of words. -/
def Spelled (word : List α → Prop) (text : List α) : Prop :=
  ∃ words : List (List α), (∀ w ∈ words, word w) ∧ text = words.flatten

/-- A piece is empty or begins with a leader. -/
def BeginsLed (leader : α → Prop) (text : List α) : Prop := ∀ a, text.head? = some a → leader a

section Spelled

variable {leader : α → Prop} {word : List α → Prop}

theorem spelled_nil (word : List α → Prop) : Spelled word [] :=
  ⟨[], fun _ hw => (List.not_mem_nil hw).elim, rfl⟩

/-- One word more. -/
theorem Spelled.cons {w text : List α} (hw : word w) (h : Spelled word text) :
    Spelled word (w ++ text) := by
  obtain ⟨words, hwords, rfl⟩ := h
  exact ⟨w :: words, List.forall_mem_cons.mpr ⟨hw, hwords⟩, rfl⟩

/-- A text of words begins with a leader, or is empty, as every word begins with one. -/
theorem Spelled.beginsLed (hled : Led leader word) {text : List α} (h : Spelled word text) :
    BeginsLed leader text := by
  obtain ⟨words, hwords, rfl⟩ := h
  intro a ha
  cases words with
  | nil => cases ha
  | cons w words =>
    obtain ⟨b, rest, rfl, hb, -⟩ := hled w (hwords w List.mem_cons_self)
    cases ha
    exact hb

/-- A text of words cut before a leader gives two texts of words. -/
theorem Spelled.cut (hled : Led leader word) {front back : List α}
    (h : Spelled word (front ++ back)) (hback : BeginsLed leader back) :
    Spelled word front ∧ Spelled word back := by
  obtain ⟨words, hwords, heq⟩ := h
  induction words generalizing front with
  | nil =>
    obtain ⟨rfl, rfl⟩ := List.append_eq_nil_iff.mp heq
    exact ⟨spelled_nil word, spelled_nil word⟩
  | cons w words ih =>
    have hw := hwords w List.mem_cons_self
    have hrest : ∀ w ∈ words, word w := fun w' hw' => hwords w' (List.mem_cons_of_mem w hw')
    rw [List.flatten_cons, List.append_eq_append_iff] at heq
    rcases heq with ⟨tail, rfl, rfl⟩ | ⟨front', rfl, heq⟩
    · -- the cut is in the first word, so before its leader or after all of it
      obtain ⟨a, rest, hcons, -, hplain⟩ := hled _ hw
      cases front with
      | nil =>
        rw [List.nil_append] at hw
        exact ⟨spelled_nil word, Spelled.cons hw ⟨words, hrest, rfl⟩⟩
      | cons c front =>
        rw [List.cons_append, List.cons.injEq] at hcons
        obtain ⟨rfl, rfl⟩ := hcons
        cases tail with
        | nil =>
          rw [List.append_nil] at hw
          exact ⟨⟨[c :: front], by simpa using hw, by simp⟩, ⟨words, hrest, rfl⟩⟩
        | cons b tail =>
          have hb : leader b := hback b rfl
          exact absurd hb (hplain b (List.mem_append_right front List.mem_cons_self))
    · obtain ⟨hfront, hspelled⟩ := ih hrest heq.symm
      exact ⟨hfront.cons hw, hspelled⟩

/-- Pieces of which each begins with a leader together do. -/
theorem beginsLed_flatten {pieces : List (List α)} (h : ∀ p ∈ pieces, BeginsLed leader p) :
    BeginsLed leader pieces.flatten := by
  induction pieces with
  | nil => exact nofun
  | cons p pieces ih =>
    cases p with
    | nil => exact ih fun q hq => h q (List.mem_cons_of_mem [] hq)
    | cons a p => exact h (a :: p) List.mem_cons_self

/-- **Cutting a text of words.** Its pieces are texts of words exactly when each begins with a
leader. -/
theorem spelled_pieces_iff (hled : Led leader word) {pieces : List (List α)}
    (h : Spelled word pieces.flatten) :
    (∀ p ∈ pieces, Spelled word p) ↔ ∀ p ∈ pieces, BeginsLed leader p := by
  constructor
  · intro hspelled p hp
    exact (hspelled p hp).beginsLed hled
  · intro hbegins
    induction pieces with
    | nil => exact fun p hp => (List.not_mem_nil hp).elim
    | cons p pieces ih =>
      have hrest : ∀ q ∈ pieces, BeginsLed leader q := fun q hq =>
        hbegins q (List.mem_cons_of_mem p hq)
      obtain ⟨hp, hpieces⟩ := Spelled.cut hled h (beginsLed_flatten hrest)
      exact List.forall_mem_cons.mpr ⟨hp, ih hpieces hrest⟩

end Spelled

end Rypipe
