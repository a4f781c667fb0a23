import Mathlib.Data.Seq.Basic

/-! # Readers

A reader fills a buffer of a given size with the next elements of a sequence, and may fail. Its
content may have no end, and a read may be short: a reader delivers its content (`Delivers`) when
what it puts in a buffer that is not empty comes next, and is nothing only at the end.

Two ways to use a reader are given, with the rule for each: a sequence of reads with any buffers, up
to the first error (`reads`, `reads_invariant`), and reading to the end (`readToEnd`,
`readToEnd_spec`). A reader can keep a log of what it has delivered (`logged`), and a reader whose
states are an image of another's reads as the other does (`reads_image`). -/

namespace Rypipe

open Stream' (Seq)

universe u v w

/-- What a read puts in a buffer of the given size, or its error, and the state it leaves. -/
abbrev Reader (σ : Type u) (ε : Type v) (α : Type w) : Type _ :=
  σ → Nat → Except ε (List α) × σ

namespace Reader

variable {σ : Type u} {ε : Type v} {α : Type w}

/-- A reader that never fails and delivers its content in order, in pieces of any length. -/
structure Delivers (read : Reader σ ε α) (content : σ → Seq α) : Prop where
  read : ∀ (s : σ) (size : Nat), 0 < size → ∃ got s', read s size = (.ok got, s') ∧
    got.length ≤ size ∧ content s = (Seq.ofList got).append (content s') ∧
      (got = [] → content s = .nil)

/-- A list that the content begins with is a prefix of the content, whatever the rest of the content
is. -/
theorem isPrefix_of_append_eq {xs ys : List α} {s : Seq α}
    (h : (Seq.ofList xs).append s = Seq.ofList ys) : xs <+: ys := by
  induction xs generalizing ys with
  | nil => exact List.nil_prefix
  | cons x xs ih =>
      rw [Seq.ofList_cons, Seq.cons_append] at h
      cases ys with
      | nil =>
          rw [Seq.ofList_nil] at h
          exact absurd h Seq.cons_ne_nil
      | cons y ys =>
          rw [Seq.ofList_cons] at h
          obtain ⟨rfl, hrest⟩ := Seq.cons_injective2 h
          exact List.cons_prefix_cons.mpr ⟨rfl, ih hrest⟩

/-! ## Reads up to the first error -/

/-- What a sequence of reads has delivered before its first error, the error if there is one, and
the state that is left. -/
structure Outcome (σ : Type u) (ε : Type v) (α : Type w) where
  delivered : List α
  error : Option ε
  state : σ

/-- Reads with buffers of the given sizes, up to the first error. -/
def reads (read : Reader σ ε α) (s : σ) : List Nat → Outcome σ ε α
  | [] => ⟨[], none, s⟩
  | size :: sizes =>
      match read s size with
      | (.error e, s') => ⟨[], some e, s'⟩
      | (.ok got, s') =>
          let out := reads read s' sizes
          { out with delivered := got ++ out.delivered }

/-- **The rule for a sequence of reads.** An invariant of what has been delivered and the state,
which each read keeps until one fails. -/
theorem reads_invariant (read : Reader σ ε α) {I : List α → σ → Prop} {F : List α → ε → σ → Prop}
    (hok : ∀ acc s size got s', I acc s → read s size = (.ok got, s') → I (acc ++ got) s')
    (herror : ∀ acc s size e s', I acc s → read s size = (.error e, s') → F acc e s') :
    ∀ (sizes : List Nat) (acc : List α) (s : σ), I acc s →
      ((read.reads s sizes).error = none ∧
        I (acc ++ (read.reads s sizes).delivered) (read.reads s sizes).state) ∨
      ∃ e, (read.reads s sizes).error = some e ∧
        F (acc ++ (read.reads s sizes).delivered) e (read.reads s sizes).state := by
  intro sizes
  induction sizes with
  | nil =>
      intro acc s h
      refine .inl ⟨rfl, ?_⟩
      rw [reads, List.append_nil]
      exact h
  | cons size sizes ih =>
      intro acc s h
      rw [reads]
      generalize hread : read s size = result
      obtain ⟨outcome, s'⟩ := result
      cases outcome with
      | error e =>
          refine .inr ⟨e, rfl, ?_⟩
          rw [List.append_nil]
          exact herror acc s size e s' h hread
      | ok got =>
          have hrest := ih (acc ++ got) s' (hok acc s size got s' h hread)
          rw [List.append_assoc] at hrest
          exact hrest

/-- A reader whose states are an image of another's reads what the other does. -/
theorem reads_image {τ : Type*} {read : Reader σ ε α} {read' : Reader τ ε α} {image : τ → σ}
    (h : ∀ t size, read (image t) size = ((read' t size).1, image (read' t size).2)) :
    ∀ (sizes : List Nat) (t : τ), read.reads (image t) sizes =
      ⟨(read'.reads t sizes).delivered, (read'.reads t sizes).error,
        image (read'.reads t sizes).state⟩ := by
  intro sizes
  induction sizes with
  | nil => exact fun t => rfl
  | cons size sizes ih =>
      intro t
      rw [reads, reads, h t size]
      generalize read' t size = result
      obtain ⟨outcome, t'⟩ := result
      cases outcome with
      | error e => rfl
      | ok got =>
          dsimp only
          rw [ih t']

/-! ## The log of a reader -/

/-- The reader, and all it has delivered. -/
def logged (read : Reader σ ε α) : Reader (σ × List α) ε α := fun (s, log) size =>
  match read s size with
  | (.ok got, s') => (.ok got, (s', log ++ got))
  | (.error e, s') => (.error e, (s', log))

/-- The reader under a log reads as it does alone. -/
theorem logged_fst (read : Reader σ ε α) (s : σ × List α) (size : Nat) :
    read s.1 size = ((read.logged s size).1, (read.logged s size).2.1) := by
  rw [logged]
  generalize read s.1 size = result
  obtain ⟨outcome, s'⟩ := result
  cases outcome <;> rfl

/-- What a read adds to the log. It is the bytes that the read returned, at the end of those of the
reads before. -/
theorem logged_ok {read : Reader σ ε α} {s s' : σ × List α} {size : Nat} {got : List α}
    (h : read.logged s size = (.ok got, s')) : s'.2 = s.2 ++ got := by
  rw [logged] at h
  generalize read s.1 size = result at h
  obtain ⟨outcome, t⟩ := result
  cases outcome with
  | error e => cases h
  | ok got' =>
      cases h
      rfl

/-- The reader under a log delivers the same content. -/
theorem Delivers.logged {read : Reader σ ε α} {content : σ → Seq α} (h : read.Delivers content) :
    read.logged.Delivers fun s => content s.1 where
  read := by
    intro s size hsize
    obtain ⟨got, s', hgot, hrest⟩ := h.read s.1 size hsize
    refine ⟨got, (s', s.2 ++ got), ?_, hrest⟩
    rw [Reader.logged, hgot]

/-! ## Reading to the end -/

/-- Read until a read delivers nothing, or fails; `none` when the fuel ends before that. The size of
the buffer of each read is given. -/
def readToEnd (read : Reader σ ε α) (sizes : Nat → Nat) :
    Nat → Nat → σ → Option (Except ε (List α))
  | 0, _, _ => none
  | fuel + 1, k, s =>
      match read s (sizes k) with
      | (.error e, _) => some (.error e)
      | (.ok [], _) => some (.ok [])
      | (.ok (a :: got), s') =>
          (readToEnd read sizes fuel (k + 1) s').map fun out => out.map fun rest => a :: got ++ rest

/-- What comes out of reading to the end: the end, after the delivered elements, or an error. -/
def Ends (E : List α → Prop) (F : List α → ε → Prop) (acc : List α) :
    Except ε (List α) → Prop
  | .ok delivered => E (acc ++ delivered)
  | .error e => ∃ delivered, F (acc ++ delivered) e

/-- **The rule for reading to the end.** An invariant of what has been delivered and the state, which
each read keeps unless it delivers nothing or fails, and a measure that decreases while it does. -/
theorem readToEnd_spec {read : Reader σ ε α} {sizes : Nat → Nat} (hsizes : ∀ k, 0 < sizes k)
    (measure : σ → Nat) {I : List α → σ → Prop} {E : List α → Prop} {F : List α → ε → Prop}
    (hstep : ∀ acc s size, 0 < size → I acc s →
      (∃ e s', read s size = (.error e, s') ∧ F acc e) ∨
      (∃ s', read s size = (.ok [], s') ∧ E acc) ∨
      ∃ a got s', read s size = (.ok (a :: got), s') ∧ I (acc ++ a :: got) s' ∧
        measure s' < measure s) :
    ∀ (fuel k : Nat) (acc : List α) (s : σ), measure s < fuel → I acc s →
      ∃ out, readToEnd read sizes fuel k s = some out ∧ Ends E F acc out := by
  intro fuel
  induction fuel with
  | zero => exact fun k acc s hfuel => absurd hfuel (Nat.not_lt_zero _)
  | succ fuel ih =>
      intro k acc s hfuel h
      rw [readToEnd]
      -- an error, the end of the input, or some elements and a smaller measure
      rcases hstep acc s (sizes k) (hsizes k) h with ⟨e, s', hread, hF⟩ | ⟨s', hread, hE⟩ |
        ⟨a, got, s', hread, hI, hless⟩
      · rw [hread]
        exact ⟨.error e, rfl, [], by rwa [List.append_nil]⟩
      · rw [hread]
        refine ⟨.ok [], rfl, ?_⟩
        rw [Ends, List.append_nil]
        exact hE
      · obtain ⟨out, hout, hends⟩ := ih (k + 1) (acc ++ a :: got) s' (by omega) hI
        rw [hread]
        dsimp only
        rw [hout]
        cases out with
        | ok rest =>
            refine ⟨.ok (a :: got ++ rest), rfl, ?_⟩
            rw [Ends, ← List.append_assoc]
            exact hends
        | error e =>
            obtain ⟨rest, hF⟩ := hends
            refine ⟨.error e, rfl, a :: got ++ rest, ?_⟩
            rw [← List.append_assoc]
            exact hF

/-- More fuel reads the same. A result once found does not depend on the fuel that was left over. -/
theorem readToEnd_mono {read : Reader σ ε α} {sizes : Nat → Nat} {out : Except ε (List α)} :
    ∀ {fuel fuel' k : Nat} {s : σ}, readToEnd read sizes fuel k s = some out → fuel ≤ fuel' →
      readToEnd read sizes fuel' k s = some out := by
  intro fuel
  induction fuel generalizing out with
  | zero =>
      intro fuel' k s h
      cases h
  | succ fuel ih =>
      intro fuel' k s h hle
      obtain ⟨fuel', rfl⟩ : ∃ n, fuel' = n + 1 := ⟨fuel' - 1, by omega⟩
      rw [readToEnd] at h ⊢
      generalize read s (sizes k) = result at h ⊢
      obtain ⟨outcome, s'⟩ := result
      match outcome with
      | .error e => exact h
      | .ok [] => exact h
      | .ok (a :: got) =>
          obtain ⟨rest, hrest, hout⟩ := Option.map_eq_some_iff.mp h
          exact Option.map_eq_some_iff.mpr ⟨rest, ih hrest (by omega), hout⟩

end Reader

end Rypipe
