import Mathlib.Logic.Basic

/-! # Steps that may be refused

A run of steps under a guard. The guard may refuse a step, and a refusal leaves a mark that no later
step removes. A run under the guard then carries the mark at its end, or it is the run without the
guard. -/

namespace Rypipe

universe u v

variable {σ : Type u} {α : Type v} {step guarded : σ → α → σ} {Marked : σ → Prop}
  {Refuses : σ → α → Prop}

/-- `guarded` takes the steps of `step`, and leaves the mark `Marked` where it does not. -/
structure Guards (step guarded : σ → α → σ) (Marked : σ → Prop) : Prop where
  sticky : ∀ s a, Marked s → Marked (guarded s a)
  agrees : ∀ s a, Marked (guarded s a) ∨ guarded s a = step s a

/-- Some step of the run is refused. -/
def RefusesSome (guarded : σ → α → σ) (Refuses : σ → α → Prop) (s : σ) : List α → Prop
  | [] => False
  | a :: as => Refuses s a ∨ RefusesSome guarded Refuses (guarded s a) as

/-- The mark stays to the end of the run. -/
theorem Guards.marked_foldl (h : Guards step guarded Marked) {s : σ} (hs : Marked s) (as : List α) :
    Marked (as.foldl guarded s) := by
  induction as generalizing s with
  | nil => exact hs
  | cons a as ih => exact ih (h.sticky s a hs)

/-- A run under the guard is marked, or is the run without the guard. -/
theorem Guards.marked_or_eq (h : Guards step guarded Marked) (s : σ) (as : List α) :
    Marked (as.foldl guarded s) ∨ as.foldl guarded s = as.foldl step s := by
  induction as generalizing s with
  | nil => exact .inr rfl
  | cons a as ih =>
      rcases h.agrees s a with hmarked | heq
      · exact .inl (h.marked_foldl hmarked as)
      · rw [List.foldl_cons, List.foldl_cons, ← heq]
        exact ih (guarded s a)

/-- A run with a refusal is marked. -/
theorem Guards.marked_of_refuses (h : Guards step guarded Marked)
    (hrefuses : ∀ s a, Refuses s a → Marked (guarded s a)) {s : σ} {as : List α}
    (hsome : RefusesSome guarded Refuses s as) : Marked (as.foldl guarded s) := by
  induction as generalizing s with
  | nil => exact hsome.elim
  | cons a as ih =>
      rcases hsome with hnow | hlater
      · exact h.marked_foldl (hrefuses s a hnow) as
      · exact ih hlater

/-- A refusal in a run is one in its first part or in its second. -/
theorem refusesSome_append (s : σ) (as bs : List α) :
    RefusesSome step Refuses s (as ++ bs) ↔
      RefusesSome step Refuses s as ∨ RefusesSome step Refuses (as.foldl step s) bs := by
  induction as generalizing s with
  | nil => exact ⟨.inr, fun h => h.resolve_left id⟩
  | cons a as ih =>
      rw [List.cons_append, RefusesSome, RefusesSome, ih, or_assoc]
      rfl

/-- A run without the mark refuses what the run without the guard does. -/
theorem Guards.refusesSome_iff (h : Guards step guarded Marked) {s : σ} {as : List α}
    (hclean : ¬ Marked (as.foldl guarded s)) :
    RefusesSome guarded Refuses s as ↔ RefusesSome step Refuses s as := by
  induction as generalizing s with
  | nil => exact Iff.rfl
  | cons a as ih =>
      have hstep : guarded s a = step s a :=
        (h.agrees s a).resolve_left fun hmarked => hclean (h.marked_foldl hmarked as)
      rw [RefusesSome, RefusesSome, ← hstep, ih hclean]

end Rypipe
