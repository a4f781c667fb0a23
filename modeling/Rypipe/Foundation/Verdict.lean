import Mathlib.Logic.Basic
import Mathlib.Order.Notation

/-! # Three-valued verdicts on partial assignments

A test on an assignment of values to names, run while some names are still unassigned, ends in a
`Verdict`: `pass`, `fail`, or `undecided`. A verdict is *refined* by another when it is undecided or
equal to it; the strong Kleene connectives are monotone for this order. A test is monotone when
extending the assignment refines its verdict, so that a decision taken early stands. -/

namespace Rypipe

universe u v

/-- The outcome of a test on partial information. -/
inductive Verdict where
  | undecided | pass | fail
  deriving DecidableEq, Repr

namespace Verdict

/-- The decided verdict of a boolean. -/
def ofBool (b : Bool) : Verdict := if b then pass else fail

/-- Conjunction: one failure decides it. -/
def and : Verdict → Verdict → Verdict
  | fail, _ | _, fail => fail
  | pass, pass => pass
  | _, _ => undecided

/-- Disjunction: one success decides it. -/
def or : Verdict → Verdict → Verdict
  | pass, _ | _, pass => pass
  | fail, fail => fail
  | _, _ => undecided

/-- Negation. -/
def not : Verdict → Verdict
  | pass => fail
  | fail => pass
  | undecided => undecided

/-- Whether the verdict is `pass` or `fail`. -/
def Decided (s : Verdict) : Prop := s ≠ undecided

/-- `s` is undecided, or already the verdict `t`. -/
def Refines (s t : Verdict) : Prop := s.Decided → t = s

@[simp] theorem decided_ofBool (b : Bool) : (ofBool b).Decided := by
  cases b <;> simp [Decided, ofBool]

@[simp] theorem not_decided_undecided : ¬ undecided.Decided := by simp [Decided]

@[simp] theorem ofBool_eq_pass {b : Bool} : ofBool b = pass ↔ b = true := by
  cases b <;> simp [ofBool]

@[simp] theorem ofBool_eq_fail {b : Bool} : ofBool b = fail ↔ b = false := by
  cases b <;> simp [ofBool]

@[simp] theorem Refines.refl (s : Verdict) : s.Refines s := fun _ => rfl

@[simp] theorem undecided_refines (t : Verdict) : undecided.Refines t := fun h => absurd rfl h

theorem Refines.trans {s t r : Verdict} (h : s.Refines t) (h' : t.Refines r) : s.Refines r := by
  intro hs
  have ht := h hs
  rw [h' (ht ▸ hs), ht]

/-- Conjunction is monotone. -/
theorem Refines.and {s t s' t' : Verdict} (hs : s.Refines s') (ht : t.Refines t') :
    (s.and t).Refines (s'.and t') := by
  intro h
  cases s <;> cases t <;> cases s' <;> cases t' <;>
    simp_all [Verdict.and, Refines, Decided]

/-- Disjunction is monotone. -/
theorem Refines.or {s t s' t' : Verdict} (hs : s.Refines s') (ht : t.Refines t') :
    (s.or t).Refines (s'.or t') := by
  intro h
  cases s <;> cases t <;> cases s' <;> cases t' <;>
    simp_all [Verdict.or, Refines, Decided]

/-- Negation is monotone. -/
theorem Refines.not {s s' : Verdict} (hs : s.Refines s') : s.not.Refines s'.not := by
  intro h
  cases s <;> cases s' <;> simp_all [Verdict.not, Refines, Decided]

@[simp] theorem ofBool_and (a b : Bool) : (ofBool a).and (ofBool b) = ofBool (a && b) := by
  cases a <;> cases b <;> rfl

@[simp] theorem ofBool_or (a b : Bool) : (ofBool a).or (ofBool b) = ofBool (a || b) := by
  cases a <;> cases b <;> rfl

@[simp] theorem not_ofBool (b : Bool) : (ofBool b).not = ofBool (!b) := by
  cases b <;> rfl

/-- The verdict of a test on a value that may be missing. -/
def onValue {α : Type u} (absent : Verdict) (test : α → Bool) : Option α → Verdict
  | some a => ofBool (test a)
  | none => absent

@[simp] theorem onValue_some {α : Type u} (absent : Verdict) (test : α → Bool) (a : α) :
    onValue absent test (some a) = ofBool (test a) := rfl

@[simp] theorem onValue_none {α : Type u} (absent : Verdict) (test : α → Bool) :
    onValue absent test none = absent := rfl

end Verdict

/-- `get'` assigns every value `get` assigns. -/
def Extends {κ : Type u} {α : Type v} (get get' : κ → Option α) : Prop :=
  ∀ k a, get k = some a → get' k = some a

namespace Extends

variable {κ : Type u} {α : Type v} {get get' : κ → Option α}

@[simp] theorem refl (get : κ → Option α) : Extends get get := fun _ _ h => h

theorem trans {get'' : κ → Option α} (h : Extends get get') (h' : Extends get' get'') :
    Extends get get'' := fun k a hk => h' k a (h k a hk)

/-- A name keeps its value, or had none. -/
theorem eq_or_none (h : Extends get get') (k : κ) : get' k = get k ∨ get k = none := by
  cases hk : get k with
  | none => exact Or.inr rfl
  | some a => exact Or.inl (h k a hk)

/-- A test that is undecided without a value of `k` is monotone. -/
theorem onValue_refines (h : Extends get get') (test : α → Bool) (k : κ) :
    ((get k).elim .undecided (Verdict.ofBool ∘ test)).Refines
      ((get' k).elim .undecided (Verdict.ofBool ∘ test)) := by
  rcases h.eq_or_none k with hk | hk
  · rw [hk]
    exact Verdict.Refines.refl _
  · rw [hk]
    exact Verdict.undecided_refines _

end Extends

end Rypipe
