import Mathlib.Algebra.BigOperators.Group.Finset.Basic
import Mathlib.Algebra.Order.BigOperators.Group.List
import Mathlib.Algebra.Order.Ring.Nat

/-! # Runs of a labelled system

The steps of a system carry labels, so that a run has a log: the labels of its steps in order. An
invariant may speak of the log (`Steps.invariant`); a potential that every step lowers by the cost of
its label bounds the cost of a run (`Steps.cost_le`), and a system whose steps all cost something comes
to rest (`exists_steps_stuck`). A state that is a family of threads changes in one of them at a time
(`sum_update_add`). -/

namespace Rypipe

universe u v w

section Runs

variable {σ : Type u} {α : Type v}

/-- The runs from a state, with their logs. -/
inductive Steps (step : σ → α → σ → Prop) (s : σ) : List α → σ → Prop
  | refl : Steps step s [] s
  | snoc {log : List α} {t : σ} {a : α} {t' : σ} (h : Steps step s log t) (hstep : step t a t') :
      Steps step s (log ++ [a]) t'

variable {step : σ → α → σ → Prop} {s t u : σ} {log log' : List α}

namespace Steps

theorem single {a : α} (h : step s a t) : Steps step s [a] t := snoc refl h

theorem trans (h : Steps step s log t) (h' : Steps step t log' u) : Steps step s (log ++ log') u := by
  induction h' with
  | refl =>
      rw [List.append_nil]
      exact h
  | snoc _ hstep ih =>
      rw [← List.append_assoc]
      exact ih.snoc hstep

/-- What holds at the start and is kept by every step holds at the end of every run. -/
theorem invariant {Inv : List α → σ → Prop} (h : Steps step s log t) (hinit : Inv [] s)
    (hstep : ∀ log t a t', Inv log t → step t a t' → Inv (log ++ [a]) t') : Inv log t := by
  induction h with
  | refl => exact hinit
  | snoc _ ha ih => exact hstep _ _ _ _ ih ha

/-- A run costs no more than the potential it starts with. -/
theorem cost_le {c : α → Nat} {potential : σ → Nat} (h : Steps step s log t)
    (hstep : ∀ t a t', step t a t' → c a + potential t' ≤ potential t) :
    (log.map c).sum + potential t ≤ potential s := by
  induction h with
  | refl => exact (Nat.zero_add _).le
  | snoc _ ha ih =>
      have hlast := hstep _ _ _ ha
      rw [List.map_append, List.sum_append, List.map_singleton, List.sum_singleton]
      omega

/-- Where every step lowers the potential, a run has no more steps than that. -/
theorem length_le {potential : σ → Nat} (h : Steps step s log t)
    (hstep : ∀ t a t', step t a t' → potential t' < potential t) :
    log.length + potential t ≤ potential s := by
  have hcost := h.cost_le (c := fun _ => 1) fun t a t' ha => by
    rw [Nat.add_comm]
    exact hstep t a t' ha
  simpa using hcost

end Steps

/-- Where every step lowers the potential, some run comes to rest. -/
theorem exists_steps_stuck {potential : σ → Nat}
    (hstep : ∀ t a t', step t a t' → potential t' < potential t) (s : σ) :
    ∃ log t, Steps step s log t ∧ ∀ a t', ¬ step t a t' := by
  induction hn : potential s using Nat.strong_induction_on generalizing s with
  | _ n ih =>
      by_cases hrest : ∃ a t', step s a t'
      · obtain ⟨a, s', ha⟩ := hrest
        obtain ⟨log, t, hrun, hstuck⟩ := ih (potential s') (hn ▸ hstep s a s' ha) s' rfl
        exact ⟨[a] ++ log, t, (Steps.single ha).trans hrun, hstuck⟩
      · exact ⟨[], s, .refl, fun a t' ha => hrest ⟨a, t', ha⟩⟩

end Runs

section Threads

variable {ι : Type u} [Fintype ι] [DecidableEq ι] {τ : Type v} {M : Type w} [AddCommMonoid M]

/-- A change of one thread exchanges its share of the sum. It is stated with an addition on each
side, as the measure may have no subtraction. -/
theorem sum_update_add (f : τ → M) (threads : ι → τ) (i : ι) (x : τ) :
    (∑ j, f (Function.update threads i x j)) + f (threads i) = (∑ j, f (threads j)) + f x := by
  have hold := Finset.sum_erase_add Finset.univ (fun j => f (threads j)) (Finset.mem_univ i)
  have hnew := Finset.sum_erase_add Finset.univ (fun j => f (Function.update threads i x j))
    (Finset.mem_univ i)
  have hsame : ∑ j ∈ Finset.univ.erase i, f (Function.update threads i x j) =
      ∑ j ∈ Finset.univ.erase i, f (threads j) := by
    refine Finset.sum_congr rfl fun j hj => ?_
    rw [Function.update_of_ne (Finset.ne_of_mem_erase hj)]
  rw [Function.update_self, hsame] at hnew
  rw [← hold, ← hnew, add_right_comm]

end Threads

end Rypipe
