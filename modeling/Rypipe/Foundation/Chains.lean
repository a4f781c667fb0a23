import Mathlib.Data.List.Forall2
import Mathlib.Data.List.Induction
import Mathlib.Order.Bounds.Basic

/-! # Folds of what may fail, and chains

A list is read element by element and folded from the left. When reading may fail, the fold succeeds
exactly when every element is read (`foldlM_map_eq_ok`). When the fold builds a binary node at each
step, its result is a chain that leans to the left: the depth of the `i`th of `n` members grows by
`n - max i 1` (`isGreatest_depth_foldl`), so that a long list is as deep as it is long. -/

namespace Rypipe

universe u v w

/-! ## Results -/

/-- Every result of a computation that may fail has a property. -/
def Yields {ε : Type u} {α : Type v} (x : Except ε α) (P : α → Prop) : Prop :=
  ∀ a, x = .ok a → P a

section Results

variable {ε : Type u} {α β : Type v} {P : β → Prop}

/-- A result with the property yields it. -/
theorem yields_ok {b : β} (h : P b) : Yields (.ok b : Except ε β) P := by
  intro b' hb
  cases hb
  exact h

/-- An error yields anything. -/
theorem yields_error (e : ε) : Yields (.error e : Except ε β) P := by
  intro b hb
  cases hb

/-- A computation yields what its continuation yields for every result. -/
theorem yields_bind {x : Except ε α} {f : α → Except ε β} (h : ∀ a, Yields (f a) P) :
    Yields (x >>= f) P := by
  cases x with
  | error e => exact yields_error e
  | ok a => exact h a

/-- Mapping the result yields what the map gives for every result. -/
theorem yields_map {x : Except ε α} {f : α → β} (h : ∀ a, P (f a)) : Yields (f <$> x) P := by
  cases x with
  | error e => exact yields_error e
  | ok a => exact yields_ok (h a)

end Results

section MapM

variable {α : Type u} {β γ : Type v} {ε : Type w}

/-- A step that succeeds on every element, with a relation to what it gives. -/
theorem mapM_forall₂ {R : α → β → Prop} {f : α → Except ε β} {xs : List α}
    (h : ∀ x ∈ xs, ∃ y, f x = .ok y ∧ R x y) : ∃ ys, xs.mapM f = .ok ys ∧ List.Forall₂ R xs ys := by
  induction xs with
  | nil => exact ⟨[], rfl, .nil⟩
  | cons x xs ih =>
      obtain ⟨y, hy, hxy⟩ := h x List.mem_cons_self
      obtain ⟨ys, hys, hall⟩ := ih fun x hx => h x (List.mem_cons_of_mem _ hx)
      refine ⟨y :: ys, ?_, .cons hxy hall⟩
      rw [List.mapM_cons, hy, hys]
      rfl

/-- A step whose results are known from what is related to its arguments. -/
theorem mapM_eq_map {R : α → β → Prop} {f : β → Except ε γ} {g : α → γ} {xs : List α} {ys : List β}
    (h : List.Forall₂ R xs ys) (hf : ∀ x ∈ xs, ∀ y, R x y → f y = .ok (g x)) :
    ys.mapM f = .ok (xs.map g) := by
  induction h with
  | nil => rfl
  | @cons x y xs ys hxy _ ih =>
      rw [List.mapM_cons, hf x List.mem_cons_self y hxy,
        ih fun x hx => hf x (List.mem_cons_of_mem _ hx)]
      rfl

/-- A step that changes nothing. -/
theorem mapM_eq_self {R : α → β → Prop} {f : β → Except ε β} {xs : List α} {ys : List β}
    (h : List.Forall₂ R xs ys) (hf : ∀ x y, R x y → f y = .ok y) : ys.mapM f = .ok ys := by
  induction h with
  | nil => rfl
  | @cons x y xs ys hxy _ ih =>
      rw [List.mapM_cons, hf x y hxy, ih]
      rfl

/-- The elements of a list that was read, one for each element of the input, each of them what its
own reading gave. -/
theorem forall₂_of_mapM {f : α → Except ε β} {xs : List α} {ys : List β}
    (h : xs.mapM f = .ok ys) : List.Forall₂ (fun x y => f x = .ok y) xs ys := by
  induction xs generalizing ys with
  | nil =>
      cases h
      exact .nil
  | cons x xs ih =>
      rw [List.mapM_cons] at h
      cases hx : f x with
      | error e =>
          rw [hx] at h
          cases h
      | ok y =>
          rw [hx] at h
          cases hxs : xs.mapM f with
          | error e =>
              rw [hxs] at h
              cases h
          | ok ys' =>
              rw [hxs] at h
              cases h
              exact .cons hx (ih hxs)

end MapM

/-- A fold that reads each element succeeds exactly when every element is read. By induction on the
list, with the accumulator general. -/
theorem foldlM_map_eq_ok {ε : Type u} {α β γ : Type v} {f : β → γ → β} {g : α → Except ε γ}
    {as : List α} {b out : β} :
    as.foldlM (fun acc a => f acc <$> g a) b = .ok out ↔
      ∃ cs, List.Forall₂ (fun a c => g a = .ok c) as cs ∧ out = cs.foldl f b := by
  induction as generalizing b with
  | nil =>
      rw [List.foldlM_nil]
      constructor
      · intro h
        cases h
        exact ⟨[], .nil, rfl⟩
      · rintro ⟨cs, hcs, rfl⟩
        cases hcs
        rfl
  | cons a as ih =>
      rw [List.foldlM_cons]
      cases hg : g a with
      -- the first element that fails ends the chain
      | error e =>
          constructor
          · intro h
            cases h
          · rintro ⟨cs, hcs, -⟩
            cases hcs with
            | cons hc _ =>
                rw [hg] at hc
                cases hc
      | ok c =>
          have hstep : (f b <$> (.ok c : Except ε γ) >>= fun acc =>
              as.foldlM (fun acc a => f acc <$> g a) acc) =
              as.foldlM (fun acc a => f acc <$> g a) (f b c) := rfl
          rw [hstep, ih]
          constructor
          · rintro ⟨cs, hcs, rfl⟩
            exact ⟨c :: cs, .cons hg hcs, rfl⟩
          · rintro ⟨cs, hcs, rfl⟩
            cases hcs with
            | cons hc hrest =>
                rw [hg] at hc
                cases hc
                exact ⟨_, hrest, rfl⟩

/-! ## Chains -/

/-- The elements of related lists at one index. -/
theorem rel_getElem? {α : Type u} {β : Type v} {R : α → β → Prop} {xs : List α} {ys : List β}
    (h : List.Forall₂ R xs ys) (i : Nat) : Option.Rel R xs[i]? ys[i]? := by
  induction h generalizing i with
  | nil => exact .none
  | cons hx _ ih =>
      cases i with
      | zero => exact .some hx
      | succ i => exact ih i

/-- Each element on the right of two related lists has one on the left that it is related to. -/
theorem exists_of_mem_right {α : Type u} {β : Type v} {R : α → β → Prop} {xs : List α} {ys : List β}
    (h : List.Forall₂ R xs ys) {y : β} (hy : y ∈ ys) : ∃ x ∈ xs, R x y := by
  obtain ⟨i, hi⟩ := List.mem_iff_getElem?.mp hy
  have hrel := rel_getElem? h i
  rw [hi] at hrel
  cases hx : xs[i]? with
  | none =>
      rw [hx] at hrel
      cases hrel
  | some x =>
      rw [hx] at hrel
      cases hrel with
      | some hrel => exact ⟨x, List.mem_of_getElem? hx, hrel⟩

section Chains

variable {α : Type u} {β : Type v} {f : α → α → α} {depth : α → Nat}

/-- The depth of a chain is the greatest depth of a member with its place: the first member is below
every node, and each later one below the node that adds it and those after it. -/
theorem isGreatest_depth_foldl (hf : ∀ a b, depth (f a b) = max (depth a) (depth b) + 1) (a : α)
    (as : List α) :
    IsGreatest {n | ∃ i b, (a :: as)[i]? = some b ∧ n = depth b + ((a :: as).length - max i 1)}
      (depth (as.foldl f a)) := by
  induction as using List.reverseRecOn with
  | nil =>
      constructor
      · exact ⟨0, a, rfl, rfl⟩
      · rintro n ⟨i, b, hb, rfl⟩
        cases i with
        | zero =>
            cases hb
            exact Nat.le_refl _
        | succ i => cases hb
  | append_singleton as c ih =>
      rw [List.foldl_append, List.foldl_cons, List.foldl_nil, hf]
      obtain ⟨⟨i, b, hb, hn⟩, hupper⟩ := ih
      -- the last element is one level deep, and every other one a level deeper than before
      have hi : i < (a :: as).length := (List.getElem?_eq_some_iff.mp hb).1
      have hlast : (a :: (as ++ [c]))[(a :: as).length]? = some c := by
        rw [← List.cons_append]
        exact List.getElem?_concat_length
      have hlength : (a :: (as ++ [c])).length = (a :: as).length + 1 := by simp
      have hpos : 0 < (a :: as).length := Nat.succ_pos _
      constructor
      -- the deeper of the two operands has the maximum
      · rcases Nat.le_total (depth (as.foldl f a)) (depth c) with hle | hle
        · refine ⟨_, c, hlast, ?_⟩
          rw [hlength]
          omega
        · refine ⟨i, b, ?_, ?_⟩
          · rw [← List.cons_append, List.getElem?_append_left hi, hb]
          · rw [hlength]
            omega
      · rintro n ⟨j, d, hd, rfl⟩
        have hj : j < (a :: (as ++ [c])).length := (List.getElem?_eq_some_iff.mp hd).1
        rw [hlength] at hj ⊢
        rcases Nat.lt_succ_iff_lt_or_eq.mp hj with hlt | rfl
        · rw [← List.cons_append, List.getElem?_append_left hlt] at hd
          have hle := hupper ⟨j, d, hd, rfl⟩
          omega
        · rw [hlast] at hd
          cases hd
          omega

/-- The depth of a chain from what the depths of its members are the greatest of. -/
theorem isGreatest_depth_chain (hf : ∀ a b, depth (f a b) = max (depth a) (depth b) + 1)
    {D : β → Set Nat} {bs : List β} {a : α} {as : List α}
    (h : List.Forall₂ (fun b a => IsGreatest (D b) (depth a)) bs (a :: as)) :
    IsGreatest {n | ∃ i b m, bs[i]? = some b ∧ m ∈ D b ∧ n = m + (bs.length - max i 1)}
      (depth (as.foldl f a)) := by
  obtain ⟨⟨i, c, hc, hn⟩, hupper⟩ := isGreatest_depth_foldl hf a as
  rw [← h.length_eq] at hn hupper
  constructor
  · have hrel := rel_getElem? h i
    rw [hc] at hrel
    generalize hb : bs[i]? = found at hrel
    cases hrel with
    | some hgreatest => exact ⟨i, _, _, hb, hgreatest.1, hn⟩
  · rintro n ⟨j, b, m, hb, hm, rfl⟩
    have hrel := rel_getElem? h j
    rw [hb] at hrel
    generalize hd : (a :: as)[j]? = found at hrel
    cases hrel with
    | some hgreatest =>
        have hle := hupper ⟨j, _, hd, rfl⟩
        have hbound := hgreatest.2 hm
        omega

end Chains

end Rypipe
