import Mathlib.Data.List.Nodup

/-! # Association lists where the last write wins

A list of keyed values that `put` keeps free of repeated keys: the value of a key that is present is
replaced where it stands, and a new key goes to the end. `get` reads from the end. -/

namespace Rypipe

universe u v

namespace Assoc

variable {κ : Type u} {α : Type v} [DecidableEq κ]

/-- Put a value under a key, replacing the one that is there. -/
def put (l : List (κ × α)) (k : κ) (a : α) : List (κ × α) :=
  match l.findIdx? fun p => p.1 == k with
  | some pos => l.set pos (k, a)
  | none => l ++ [(k, a)]

/-- The value of a key, the last one of the list. -/
def get (l : List (κ × α)) (k : κ) : Option α :=
  (l.reverse.find? fun p => p.1 == k).map Prod.snd

@[simp] theorem put_nil (k : κ) (a : α) : put [] k a = [(k, a)] := rfl

theorem put_cons (p : κ × α) (l : List (κ × α)) (k : κ) (a : α) :
    put (p :: l) k a = if p.1 = k then (k, a) :: l else p :: put l k a := by
  by_cases h : p.1 = k
  · simp [put, List.findIdx?_cons, h]
  · rw [if_neg h, put, put, List.findIdx?_cons]
    cases hfind : l.findIdx? fun p => p.1 == k <;> simp [h]

@[simp] theorem get_nil (k : κ) : get ([] : List (κ × α)) k = none := rfl

theorem get_cons (p : κ × α) (l : List (κ × α)) (k : κ) :
    get (p :: l) k = (get l k).or (if p.1 = k then some p.2 else none) := by
  rw [get, get, List.reverse_cons, List.find?_append]
  by_cases h : p.1 = k
  · cases hfind : l.reverse.find? fun p => p.1 == k <;> simp [h]
  · cases hfind : l.reverse.find? fun p => p.1 == k <;> simp [h]

/-- A key that no entry has, has no value. -/
theorem get_eq_none {l : List (κ × α)} {k : κ} : get l k = none ↔ k ∉ l.map Prod.fst := by
  induction l with
  | nil => simp
  | cons p l ih =>
      rw [get_cons, Option.or_eq_none_iff, ih]
      by_cases h : p.1 = k
      · simp [h]
      · simp [h, Ne.symm h]

/-- The keys after a put are the keys before it and the key that was put. -/
theorem mem_keys_put (l : List (κ × α)) (k : κ) (a : α) (k' : κ) :
    k' ∈ (put l k a).map Prod.fst ↔ k' = k ∨ k' ∈ l.map Prod.fst := by
  induction l with
  | nil => simp
  | cons p l ih =>
      rw [put_cons]
      split
      · next h => simp [h]
      · rw [List.map_cons, List.mem_cons, ih, List.map_cons, List.mem_cons]
        exact or_left_comm

/-- The entries after a put. -/
theorem mem_put {l : List (κ × α)} {k : κ} {a : α} {p : κ × α} (h : p ∈ put l k a) :
    p = (k, a) ∨ p ∈ l := by
  rw [put] at h
  split at h
  · rcases List.mem_or_eq_of_mem_set h with h | h
    exacts [.inr h, .inl h]
  · rcases List.mem_append.mp h with h | h
    exacts [.inr h, .inl (List.mem_singleton.mp h)]

/-- A put keeps the keys distinct. By induction on the list, where the key is replaced at its place
or put at the end. -/
theorem nodup_put {l : List (κ × α)} (h : (l.map Prod.fst).Nodup) (k : κ) (a : α) :
    ((put l k a).map Prod.fst).Nodup := by
  induction l with
  | nil => simp
  | cons p l ih =>
      rw [List.map_cons, List.nodup_cons] at h
      rw [put_cons]
      split
      · next hp =>
        rw [List.map_cons, List.nodup_cons, ← hp]
        exact h
      · next hp =>
        rw [List.map_cons, List.nodup_cons, mem_keys_put]
        refine ⟨?_, ih h.2⟩
        rintro (hk | hk)
        exacts [hp hk, h.1 hk]

/-- A put changes the value of its key only: the key has the new value afterwards, and every other
key the one it had. -/
theorem get_put {l : List (κ × α)} (h : (l.map Prod.fst).Nodup) (k : κ) (a : α) (k' : κ) :
    get (put l k a) k' = if k' = k then some a else get l k' := by
  induction l with
  | nil =>
      rw [put_nil, get_cons, get_nil, Option.none_or]
      by_cases hk : k' = k
      · simp [hk]
      · simp [hk, Ne.symm hk]
  | cons p l ih =>
      rw [List.map_cons, List.nodup_cons] at h
      rw [put_cons]
      split
      · next hp =>
        rw [get_cons, get_cons, hp]
        by_cases hk : k' = k
        · subst hk
          have hnone : get l k' = none := get_eq_none.mpr (hp ▸ h.1)
          simp [hnone]
        · simp [hk, Ne.symm hk]
      · next hp =>
        rw [get_cons, get_cons, ih h.2]
        by_cases hk : k' = k
        · simp [hk]
        · simp [hk]

end Assoc

/-- Keys with values that go by them, looked up by key: a key of the list is found with its own
value, and any other key is not found. -/
theorem find?_typed {κ : Type u} {β : Type v} [BEq κ] [LawfulBEq κ] (types : κ → β)
    (names : List κ) (n : κ) :
    (n ∈ names → (names.map fun m => (m, types m)).find? (fun p => p.1 == n) = some (n, types n)) ∧
      (n ∉ names → (names.map fun m => (m, types m)).find? (fun p => p.1 == n) = none) := by
  induction names with
  | nil => exact ⟨fun h => absurd h List.not_mem_nil, fun _ => rfl⟩
  | cons m names ih =>
      rw [List.map_cons, List.find?_cons]
      by_cases hm : m = n
      · subst hm
        rw [BEq.rfl]
        exact ⟨fun _ => rfl, fun h => absurd List.mem_cons_self h⟩
      · rw [beq_false_of_ne hm]
        refine ⟨fun h => ih.1 ((List.mem_cons.mp h).resolve_left (Ne.symm hm)), fun h => ih.2 ?_⟩
        exact fun hmem => h (List.mem_cons_of_mem m hmem)

end Rypipe
