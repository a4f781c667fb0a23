import Rypipe.Foundation.Slices

/-! # Arenas

Chunks of varying length kept back to back in one list, with the offsets at which they start and
end. The offsets of `n` chunks are `n + 1` numbers, the first of them 0; chunk `k` is the slice
between offsets `k` and `k + 1` (`slice_offsets`). -/

namespace Rypipe.Arena

universe u

variable {α : Type u}

/-- Where chunk `k` starts: the total length of the chunks before it. -/
def offset (chunks : List (List α)) (k : Nat) : Nat := (chunks.take k).flatten.length

/-- The offsets of all chunks, and the end of the last one. -/
def offsets (chunks : List (List α)) : List Nat :=
  (List.range (chunks.length + 1)).map (offset chunks)

@[simp] theorem offset_zero (chunks : List (List α)) : offset chunks 0 = 0 := rfl

@[simp] theorem offsets_nil : offsets ([] : List (List α)) = [0] := rfl

@[simp] theorem length_offsets (chunks : List (List α)) :
    (offsets chunks).length = chunks.length + 1 := by
  simp [offsets]

/-- Past the last chunk lies the end of the arena. -/
theorem offset_of_le (chunks : List (List α)) {k : Nat} (h : chunks.length ≤ k) :
    offset chunks k = chunks.flatten.length := by
  rw [offset, List.take_of_length_le h]

theorem getElem?_offsets (chunks : List (List α)) {k : Nat} (h : k ≤ chunks.length) :
    (offsets chunks)[k]? = some (offset chunks k) := by
  rw [offsets, List.getElem?_map, List.getElem?_range (Nat.lt_succ_of_le h), Option.map_some]

theorem getElem?_offsets_of_lt (chunks : List (List α)) {k : Nat} (h : chunks.length < k) :
    (offsets chunks)[k]? = none := by
  rw [List.getElem?_eq_none_iff, length_offsets]
  omega

/-- The end of the arena. -/
theorem getLast?_offsets (chunks : List (List α)) :
    (offsets chunks).getLast? = some chunks.flatten.length := by
  rw [List.getLast?_eq_getElem?, length_offsets, Nat.add_sub_cancel,
    getElem?_offsets chunks (Nat.le_refl _), offset_of_le chunks (Nat.le_refl _)]

/-- No offset lies past the end. -/
theorem offset_le (chunks : List (List α)) (k : Nat) : offset chunks k ≤ chunks.flatten.length := by
  conv_rhs => rw [← List.take_append_drop k chunks, List.flatten_append, List.length_append]
  exact Nat.le_add_right _ _

theorem le_of_mem_offsets {chunks : List (List α)} {o : Nat} (h : o ∈ offsets chunks) :
    o ≤ chunks.flatten.length := by
  obtain ⟨k, -, rfl⟩ := List.mem_map.mp h
  exact offset_le chunks k

/-- The first offsets of a longer arena are those of its first part. -/
theorem offset_append_left (a b : List (List α)) {k : Nat} (h : k ≤ a.length) :
    offset (a ++ b) k = offset a k := by
  rw [offset, List.take_append_of_le_length h, offset]

/-- The later ones are those of the second part, moved by the length of the first. -/
theorem offset_append_right (a b : List (List α)) (k : Nat) :
    offset (a ++ b) (a.length + k) = a.flatten.length + offset b k := by
  rw [offset, List.take_length_add_append, List.flatten_append, List.length_append, offset]

/-- The offsets of two arenas joined: the second arena's, without its leading zero, are moved. -/
theorem offsets_append (a b : List (List α)) :
    offsets (a ++ b) = offsets a ++ (offsets b).tail.map (a.flatten.length + ·) := by
  apply List.ext_getElem?
  intro k
  by_cases hk : k < (offsets a).length
  · rw [List.getElem?_append_left hk]
    rw [length_offsets] at hk
    rw [getElem?_offsets a (by omega), getElem?_offsets _ (by rw [List.length_append]; omega),
      offset_append_left a b (by omega)]
  · rw [List.getElem?_append_right (by omega), List.getElem?_map, List.getElem?_tail]
    rw [length_offsets] at hk ⊢
    obtain ⟨j, rfl⟩ : ∃ j, k = a.length + j := ⟨k - a.length, by omega⟩
    rw [show a.length + j - (a.length + 1) + 1 = j by omega]
    by_cases hj : j ≤ b.length
    · rw [getElem?_offsets _ (by rw [List.length_append]; omega), getElem?_offsets b hj,
        offset_append_right, Option.map_some]
    · rw [getElem?_offsets_of_lt _ (by rw [List.length_append]; omega),
        getElem?_offsets_of_lt b (by omega), Option.map_none]

/-- One more chunk ends at the new end of the arena. -/
theorem offsets_concat (chunks : List (List α)) (c : List α) :
    offsets (chunks ++ [c]) = offsets chunks ++ [(chunks.flatten ++ c).length] := by
  rw [offsets_append, List.length_append]
  simp [offsets, offset, List.range_succ]

/-- The offsets on the two sides of a cut. -/
theorem offsets_split (chunks : List (List α)) (n : Nat) :
    offsets chunks = offsets (chunks.take n) ++
      (offsets (chunks.drop n)).tail.map (offset chunks n + ·) := by
  rw [offset, ← offsets_append, List.take_append_drop]

/-- The offsets of the first `n` chunks. -/
theorem offsets_take (chunks : List (List α)) {n : Nat} (hn : n ≤ chunks.length) :
    offsets (chunks.take n) = (offsets chunks).take (n + 1) := by
  have hlen : (offsets (chunks.take n)).length = n + 1 := by
    rw [length_offsets, List.length_take_of_le hn]
  rw [offsets_split chunks n, List.take_left' hlen]

/-- The offsets start with zero. -/
theorem offsets_eq_cons (chunks : List (List α)) :
    offsets chunks = 0 :: (offsets chunks).tail := by
  rw [offsets, List.range_succ_eq_map, List.map_cons, List.tail_cons, offset_zero]

/-- The offsets after a cut are those of the remaining chunks, moved by the offset of the cut. -/
theorem drop_offsets (chunks : List (List α)) {n : Nat} (hn : n ≤ chunks.length) :
    (offsets chunks).drop (n + 1) = (offsets (chunks.drop n)).tail.map (offset chunks n + ·) := by
  have hlen : (offsets (chunks.take n)).length = n + 1 := by
    rw [length_offsets, List.length_take_of_le hn]
  rw [offsets_split chunks n, List.drop_left' hlen]

/-- A chunk is the slice of the whole between its own offset and the next one. -/
theorem slice_offsets (chunks : List (List α)) {k : Nat} {c : List α} (h : chunks[k]? = some c) :
    slice chunks.flatten (offset chunks k) (offset chunks (k + 1)) = c := by
  obtain ⟨hlt, hget⟩ := List.getElem?_eq_some_iff.mp h
  have hsplit : chunks.flatten = (chunks.take k).flatten ++ (c ++ (chunks.drop (k + 1)).flatten) := by
    conv_lhs => rw [← List.take_append_drop k chunks, List.drop_eq_getElem_cons hlt, hget,
      List.flatten_append, List.flatten_cons]
  have hend : offset chunks (k + 1) = offset chunks k + c.length := by
    rw [offset, List.take_succ_eq_append_getElem hlt, hget, List.flatten_append,
      List.length_append, List.flatten_singleton, offset]
  rw [hend, slice, hsplit, offset, List.drop_left, Nat.add_sub_cancel_left, List.take_left]

/-- What lies before an offset are the chunks before it. -/
theorem take_offset (chunks : List (List α)) (k : Nat) :
    chunks.flatten.take (offset chunks k) = (chunks.take k).flatten := by
  conv_lhs => rw [← List.take_append_drop k chunks, List.flatten_append]
  rw [offset, List.take_append_drop, List.take_left]

/-- What lies after an offset are the chunks from it on. -/
theorem drop_offset (chunks : List (List α)) (k : Nat) :
    chunks.flatten.drop (offset chunks k) = (chunks.drop k).flatten := by
  conv_lhs => rw [← List.take_append_drop k chunks, List.flatten_append]
  rw [offset, List.take_append_drop, List.drop_left]

end Rypipe.Arena
