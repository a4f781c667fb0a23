import Mathlib.Data.List.Destutter
import Mathlib.Data.List.Sort
import Mathlib.Order.Nat

/-! # Slices of a list

Half-open ranges of positions of a list, the slice a range cuts out, and lists of cut points. The
ranges between consecutive points of a nondecreasing list of points tile what lies between the first
and the last one. -/

namespace Rypipe

universe u

variable {α : Type u}

/-- The elements at the positions `s ≤ i < e`. -/
def slice (l : List α) (s e : Nat) : List α := (l.drop s).take (e - s)

@[simp] theorem slice_self (l : List α) (s : Nat) : slice l s s = [] := by
  simp [slice]

theorem slice_zero_length (l : List α) : slice l 0 l.length = l := by
  simp [slice]

theorem length_slice (l : List α) {s e : Nat} (he : e ≤ l.length) :
    (slice l s e).length = e - s := by
  rw [slice, List.length_take, List.length_drop]
  omega

/-- The element at a position of a slice. -/
theorem getElem?_slice (l : List α) {s e i : Nat} (hi : i < e - s) :
    (slice l s e)[i]? = l[s + i]? := by
  rw [slice, List.getElem?_take_of_lt hi, List.getElem?_drop]

/-- Adjacent slices join. -/
theorem slice_append (l : List α) {s m e : Nat} (hs : s ≤ m) (he : m ≤ e) :
    slice l s m ++ slice l m e = slice l s e := by
  have hdrop : l.drop m = (l.drop s).drop (m - s) := by
    rw [List.drop_drop]
    congr 1
    omega
  have hlen : e - s = (m - s) + (e - m) := by omega
  rw [slice, slice, slice, hdrop, hlen, ← List.take_add]

/-- The pairs of consecutive points. -/
def ranges (points : List Nat) : List (Nat × Nat) := points.zip points.tail

@[simp] theorem ranges_cons_cons (a b : Nat) (points : List Nat) :
    ranges (a :: b :: points) = (a, b) :: ranges (b :: points) := rfl

/-- One range less than points. -/
theorem length_ranges (points : List Nat) : (ranges points).length = points.length - 1 := by
  rw [ranges, List.length_zip, List.length_tail]
  omega

/-- The end of a range is the start of the next one, as both are the same point. -/
theorem ranges_contiguous (points : List Nat) :
    (ranges points).IsChain fun r r' => r.2 = r'.1 := by
  induction points with
  | nil => exact .nil
  | cons a points ih =>
      cases points with
      | nil => exact .nil
      | cons b points =>
          rw [ranges_cons_cons]
          cases points with
          | nil => exact .singleton _
          | cons c points =>
              rw [ranges_cons_cons] at ih ⊢
              exact .cons_cons rfl ih

/-- The ranges of increasing points are not empty: each begins before it ends. -/
theorem lt_of_mem_ranges {points : List Nat} (h : points.Pairwise (· < ·)) {r : Nat × Nat}
    (hr : r ∈ ranges points) : r.1 < r.2 := by
  induction points with
  | nil => cases hr
  | cons a points ih =>
      cases points with
      | nil => cases hr
      | cons b points =>
          rw [ranges_cons_cons, List.mem_cons] at hr
          rw [List.pairwise_cons] at h
          rcases hr with rfl | hr
          · exact h.1 b List.mem_cons_self
          · exact ih h.2 hr

/-- The slices between nondecreasing points tile the slice from the first to the last point. -/
theorem flatMap_slice_ranges (l : List α) {a : Nat} {points : List Nat}
    (h : (a :: points).Pairwise (· < ·)) :
    (ranges (a :: points)).flatMap (fun r => slice l r.1 r.2) =
      slice l a ((a :: points).getLast (List.cons_ne_nil a points)) := by
  induction points generalizing a with
  | nil => simp [ranges]
  | cons b points ih =>
      obtain ⟨ha, hrest⟩ := List.pairwise_cons.mp h
      have hlast : b ≤ (b :: points).getLast (List.cons_ne_nil b points) := by
        rcases List.mem_cons.mp (List.getLast_mem (List.cons_ne_nil b points)) with heq | hmem
        · exact heq.ge
        · exact ((List.pairwise_cons.mp hrest).1 _ hmem).le
      rw [ranges_cons_cons, List.flatMap_cons, ih hrest, List.getLast_cons_cons,
        slice_append l (ha b List.mem_cons_self).le hlast]

/-- Sorting and dropping consecutive repetitions leaves increasing points. -/
theorem pairwise_destutter_insertionSort (points : List Nat) :
    ((points.insertionSort (· ≤ ·)).destutter (· ≠ ·)).Pairwise (· < ·) := by
  have hsorted : ((points.insertionSort (· ≤ ·)).destutter (· ≠ ·)).Pairwise (· ≤ ·) :=
    (List.pairwise_insertionSort (· ≤ ·) points).sublist (List.destutter_sublist _ _)
  have hchain := List.isChain_destutter (fun a b : Nat => a ≠ b) (points.insertionSort (· ≤ ·))
  apply List.isChain_iff_pairwise.mp
  rw [List.isChain_iff_getElem] at hchain ⊢
  intro i hi
  have hle := List.pairwise_iff_getElem.mp hsorted i (i + 1) (by omega) hi (by omega)
  exact lt_of_le_of_ne hle (hchain i hi)

end Rypipe
