import Mathlib.Algebra.Ring.Nat
import Mathlib.Data.List.TakeDrop
import Mathlib.Order.Nat

/-! # Sets of indices in an array of machine words

A `WordSet w` holds a set of natural numbers as the bits of an array of `w`-bit words: `i` is in
the set when bit `i % w` of word `i / w` is set. The array has a fixed `capacity`; inserting an
index beyond it changes nothing, and the callers keep the array long enough
(`WordSet.capacity_resizeFor`). -/

namespace Rypipe

/-- A set of indices kept in an array of `w`-bit words. -/
structure WordSet (w : Nat) where
  /-- The words, lowest indices first. -/
  words : List (BitVec w)
  deriving DecidableEq, Repr

namespace WordSet

variable {w : Nat}

/-- The array with no words. -/
def empty : WordSet w := ⟨[]⟩

/-- The number of indices the array has room for. -/
def capacity (s : WordSet w) : Nat := w * s.words.length

/-- Whether index `i` is in the set. -/
def test (s : WordSet w) (i : Nat) : Bool := (s.words[i / w]?.getD 0#w).getLsbD (i % w)

/-- Set the bit of index `i`. -/
def insert (s : WordSet w) (i : Nat) : WordSet w :=
  ⟨s.words.modify (i / w) (· ||| BitVec.twoPow w (i % w))⟩

/-- Clear the bit of index `i`. -/
def remove (s : WordSet w) (i : Nat) : WordSet w :=
  ⟨s.words.modify (i / w) (· &&& ~~~(BitVec.twoPow w (i % w)))⟩

/-- Add a zero word. -/
def pushWord (s : WordSet w) : WordSet w := ⟨s.words ++ [0#w]⟩

/-- Drop the last word. -/
def popWord (s : WordSet w) : WordSet w := ⟨s.words.dropLast⟩

/-- The words of a second array after those of the first. -/
def append (s t : WordSet w) : WordSet w := ⟨s.words ++ t.words⟩

/-- Cut the last word to the bits of a mask. -/
def maskLast (s : WordSet w) (mask : BitVec w) : WordSet w :=
  ⟨s.words.modify (s.words.length - 1) (· &&& mask)⟩

/-- Zero every word. -/
def clear (s : WordSet w) : WordSet w := ⟨s.words.map fun _ => 0#w⟩

/-- Cut or zero-extend the array to `n` words. -/
def resize (s : WordSet w) (n : Nat) : WordSet w := ⟨s.words.takeD n 0#w⟩

/-- Extend the array, if needed, to the words that `n` indices take. -/
def growFor (s : WordSet w) (n : Nat) : WordSet w :=
  if s.words.length < (n + w - 1) / w then s.resize ((n + w - 1) / w) else s

/-- Extend the array by one word, if `n` indices do not fit. -/
def growByWord (s : WordSet w) (n : Nat) : WordSet w :=
  if s.words.length < (n + w - 1) / w then s.resize (s.words.length + 1) else s

/-- Cut or extend the array to exactly the words that `n` indices take. -/
def resizeFor (s : WordSet w) (n : Nat) : WordSet w := s.resize ((n + w - 1) / w)

/-- The word-wise test that all of the first `n` indices are in the set: every full word is all
ones and the last, partial word is exactly its `n % w` low ones. -/
def isFull (s : WordSet w) (n : Nat) : Bool :=
  ((List.range (n / w)).all fun k => s.words[k]? == some (BitVec.allOnes w)) &&
    (n % w == 0 || s.words[n / w]?.getD 0#w == BitVec.ofNat w (2 ^ (n % w) - 1))

@[simp] theorem capacity_insert (s : WordSet w) (i : Nat) :
    (s.insert i).capacity = s.capacity := by
  simp [capacity, insert]

@[simp] theorem capacity_clear (s : WordSet w) : s.clear.capacity = s.capacity := by
  simp [capacity, clear]

@[simp] theorem capacity_resize (s : WordSet w) (n : Nat) : (s.resize n).capacity = w * n := by
  simp [capacity, resize, List.takeD_length]

/-- `n` indices fit in `⌈n / w⌉` words. -/
theorem le_mul_ceil (hw : 0 < w) (n : Nat) : n ≤ w * ((n + w - 1) / w) := by
  have h := Nat.div_add_mod (n + w - 1) w
  have hlt := Nat.mod_lt (n + w - 1) hw
  omega

/-- After growing there is room for every index below `n`. -/
theorem capacity_growFor (hw : 0 < w) (s : WordSet w) (n : Nat) :
    n ≤ (s.growFor n).capacity := by
  unfold growFor
  have hn := le_mul_ceil hw n
  split
  · simpa using hn
  · next h => exact hn.trans (Nat.mul_le_mul_left w (not_lt.mp h))

/-- One more word is enough for one more index. -/
theorem capacity_growByWord (hw : 0 < w) {s : WordSet w} {n : Nat} (hn : n ≤ s.capacity) :
    n + 1 ≤ (s.growByWord (n + 1)).capacity := by
  unfold growByWord
  have hfit := le_mul_ceil hw (n + 1)
  split
  · rw [capacity_resize, Nat.mul_succ]
    exact Nat.add_le_add hn hw
  · next h => exact hfit.trans (Nat.mul_le_mul_left w (not_lt.mp h))

/-- After resizing there is room for every index below `n`. -/
theorem capacity_resizeFor (hw : 0 < w) (s : WordSet w) (n : Nat) :
    n ≤ (s.resizeFor n).capacity := by
  simpa [resizeFor] using le_mul_ceil hw n

@[simp] theorem test_empty (i : Nat) : (empty : WordSet w).test i = false := by
  simp [test, empty]

@[simp] theorem test_clear (s : WordSet w) (i : Nat) : s.clear.test i = false := by
  simp only [test, clear, List.getElem?_map]
  cases s.words[i / w]? <;> simp

/-- Insertion adds exactly the inserted index, if there is room for it. In another word nothing
changes, and within the word only the bit of the index does. -/
theorem test_insert (s : WordSet w) {i : Nat} (hi : i < s.capacity) (j : Nat) :
    (s.insert i).test j = (decide (j = i) || s.test j) := by
  have hw : 0 < w := Nat.pos_of_mul_pos_right (Nat.zero_lt_of_lt hi)
  have hword : i / w < s.words.length := Nat.div_lt_of_lt_mul hi
  by_cases hij : i / w = j / w
  · -- same word: the two indices agree exactly when their bits do
    have hlt : j / w < s.words.length := hij ▸ hword
    have hbit : (j % w = i % w) ↔ j = i := by
      constructor
      · intro h
        rw [← Nat.div_add_mod j w, ← Nat.div_add_mod i w, hij, h]
      · rintro rfl; rfl
    simp [test, insert, hij, List.getElem?_eq_getElem hlt, Nat.mod_lt _ hw, hbit, Bool.or_comm]
  · have hne : j ≠ i := by rintro rfl; exact hij rfl
    simp [test, insert, hij, hne]

/-- An index within the capacity is in the set after it was inserted. -/
theorem test_insert_self (s : WordSet w) {i : Nat} (hi : i < s.capacity) :
    (s.insert i).test i = true := by
  simp [test_insert s hi]

/-- Inserting an index leaves the others. -/
theorem test_insert_ne (s : WordSet w) {i j : Nat} (hij : j ≠ i) :
    (s.insert i).test j = s.test j := by
  by_cases hi : i < s.capacity
  · simp [test_insert s hi, hij]
  · rcases Nat.eq_zero_or_pos w with rfl | hw
    · simp [test, insert]
    · have hge : s.words.length ≤ i / w :=
        (Nat.le_div_iff_mul_le hw).mpr (by rw [Nat.mul_comm]; exact not_lt.mp hi)
      simp [test, insert, List.modify_eq_self hge]

/-- The words of a set after one of them is changed. -/
theorem getD_modify (l : List (BitVec w)) (f : BitVec w → BitVec w) (hf : f 0#w = 0#w)
    (k j : Nat) : (l.modify k f)[j]?.getD 0#w =
      if k = j then f (l[j]?.getD 0#w) else l[j]?.getD 0#w := by
  rw [List.getElem?_modify]
  cases l[j]? with
  | none => split <;> simp [hf]
  | some x => split <;> rfl

/-- Removal drops exactly the removed index, and an index outside the array is in no set before or
after. -/
theorem test_remove (hw : 0 < w) (s : WordSet w) (i j : Nat) :
    (s.remove i).test j = (!decide (j = i) && s.test j) := by
  rw [test, remove, getD_modify _ _ (by simp), test]
  by_cases hword : i / w = j / w
  · have hbit : i % w = j % w ↔ j = i := by
      constructor
      · intro h
        rw [← Nat.div_add_mod j w, ← Nat.div_add_mod i w, hword, h]
      · rintro rfl; rfl
    rw [if_pos hword, BitVec.getLsbD_and, BitVec.getLsbD_not, BitVec.getLsbD_twoPow]
    simp [Nat.mod_lt _ hw, hbit, Bool.and_comm]
  · have hne : j ≠ i := by rintro rfl; exact hword rfl
    simp [hword, hne]

/-- Joined arrays: the second one's indices follow the capacity of the first. -/
theorem test_append (hw : 0 < w) (s t : WordSet w) (i : Nat) :
    (s.append t).test i = if i < s.capacity then s.test i else t.test (i - s.capacity) := by
  by_cases hi : i < s.capacity
  · rw [if_pos hi, test, append, List.getElem?_append_left (Nat.div_lt_of_lt_mul hi), test]
  · have hle : w * s.words.length ≤ i := Nat.le_of_not_lt hi
    have hword : s.words.length ≤ i / w := (Nat.le_div_iff_mul_le hw).mpr (by
      rw [Nat.mul_comm]
      exact hle)
    rw [if_neg hi, test, append, List.getElem?_append_right hword, test, capacity,
      Nat.sub_mul_div, Nat.sub_mul_mod hle]

/-- A zero word adds no index. -/
@[simp] theorem test_pushWord (s : WordSet w) (i : Nat) : s.pushWord.test i = s.test i := by
  simp only [test, pushWord, List.getElem?_append]
  split
  · rfl
  · next h =>
    rw [List.getElem?_eq_none (Nat.le_of_not_lt h), List.getElem?_singleton]
    split <;> simp

/-- Dropping the last word drops its indices. -/
theorem test_popWord (s : WordSet w) (i : Nat) :
    s.popWord.test i = (decide (i / w < s.words.length - 1) && s.test i) := by
  simp only [test, popWord, List.getElem?_dropLast]
  split
  · next h => simp [h]
  · next h => simp [h]

/-- Masking the last word drops the indices of its cleared bits. -/
theorem test_maskLast (s : WordSet w) (mask : BitVec w) (i : Nat) :
    (s.maskLast mask).test i =
      (s.test i && (decide (i / w ≠ s.words.length - 1) || mask.getLsbD (i % w))) := by
  rw [test, maskLast, getD_modify _ _ (by simp), test]
  by_cases hlast : s.words.length - 1 = i / w
  · rw [if_pos hlast, BitVec.getLsbD_and]
    simp [hlast]
  · rw [if_neg hlast]
    simp [Ne.symm hlast]

/-- The word at a position after a resize: the old one below the new length, with zeros where there
was none, and zero from there on. -/
theorem getD_takeD (l : List (BitVec w)) (n k : Nat) :
    (l.takeD n 0#w)[k]?.getD 0#w = if k < n then l[k]?.getD 0#w else 0#w := by
  induction n generalizing l k with
  | zero => simp [List.takeD]
  | succ n ih =>
      cases k with
      | zero => cases l <;> simp [List.takeD]
      | succ k =>
          cases l with
          | nil =>
              simp only [List.takeD_nil, List.getElem?_replicate]
              split <;> simp
          | cons a l => simpa [List.takeD] using ih l k

/-- Extending the array changes no bit. -/
theorem test_resize (s : WordSet w) {n : Nat} (hn : s.words.length ≤ n) (i : Nat) :
    (s.resize n).test i = s.test i := by
  simp only [test, resize, getD_takeD]
  split
  · rfl
  · next h => rw [List.getElem?_eq_none (hn.trans (not_lt.mp h)), Option.getD_none]

/-- Resizing an empty set leaves it empty. -/
theorem test_resize_of_empty {s : WordSet w} (h : ∀ i, s.test i = false) (n i : Nat) :
    (s.resize n).test i = false := by
  have hi := h i
  simp only [test, resize, getD_takeD] at hi ⊢
  split
  · exact hi
  · exact BitVec.getLsbD_zero

/-- Cutting or extending the array to the words of `n` indices changes none of their bits. -/
theorem test_resizeFor (hw : 0 < w) (s : WordSet w) {n i : Nat} (hi : i < n) :
    (s.resizeFor n).test i = s.test i := by
  have hword : i / w < (n + w - 1) / w :=
    Nat.div_lt_of_lt_mul (Nat.lt_of_lt_of_le hi (le_mul_ceil hw n))
  simp only [test, resizeFor, resize, getD_takeD, if_pos hword]

/-- Several insertions add exactly the inserted indices, if there is room for all of them. By
induction on the indices. -/
theorem test_insertAll {s : WordSet w} {is : List Nat} (his : ∀ i ∈ is, i < s.capacity) (j : Nat) :
    (is.foldl insert s).test j = (decide (j ∈ is) || s.test j) := by
  induction is generalizing s with
  | nil => simp
  | cons i is ih =>
      have hrest : ∀ k ∈ is, k < (s.insert i).capacity := fun k hk => by
        rw [capacity_insert]
        exact his k (List.mem_cons_of_mem i hk)
      rw [List.foldl_cons, ih hrest, test_insert s (his i List.mem_cons_self)]
      by_cases hj : j = i <;> simp [hj]

@[simp] theorem test_growFor (s : WordSet w) (n i : Nat) : (s.growFor n).test i = s.test i := by
  unfold growFor
  split
  · next h => exact test_resize s h.le i
  · rfl

@[simp] theorem test_growByWord (s : WordSet w) (n i : Nat) :
    (s.growByWord n).test i = s.test i := by
  unfold growByWord
  split
  · exact test_resize s (Nat.le_succ _) i
  · rfl

/-- An array that is extended only where it has no word for an index makes room for the index and
keeps every bit. -/
theorem test_resize_word (hw : 0 < w) (s : WordSet w) (i : Nat) :
    let t := if s.words.length ≤ i / w then s.resize (i / w + 1) else s
    i < t.capacity ∧ ∀ j, t.test j = s.test j := by
  intro t
  have hword : i < w * (i / w + 1) := Nat.lt_mul_div_succ i hw
  by_cases hshort : s.words.length ≤ i / w
  · have ht : t = s.resize (i / w + 1) := if_pos hshort
    rw [ht, capacity_resize]
    exact ⟨hword, fun j => test_resize s (Nat.le_succ_of_le hshort) j⟩
  · have ht : t = s := if_neg hshort
    rw [ht]
    exact ⟨hword.trans_le (Nat.mul_le_mul_left w (Nat.lt_of_not_le hshort)), fun _ => rfl⟩

/-- The word-wise test is sound: a full array holds each of the first `n` indices. -/
theorem test_of_isFull (hw : 0 < w) {s : WordSet w} {n i : Nat} (h : s.isFull n = true)
    (hi : i < n) : s.test i = true := by
  simp only [isFull, Bool.and_eq_true, List.all_eq_true, List.mem_range, beq_iff_eq,
    Bool.or_eq_true] at h
  obtain ⟨hfull, hrem⟩ := h
  have hbit : i % w < w := Nat.mod_lt i hw
  by_cases hword : i / w < n / w
  · simp [test, hfull _ hword, hbit]
  · -- the index lies in the partial last word
    have hdm := Nat.div_add_mod n w
    have hdi := Nat.div_add_mod i w
    have heq : i / w = n / w :=
      le_antisymm (Nat.div_le_div_right hi.le) (not_lt.mp hword)
    rw [heq] at hdi
    have hlt : i % w < n % w := by omega
    rcases hrem with hz | hlast
    · omega
    · rw [test, heq, hlast, BitVec.getLsbD_ofNat, Nat.testBit_two_pow_sub_one]
      simp [hbit, hlt]

end WordSet

end Rypipe
