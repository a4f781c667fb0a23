import Mathlib.Data.BitVec

/-! # Words as masks of positions

A `w`-bit word marks some of the positions `0, …, w - 1`. `BitMask.fromOn` keeps the marks from a
position on; the lowest mark is where the trailing zeros end. `BitMask.parity` counts marks modulo
two, and shifting a word onto itself with doubling distances turns its marks into the running
parity (`BitMask.getLsbD_xor_shiftLeft`): each step doubles the width of the window of positions a
bit has summed up. -/

namespace Rypipe.BitMask

variable {w : Nat}

/-! ## Marks from a position on -/

/-- The mask of the positions from `pos` on. -/
def fromOn (w pos : Nat) : BitVec w := BitVec.allOnes w <<< pos

/-- A word cut to the positions from `pos` on. -/
theorem getLsbD_and_fromOn (x : BitVec w) (pos i : Nat) :
    (x &&& fromOn w pos).getLsbD i = (x.getLsbD i && decide (pos ≤ i)) := by
  rw [BitVec.getLsbD_and, fromOn, BitVec.getLsbD_shiftLeft, BitVec.getLsbD_allOnes]
  by_cases hi : i < w
  · by_cases hpos : i < pos
    · simp [hpos, Nat.not_le.mpr hpos]
    · simp [hi, hpos, Nat.le_of_not_lt hpos, show i - pos < w by omega]
  · simp [BitVec.getLsbD_of_ge x i (Nat.le_of_not_lt hi)]

/-- Nothing is marked from `pos` on exactly when the cut word is zero. -/
theorem and_fromOn_eq_zero (x : BitVec w) (pos : Nat) :
    x &&& fromOn w pos = 0#w ↔ ∀ i, pos ≤ i → x.getLsbD i = false := by
  constructor
  · intro hzero i hi
    have hbit : (x &&& fromOn w pos).getLsbD i = false := by rw [hzero, BitVec.getLsbD_zero]
    rwa [getLsbD_and_fromOn, decide_eq_true hi, Bool.and_true] at hbit
  · intro hnone
    apply BitVec.eq_of_getLsbD_eq
    intro i _
    rw [getLsbD_and_fromOn, BitVec.getLsbD_zero]
    by_cases hi : pos ≤ i
    · rw [hnone i hi, Bool.false_and]
    · rw [decide_eq_false hi, Bool.and_false]

/-- The lowest mark from `pos` on, read off the trailing zeros: it is at or above `pos`, it is set,
and nothing between is. -/
theorem lowest_fromOn {x : BitVec w} {pos : Nat} (hne : x &&& fromOn w pos ≠ 0#w) :
    pos ≤ (x &&& fromOn w pos).ctz.toNat ∧
      x.getLsbD (x &&& fromOn w pos).ctz.toNat = true ∧
      ∀ i, pos ≤ i → i < (x &&& fromOn w pos).ctz.toNat → x.getLsbD i = false := by
  have hmark := BitVec.getLsbD_true_ctz_of_ne_zero hne
  rw [getLsbD_and_fromOn, Bool.and_eq_true, decide_eq_true_eq] at hmark
  refine ⟨hmark.2, hmark.1, ?_⟩
  intro i hpos hi
  have hbelow := BitVec.getLsbD_false_of_lt_ctz hi
  rwa [getLsbD_and_fromOn, decide_eq_true hpos, Bool.and_true] at hbelow

/-! ## Running parity -/

/-- Whether an odd number of the positions below `n` is marked. -/
def parity (f : Nat → Bool) : Nat → Bool
  | 0 => false
  | n + 1 => xor (parity f n) (f n)

@[simp] theorem parity_zero (f : Nat → Bool) : parity f 0 = false := rfl

theorem parity_succ (f : Nat → Bool) (n : Nat) : parity f (n + 1) = xor (parity f n) (f n) := rfl

/-- Nothing marked is even. -/
theorem parity_of_clear {f : Nat → Bool} {n : Nat} (h : ∀ i < n, f i = false) :
    parity f n = false := by
  induction n with
  | zero => rfl
  | succ n ih =>
    rw [parity_succ, ih fun i hi => h i (Nat.lt_succ_of_lt hi), h n (Nat.lt_succ_self n)]
    rfl

/-- The parity of the `width` positions that end with `i`. -/
def window (f : Nat → Bool) (width i : Nat) : Bool :=
  xor (parity f (i + 1)) (parity f (i + 1 - width))

theorem window_one (f : Nat → Bool) (i : Nat) : window f 1 i = f i := by
  rw [window, Nat.add_sub_cancel, parity_succ, Bool.xor_comm (parity f i), Bool.xor_assoc,
    Bool.xor_self, Bool.xor_false]

/-- A window that reaches back to the start holds the running parity. -/
theorem window_of_lt {f : Nat → Bool} {width i : Nat} (h : i < width) :
    window f width i = parity f (i + 1) := by
  rw [window, Nat.sub_eq_zero_of_le h, parity_zero, Bool.xor_false]

/-- Shifting a word of window parities onto itself by the width doubles the width. -/
theorem getLsbD_xor_shiftLeft {f : Nat → Bool} {width : Nat} {x : BitVec w}
    (hx : ∀ i < w, x.getLsbD i = window f width i) :
    ∀ i < w, (x ^^^ (x <<< width)).getLsbD i = window f (2 * width) i := by
  intro i hi
  rw [BitVec.getLsbD_xor, BitVec.getLsbD_shiftLeft, hx i hi]
  by_cases hback : i < width
  · rw [window_of_lt hback, window_of_lt (by omega)]
    simp [hback]
  · have hshift : i - width < w := by omega
    have hend : i - width + 1 = i + 1 - width := by omega
    have hstart : i + 1 - width - width = i + 1 - 2 * width := by omega
    rw [hx (i - width) hshift, window, window, window, hend, hstart]
    simp [hi, hback]

/-- The population count of the low positions is odd exactly when their parity is. -/
theorem cpopNatRec_mod_two (x : BitVec w) (n : Nat) :
    x.cpopNatRec n 0 % 2 = (parity x.getLsbD n).toNat := by
  induction n with
  | zero => rfl
  | succ n ih =>
    rw [BitVec.cpopNatRec_succ, BitVec.cpopNatRec_eq, parity_succ]
    cases hparity : parity x.getLsbD n <;> cases hbit : x.getLsbD n <;>
      simp [hparity] at ih ⊢ <;> omega

/-- `count_ones() & 1`: the parity of the whole word. -/
theorem cpop_mod_two (x : BitVec w) : x.cpop.toNat % 2 = (parity x.getLsbD w).toNat := by
  rw [BitVec.toNat_cpop, cpopNatRec_mod_two]

end Rypipe.BitMask
