import Rypipe.Foundation.Decimals
import Rypipe.Predicate
import Mathlib.Algebra.Order.Field.Rat
import Mathlib.Tactic.FieldSimp

/-! # The order of decimals

`compare_decimal128` compares two scaled integers by their digit strings. It is the order of the
rationals they stand for (`compareDecimal128_eq`). -/

namespace Rypipe

/-- The rational a scaled integer stands for. -/
def decimalValue (v : Int) (scale : Nat) : Rat := v / 10 ^ scale

/-- Decimals compare as their numerators over a common scale. The scale is any that is at least that
of both, so that only powers of ten are multiplied. -/
theorem compare_decimalValue (a b : Int) {s t scale : Nat} (hs : s ≤ scale) (ht : t ≤ scale) :
    compare (decimalValue a s) (decimalValue b t) =
      compare (a * 10 ^ (scale - s)) (b * 10 ^ (scale - t)) := by
  have hmono : StrictMono fun x : Int => (x : Rat) / 10 ^ scale := by
    intro x y hxy
    have hcast : (x : Rat) < y := by exact_mod_cast hxy
    exact div_lt_div_of_pos_right hcast (by positivity)
  have hshift : ∀ (v : Int) {r : Nat}, r ≤ scale →
      decimalValue v r = ((v * 10 ^ (scale - r) : Int) : Rat) / 10 ^ scale := by
    intro v r hr
    have hpow : (10 : Rat) ^ scale = 10 ^ (scale - r) * 10 ^ r := by
      rw [← pow_add, Nat.sub_add_cancel hr]
    rw [decimalValue, hpow]
    push_cast
    field_simp
  rw [hshift a hs, hshift b ht, ← cmp_eq_compare, ← cmp_eq_compare]
  exact hmono.cmp_map_eq _ _

/-- The comparison of the magnitudes of two numbers other than zero. -/
theorem compare_magnitudes {m n : Nat} (hm : 0 < m) (hn : 0 < n) (s t : Nat) :
    let scale := max s t
    let aLen := (digitsOf m).length + scale - s
    let bLen := (digitsOf n).length + scale - t
    let width := List.range (max aLen bLen)
    (compare aLen bLen).then
        (List.compareLex compare (width.map ((digitsOf m).getD · '0'))
          (width.map ((digitsOf n).getD · '0'))) =
      compare ((m : Int) * 10 ^ (max s t - s)) (n * 10 ^ (max s t - t)) := by
  intro scale aLen bLen width
  have hdigits : ∀ k : Nat, digitsOf k = Nat.toDigits 10 k := fun k => Nat.toList_repr
  have ha : aLen = (Nat.toDigits 10 m).length + (max s t - s) := by
    simp only [aLen, scale, hdigits]
    omega
  have hb : bLen = (Nat.toDigits 10 n).length + (max s t - t) := by
    simp only [bLen, scale, hdigits]
    omega
  have hcast : StrictMono fun k : Nat => (k : Int) := fun x y hxy => Int.ofNat_lt.mpr hxy
  have hnat := hcast.cmp_map_eq (m * 10 ^ (max s t - s)) (n * 10 ^ (max s t - t))
  rw [cmp_eq_compare, cmp_eq_compare] at hnat
  push_cast at hnat
  rw [hnat]
  simp only [width, ha, hb, hdigits]
  exact Decimals.compare_shifted hm hn _ _

/-- A positive factor does not change a sign. -/
theorem compare_zero_mul (b : Int) {c : Int} (hc : 0 < c) : compare 0 (b * c) = compare 0 b := by
  have h := cmp_mul_pos_right hc 0 b
  rw [zero_mul, cmp_eq_compare, cmp_eq_compare] at h
  exact h

/-- `compare_decimal128` is the order of rationals. Integer parts are compared first; where they
agree the fractions are compared as digit strings of one length, padded with zeros on the right, so
that no product has to fit. -/
theorem compareDecimal128_eq_compare (a : Int) (aScale : Nat) (b : Int) (bScale : Nat) :
    compareDecimal128 a aScale b bScale =
      compare (decimalValue a aScale) (decimalValue b bScale) := by
  have hpow : ∀ n : Nat, (0 : Int) < 10 ^ n := fun n => by positivity
  rw [compare_decimalValue a b (Nat.le_max_left aScale bScale) (Nat.le_max_right aScale bScale)]
  unfold compareDecimal128
  split
  · next hplain =>
    rcases hplain with rfl | rfl | rfl
    · rw [zero_mul, compare_zero_mul b (hpow _)]
    · have h := compare_zero_mul a (hpow (max aScale bScale - aScale))
      rw [← cmp_eq_compare, ← cmp_eq_compare] at h ⊢
      rw [← cmp_swap, zero_mul, ← cmp_swap 0 (a * _), h]
    · rw [max_self, Nat.sub_self, pow_zero, mul_one, mul_one]
  · next hplain =>
    push Not at hplain
    obtain ⟨ha, hb, hscale⟩ := hplain
    split
    · next hsigns =>
      have hleft : a * 10 ^ (max aScale bScale - aScale) < 0 :=
        mul_neg_of_neg_of_pos hsigns.1 (hpow _)
      have hright : 0 ≤ b * 10 ^ (max aScale bScale - bScale) :=
        mul_nonneg hsigns.2 (hpow _).le
      exact (compare_lt_iff_lt.mpr (by omega)).symm
    · next hless =>
      split
      · next hsigns =>
        have hleft : 0 ≤ a * 10 ^ (max aScale bScale - aScale) :=
          mul_nonneg hsigns.1 (hpow _).le
        have hright : b * 10 ^ (max aScale bScale - bScale) < 0 :=
          mul_neg_of_neg_of_pos hsigns.2 (hpow _)
        exact (compare_gt_iff_gt.mpr (by omega)).symm
      · next hmore =>
        -- Both have one sign, and the magnitudes are compared.
        have hma : 0 < a.natAbs := Int.natAbs_pos.mpr ha
        have hmb : 0 < b.natAbs := Int.natAbs_pos.mpr hb
        have horder := compare_magnitudes hma hmb aScale bScale
        simp only at horder ⊢
        rw [horder]
        by_cases hneg : a < 0
        · have hanti : StrictAnti fun x : Int => -x := fun _ _ hxy => neg_lt_neg hxy
          have habs : (a.natAbs : Int) = -a := by omega
          have hbbs : (b.natAbs : Int) = -b := by omega
          rw [if_pos hneg, habs, hbbs, ← cmp_eq_compare, ← cmp_eq_compare, cmp_swap, neg_mul,
            neg_mul]
          exact hanti.cmp_map_eq _ _
        · have habs : (a.natAbs : Int) = a := by omega
          have hbbs : (b.natAbs : Int) = b := by omega
          rw [if_neg hneg, habs, hbbs]

/-- **The order of decimals.** `compare_decimal128` is the order of the rationals: it says no more
than `≤` on these, which is a total preorder on the scaled integers, turns around with its
arguments, and does not depend on the scale a value is written with. -/
theorem compareDecimal128_order (a : Int) (s : Nat) (b : Int) (t : Nat) :
    compareDecimal128 a s b t = compare (decimalValue a s) (decimalValue b t) ∧
      (compareDecimal128 a s b t ≠ .gt ↔ decimalValue a s ≤ decimalValue b t) ∧
      compareDecimal128 b t a s = (compareDecimal128 a s b t).swap ∧
      ∀ k : Nat, compareDecimal128 (a * 10 ^ k) (s + k) b t = compareDecimal128 a s b t := by
  have heq := compareDecimal128_eq_compare a s b t
  refine ⟨heq, ?_, ?_, ?_⟩
  · rw [heq]
    exact compare_le_iff_le
  · rw [compareDecimal128_eq_compare b t a s, heq, ← cmp_eq_compare, ← cmp_eq_compare, cmp_swap]
  · intro k
    have hvalue : decimalValue (a * 10 ^ k) (s + k) = decimalValue a s := by
      rw [decimalValue, decimalValue, pow_add]
      push_cast
      field_simp
    rw [compareDecimal128_eq_compare, hvalue, heq]

example : compareDecimal128 (-150) 2 (-2) 0 = .gt := by decide

end Rypipe
