import Mathlib.Algebra.Order.Ring.Unbundled.Basic
import Mathlib.Algebra.Order.Ring.Int
import Mathlib.Data.Char
import Mathlib.Order.Compare
import Mathlib.Tactic.Linarith
import Mathlib.Tactic.Ring

/-! # Strings of decimal digits

Positional facts about character lists of decimal digits: how large their value can be, what cutting
off digits and appending zeros does to it, and that comparing digit strings, first by length and
then from the left, is comparing their values. -/

namespace Rypipe

namespace Decimals

/-! ## Values -/

/-- The value of a digit string, most significant digit first. -/
abbrev value (l : List Char) : Nat := Nat.ofDigitChars 10 l 0

/-- The value of two runs of digits: the first is shifted by the length of the second. -/
theorem value_append (l m : List Char) :
    value (l ++ m) = value l * 10 ^ m.length + value m := by
  rw [value, Nat.ofDigitChars_append, Nat.ofDigitChars_eq_ofDigitChars_zero, Nat.mul_comm]

/-- The first digit counts by its place. -/
theorem value_cons (c : Char) (l : List Char) :
    value (c :: l) = (c.toNat - 48) * 10 ^ l.length + value l := by
  rw [← List.singleton_append, value_append]
  simp [value, Nat.ofDigitChars_cons]

/-- Zeros are worth nothing. -/
theorem value_replicate_zero (n : Nat) : value (List.replicate n '0') = 0 := by
  rw [value, Nat.ofDigitChars_replicate_zero, Nat.mul_zero]

/-- The value of a digit is less than ten. -/
theorem digit_lt {c : Char} (h : c.isDigit = true) : c.toNat - 48 < 10 := by
  rw [Char.isDigit_iff_toNat] at h
  have hnine : '9'.toNat = 57 := rfl
  omega

/-- A string of `n` digits has a value below `10^n`. By induction from the last digit, which is at
most nine. -/
theorem value_lt {l : List Char} (h : ∀ c ∈ l, c.isDigit = true) : value l < 10 ^ l.length := by
  induction l with
  | nil => simp [value]
  | cons c l ih =>
    have hdigit := digit_lt (h c List.mem_cons_self)
    have hrest := ih fun d hd => h d (List.mem_cons_of_mem c hd)
    rw [value_cons, List.length_cons, pow_succ]
    have hbound : (c.toNat - 48) * 10 ^ l.length ≤ 9 * 10 ^ l.length :=
      Nat.mul_le_mul_right _ (by omega)
    omega

/-- Cutting digits off the right divides. -/
theorem value_take {l : List Char} (h : ∀ c ∈ l, c.isDigit = true) (k : Nat) :
    value (l.take k) = value l / 10 ^ (l.drop k).length := by
  have hsplit := value_append (l.take k) (l.drop k)
  rw [List.take_append_drop] at hsplit
  have hrest := value_lt (l := l.drop k) fun c hc => h c (List.mem_of_mem_drop hc)
  rw [hsplit, Nat.mul_comm, Nat.mul_add_div (by positivity), Nat.div_eq_of_lt hrest, Nat.add_zero]

/-! ## The digits of a number -/

/-- The decimal digits of a number are digits. -/
theorem isDigit_toDigits {n : Nat} {c : Char} (h : c ∈ Nat.toDigits 10 n) : c.isDigit = true :=
  Nat.isDigit_of_mem_toDigits (by decide) (by decide) h

/-- The number of digits bounds the number. -/
theorem lt_pow_length (n : Nat) : n < 10 ^ (Nat.toDigits 10 n).length :=
  (Nat.length_toDigits_le_iff (by decide) Nat.length_toDigits_pos).mp (Nat.le_refl _)

/-- The first digit of a positive number is not a zero. -/
theorem pow_length_le {n : Nat} (hn : 0 < n) : 10 ^ ((Nat.toDigits 10 n).length - 1) ≤ n := by
  by_contra hlt
  rw [Nat.not_le] at hlt
  rcases Nat.eq_zero_or_pos ((Nat.toDigits 10 n).length - 1) with hone | hmore
  · rw [hone, pow_zero] at hlt
    omega
  · have hle := (Nat.length_toDigits_le_iff (by decide) hmore).mpr hlt
    omega

/-! ## Comparing digit strings -/

/-- **Digit strings of one length compare as their values.** By induction on the digits: the first
digit that differs decides, since what follows it is worth less than one unit of its place. -/
theorem compareLex_eq {l m : List Char} (hl : ∀ c ∈ l, c.isDigit = true)
    (hm : ∀ c ∈ m, c.isDigit = true) (hlen : l.length = m.length) :
    List.compareLex compare l m = compare (value l) (value m) := by
  induction l generalizing m with
  | nil =>
    have hnil : m = [] := List.length_eq_zero_iff.mp hlen.symm
    subst hnil
    rw [List.compareLex_nil_nil, Nat.compare_eq_eq.mpr rfl]
  | cons c l ih =>
    cases m with
    | nil => cases hlen
    | cons d m =>
      have htail : l.length = m.length := Nat.succ.inj hlen
      have hrest := ih (fun e he => hl e (List.mem_cons_of_mem c he))
        (fun e he => hm e (List.mem_cons_of_mem d he)) htail
      have hc := hl c List.mem_cons_self
      have hd := hm d List.mem_cons_self
      have hlt := value_lt fun e he => hl e (List.mem_cons_of_mem c he)
      have hlt' := value_lt fun e he => hm e (List.mem_cons_of_mem d he)
      rw [List.compareLex_cons_cons, hrest, value_cons, value_cons, ← htail]
      rw [← htail] at hlt'
      rw [Char.isDigit_iff_toNat] at hc hd
      have hzero : '0'.toNat = 48 := rfl
      -- the first digits decide unless they are equal
      rcases lt_trichotomy c d with hcd | hcd | hcd
      · have hnat : c.toNat < d.toNat := hcd
        have hstep : (c.toNat - 48 + 1) * 10 ^ l.length ≤ (d.toNat - 48) * 10 ^ l.length :=
          Nat.mul_le_mul_right _ (by omega)
        rw [compare_lt_iff_lt.mpr hcd, Ordering.lt_then]
        symm
        rw [Nat.compare_eq_lt]
        rw [Nat.add_mul, Nat.one_mul] at hstep
        omega
      · subst hcd
        rw [compare_eq_iff_eq.mpr rfl, Ordering.eq_then]
        rcases hcmp : compare (value l) (value m) with _ | _ | _
        · rw [Nat.compare_eq_lt] at hcmp
          symm
          rw [Nat.compare_eq_lt]
          omega
        · rw [Nat.compare_eq_eq] at hcmp
          rw [hcmp]
          exact (Nat.compare_eq_eq.mpr rfl).symm
        · rw [Nat.compare_eq_gt] at hcmp
          symm
          rw [Nat.compare_eq_gt]
          omega
      · have hnat : d.toNat < c.toNat := hcd
        have hstep : (d.toNat - 48 + 1) * 10 ^ l.length ≤ (c.toNat - 48) * 10 ^ l.length :=
          Nat.mul_le_mul_right _ (by omega)
        rw [compare_gt_iff_gt.mpr hcd, Ordering.gt_then]
        symm
        rw [Nat.compare_eq_gt]
        rw [Nat.add_mul, Nat.one_mul] at hstep
        omega

/-- Reading a list to a larger width with a default is padding it. -/
theorem map_getD_range {α : Type} (l : List α) (d : α) {w : Nat} (hw : l.length ≤ w) :
    (List.range w).map (l.getD · d) = l ++ List.replicate (w - l.length) d := by
  apply List.ext_getElem?
  intro i
  rw [List.getElem?_map, List.getElem?_append]
  by_cases hi : i < w
  · rw [List.getElem?_range hi, Option.map_some, List.getD_eq_getElem?_getD]
    by_cases hl : i < l.length
    · rw [if_pos hl, List.getElem?_eq_getElem hl, Option.getD_some]
    · rw [if_neg hl, List.getElem?_eq_none (by omega), Option.getD_none,
        List.getElem?_replicate_of_lt (by omega)]
  · rw [List.getElem?_eq_none (by simpa using hi), Option.map_none, if_neg (by omega),
      List.getElem?_eq_none (by rw [List.length_replicate]; omega)]

/-- **Comparing by length and then from the left is comparing shifted numbers.** `p` and `q` digits
after the last one count for the length and read as zeros. -/
theorem compare_shifted {m n : Nat} (hm : 0 < m) (hn : 0 < n) (p q : Nat) :
    let width := List.range
      (max ((Nat.toDigits 10 m).length + p) ((Nat.toDigits 10 n).length + q))
    (compare ((Nat.toDigits 10 m).length + p) ((Nat.toDigits 10 n).length + q)).then
        (List.compareLex compare (width.map ((Nat.toDigits 10 m).getD · '0'))
          (width.map ((Nat.toDigits 10 n).getD · '0'))) =
      compare (m * 10 ^ p) (n * 10 ^ q) := by
  intro width
  -- A shorter number is a smaller one.
  have hshort : ∀ {m n : Nat} (p q : Nat), 0 < n →
      (Nat.toDigits 10 m).length + p < (Nat.toDigits 10 n).length + q →
        m * 10 ^ p < n * 10 ^ q := by
    intro m n p q hn hlt
    have hpos := Nat.length_toDigits_pos (b := 10) (n := n)
    calc m * 10 ^ p < 10 ^ (Nat.toDigits 10 m).length * 10 ^ p :=
          Nat.mul_lt_mul_of_pos_right (lt_pow_length m) (by positivity)
      _ = 10 ^ ((Nat.toDigits 10 m).length + p) := (pow_add _ _ _).symm
      _ ≤ 10 ^ ((Nat.toDigits 10 n).length - 1 + q) :=
          Nat.pow_le_pow_right (by decide) (by omega)
      _ = 10 ^ ((Nat.toDigits 10 n).length - 1) * 10 ^ q := pow_add _ _ _
      _ ≤ n * 10 ^ q := Nat.mul_le_mul_right _ (pow_length_le hn)
  rcases lt_trichotomy ((Nat.toDigits 10 m).length + p) ((Nat.toDigits 10 n).length + q) with
    hlt | heq | hgt
  · rw [Nat.compare_eq_lt.mpr hlt, Ordering.lt_then]
    exact (Nat.compare_eq_lt.mpr (hshort p q hn hlt)).symm
  · -- At one length the padded digits are those of the shifted numbers.
    have hdigits : ∀ (k : Nat) (c : Char) (r : Nat),
        c ∈ Nat.toDigits 10 k ++ List.replicate r '0' → c.isDigit = true := by
      intro k c r hc
      rcases List.mem_append.mp hc with h | h
      · exact isDigit_toDigits h
      · rw [(List.mem_replicate.mp h).2]
        rfl
    have hvalue : ∀ k r, value (Nat.toDigits 10 k ++ List.replicate r '0') = k * 10 ^ r := by
      intro k r
      rw [value_append, value_replicate_zero, List.length_replicate, Nat.add_zero, value,
        Nat.ofDigitChars_ten_toDigits]
    have hwidth : max ((Nat.toDigits 10 m).length + p) ((Nat.toDigits 10 n).length + q) =
        (Nat.toDigits 10 m).length + p := by omega
    have hp : (Nat.toDigits 10 m).length + p - (Nat.toDigits 10 m).length = p := by omega
    have hq : (Nat.toDigits 10 m).length + p - (Nat.toDigits 10 n).length = q := by omega
    rw [Nat.compare_eq_eq.mpr heq, Ordering.eq_then]
    simp only [width, hwidth]
    rw [map_getD_range _ _ (by omega), map_getD_range _ _ (by omega), hp, hq,
      compareLex_eq (hdigits m · p) (hdigits n · q) (by simpa using heq), hvalue, hvalue]
  · rw [Nat.compare_eq_gt.mpr hgt, Ordering.gt_then]
    exact (Nat.compare_eq_gt.mpr (hshort q p hm hgt)).symm

end Decimals

end Rypipe
