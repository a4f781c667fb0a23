import Rypipe.Columnar.ScalarParse
import Rypipe.Foundation.Decimals
import Mathlib.Data.Rat.Floor
import Mathlib.Tactic.FieldSimp

/-! # The text of decimals

What `parse_decimal128` accepts is a decimal numeral (`Numeral`), and what it returns is the value of
the numeral, scaled and cut to an integer (`parseDecimal128_eq_some_iff`). Formatting writes a
numeral of the value it was given, so parsing it gives the value back
(`parseDecimal128_formatDecimal128`). -/

namespace Rypipe

/-! ## Numerals -/

/-- The sign of a numeral: at most one, and a plus is not a minus. -/
inductive SignText : Bool → List Char → Prop
  | minus : SignText true ['-']
  | plus : SignText false ['+']
  | absent : SignText false []

/-- A decimal numeral: an optional sign, then digits with at most one point, at least one digit. -/
structure Numeral (cs : List Char) (neg : Bool) (int frac : List Char) : Prop where
  text : ∃ sign point, SignText neg sign ∧ cs = sign ++ (int ++ point) ∧
    ((point = [] ∧ frac = []) ∨ point = '.' :: frac)
  intDigits : ∀ c ∈ int, c.isDigit = true
  fracDigits : ∀ c ∈ frac, c.isDigit = true
  nonempty : ¬ (int = [] ∧ frac = [])

/-- The magnitude of a numeral. -/
def numeralValue (int frac : List Char) : Rat :=
  digitsValue int + digitsValue frac / 10 ^ frac.length

/-- The characters a numeral starts with after its sign. -/
theorem ne_of_isDigit {c : Char} (h : c.isDigit = true) : c ≠ '-' ∧ c ≠ '+' ∧ c ≠ '.' := by
  refine ⟨?_, ?_, ?_⟩ <;> rintro rfl <;> exact absurd h (by decide)

/-- A text without a sign is left alone. -/
theorem splitSign_of_ne {cs : List Char} (h : ∀ c, cs.head? = some c → c ≠ '-' ∧ c ≠ '+') :
    splitSign cs = (false, cs) := by
  unfold splitSign
  split
  · next rest => exact absurd rfl (h '-' rfl).1
  · next rest => exact absurd rfl (h '+' rfl).2
  · rfl

/-- The sign comes off. -/
theorem splitSign_append {neg : Bool} {sign rest : List Char} (h : SignText neg sign)
    (hrest : ∀ c, rest.head? = some c → c ≠ '-' ∧ c ≠ '+') :
    splitSign (sign ++ rest) = (neg, rest) := by
  cases h with
  | minus => rfl
  | plus => rfl
  | absent => exact splitSign_of_ne hrest

/-- Whatever was split off is a sign. -/
theorem signText_splitSign (cs : List Char) :
    ∃ sign, SignText (splitSign cs).1 sign ∧ cs = sign ++ (splitSign cs).2 := by
  unfold splitSign
  split
  · exact ⟨['-'], .minus, rfl⟩
  · exact ⟨['+'], .plus, rfl⟩
  · exact ⟨[], .absent, rfl⟩

/-- Digits stand before the first point. -/
theorem splitPoint_append {int point frac : List Char} (hint : ∀ c ∈ int, c.isDigit = true)
    (hpoint : (point = [] ∧ frac = []) ∨ point = '.' :: frac) :
    splitPoint (int ++ point) = (int, frac) := by
  have hpass : ∀ c ∈ int, (c != '.') = true := fun c hc => by
    simpa using (ne_of_isDigit (hint c hc)).2.2
  rw [splitPoint, List.takeWhile_append_of_pos hpass, List.dropWhile_append_of_pos hpass]
  rcases hpoint with ⟨rfl, rfl⟩ | rfl
  · simp
  · simp

/-- The parser's split of a text is the one that makes it a numeral. The sign is split off first,
then the integer part at the point; what is left on either side has to be digits, and one of the two
not empty. -/
theorem numeral_iff (cs : List Char) (neg : Bool) (int frac : List Char) :
    Numeral cs neg int frac ↔
      (splitSign cs).1 = neg ∧ splitPoint (splitSign cs).2 = (int, frac) ∧
        allDigits int = true ∧ allDigits frac = true ∧ ¬ (int = [] ∧ frac = []) := by
  constructor
  · rintro ⟨⟨sign, point, hsign, rfl, hpoint⟩, hint, hfrac, hne⟩
    -- what follows the sign begins with a digit or the point, so `splitSign` cuts right behind
    -- the sign
    have hhead : ∀ c, (int ++ point).head? = some c → c ≠ '-' ∧ c ≠ '+' := by
      intro c hc
      cases int with
      | cons d rest =>
        rw [List.cons_append, List.head?_cons, Option.some.injEq] at hc
        subst hc
        have hd := ne_of_isDigit (hint d List.mem_cons_self)
        exact ⟨hd.1, hd.2.1⟩
      | nil =>
        rcases hpoint with ⟨rfl, -⟩ | rfl
        · cases hc
        · rw [List.nil_append, List.head?_cons, Option.some.injEq] at hc
          subst hc
          exact ⟨by decide, by decide⟩
    rw [splitSign_append hsign hhead]
    exact ⟨rfl, splitPoint_append hint hpoint, List.all_eq_true.mpr hint,
      List.all_eq_true.mpr hfrac, hne⟩
  · rintro ⟨rfl, hsplit, hint, hfrac, hne⟩
    obtain ⟨sign, hsign, htext⟩ := signText_splitSign cs
    refine ⟨⟨sign, (splitSign cs).2.dropWhile (· != '.'), hsign, ?_, ?_⟩,
      List.all_eq_true.mp hint, List.all_eq_true.mp hfrac, hne⟩
    · rw [splitPoint, Prod.mk.injEq] at hsplit
      rw [← hsplit.1, List.takeWhile_append_dropWhile]
      exact htext
    · rw [splitPoint, Prod.mk.injEq] at hsplit
      rw [← hsplit.2]
      rcases hdrop : (splitSign cs).2.dropWhile (· != '.') with _ | ⟨c, rest⟩
      · exact .inl ⟨rfl, rfl⟩
      · have hc := List.head?_dropWhile_not (· != '.') (splitSign cs).2
        rw [hdrop] at hc
        have hpoint : c = '.' := by simpa using hc
        exact .inr (by rw [hpoint]; rfl)

/-! ## The scaled value -/

/-- The value of the integer digits and the kept fraction digits at the given scale. -/
def scaledDigits (int frac : List Char) (scale : Nat) : Nat :=
  digitsValue int * 10 ^ scale +
    digitsValue (frac.take scale) * 10 ^ (scale - (frac.take scale).length)

/-- Cutting the fraction digits off is cutting the scaled value to an integer. -/
theorem floor_numeralValue (int : List Char) {frac : List Char}
    (hfrac : ∀ c ∈ frac, c.isDigit = true) (scale : Nat) :
    ⌊numeralValue int frac * 10 ^ scale⌋ = scaledDigits int frac scale := by
  have hsplit : numeralValue int frac * 10 ^ scale =
      ((digitsValue int * 10 ^ scale : Nat) : Int) +
        ((digitsValue frac * 10 ^ scale : Nat) : Rat) / (10 ^ frac.length : Nat) := by
    rw [numeralValue]
    push_cast
    ring
  have hkept : digitsValue frac * 10 ^ scale / 10 ^ frac.length =
      digitsValue (frac.take scale) * 10 ^ (scale - (frac.take scale).length) := by
    by_cases hle : frac.length ≤ scale
    · have hpow : (10 : Nat) ^ scale = 10 ^ (scale - frac.length) * 10 ^ frac.length := by
        rw [← pow_add, Nat.sub_add_cancel hle]
      rw [List.take_of_length_le hle, hpow, ← Nat.mul_assoc, Nat.mul_div_cancel _ (by positivity)]
    · have hlen : (frac.take scale).length = scale := by
        rw [List.length_take]
        omega
      have hpow : (10 : Nat) ^ frac.length = 10 ^ (frac.drop scale).length * 10 ^ scale := by
        rw [← pow_add, List.length_drop]
        congr 1
        omega
      have htake : digitsValue (frac.take scale) =
          digitsValue frac / 10 ^ (frac.drop scale).length := Decimals.value_take hfrac scale
      rw [hlen, Nat.sub_self, pow_zero, Nat.mul_one, hpow,
        Nat.mul_div_mul_right _ _ (by positivity), htake]
  rw [hsplit, Int.floor_intCast_add, Rat.floor_natCast_div_natCast, scaledDigits, ← hkept]
  push_cast
  rfl

/-! ## Parsing -/

/-- A checked result that is not negative. -/
theorem checkedI128_natCast (n : Nat) :
    checkedI128 n = if n < 2 ^ 127 then some (n : Int) else none := by
  unfold checkedI128
  by_cases h : n < 2 ^ 127
  · rw [if_pos h, if_pos ⟨by omega, by omega⟩]
  · rw [if_neg h, if_neg (by omega)]

/-- The powers of ten up to `10^38` fit in an `i128`. -/
theorem pow_lt_of_le {n : Nat} (h : n ≤ 38) : 10 ^ n < 2 ^ 127 :=
  Nat.lt_of_le_of_lt (Nat.pow_le_pow_right (by norm_num) h) (by norm_num)

/-- `checked_pow` gives them. -/
theorem checkedPow10_of_le {n : Nat} (h : n ≤ 38) : checkedPow10 n = some ((10 ^ n : Nat) : Int) := by
  have hcast : ((10 : Int) ^ n) = ((10 ^ n : Nat) : Int) := by push_cast; rfl
  rw [checkedPow10, hcast, checkedI128_natCast, if_pos (pow_lt_of_le h)]

/-- The next power overflows. -/
theorem checkedPow10_of_lt {n : Nat} (h : 38 < n) : checkedPow10 n = none := by
  have hbig : (2 : Nat) ^ 127 ≤ 10 ^ n :=
    (show (2 : Nat) ^ 127 ≤ 10 ^ 39 by decide).trans (Nat.pow_le_pow_right (by decide) h)
  rw [checkedPow10, checkedI128, if_neg]
  rintro ⟨-, hlt⟩
  exact absurd (by exact_mod_cast hlt) (Nat.not_lt.mpr hbig)

/-- No decimal has more than 38 places: the power of ten for such a scale does not fit, and the
parser refuses every text. -/
theorem parseDecimal128_of_lt {scale : Nat} (h : 38 < scale) (s : String) :
    parseDecimal128 s scale = none := by
  have hnone : ∀ {α β γ : Type} (o : Option α) (k : α → β → Option γ),
      (o >>= fun a => (none : Option β) >>= k a) = none := by
    intro α β γ o k
    cases o with
    | none => rfl
    | some a => rfl
  unfold parseDecimal128
  dsimp only
  split
  · rfl
  · split
    · rfl
    · rw [checkedPow10_of_lt h]
      split
      · exact hnone _ _
      · exact hnone _ _

/-- The integer part may be missing, which counts as a zero. -/
theorem bind_intPart {β : Type} (int : List Char) (k : Int → Option β) :
    (if int.isEmpty then some 0 >>= k else checkedI128 (digitsValue int) >>= k) =
      checkedI128 (digitsValue int) >>= k := by
  cases int with
  | nil =>
    have hzero : checkedI128 (digitsValue ([] : List Char)) = some 0 := checkedI128_natCast 0
    rw [List.isEmpty_nil, if_pos rfl, hzero]
  | cons c rest => rfl

/-- The checked steps of the parser add up to one check of the scaled digits. Each of the checked
multiplications and additions fails only if the magnitude of the result does not fit, and every
intermediate value is at most the last one. -/
theorem parseDecimal128_of_numeral {s : String} {scale : Nat} (hscale : scale ≤ 38) {neg : Bool}
    {int frac : List Char} (h : Numeral (trim s).toList neg int frac) :
    parseDecimal128 s scale =
      if scaledDigits int frac scale < 2 ^ 127 then
        some (if neg then -(scaledDigits int frac scale : Int) else scaledDigits int frac scale)
      else none := by
  have hfrac := h.fracDigits
  obtain ⟨hneg, hsplit, hall, hall', hne⟩ := (numeral_iff _ _ _ _).mp h
  have hkept : ∀ c ∈ frac.take scale, c.isDigit = true :=
    fun c hc => hfrac c (List.mem_of_mem_take hc)
  have hlen : (frac.take scale).length ≤ scale := by
    rw [List.length_take]
    omega
  have hdigits : digitsValue (frac.take scale) < 10 ^ (frac.take scale).length :=
    Decimals.value_lt hkept
  have hpow : (10 : Nat) ^ scale < 2 ^ 127 := pow_lt_of_le hscale
  have hshort : (10 : Nat) ^ (frac.take scale).length ≤ 10 ^ scale :=
    Nat.pow_le_pow_right (by decide) hlen
  -- The kept digits, filled up to the scale, stay below one unit.
  have hunit : digitsValue (frac.take scale) * 10 ^ (scale - (frac.take scale).length) <
      10 ^ scale := by
    calc digitsValue (frac.take scale) * 10 ^ (scale - (frac.take scale).length)
        < 10 ^ (frac.take scale).length * 10 ^ (scale - (frac.take scale).length) :=
          Nat.mul_lt_mul_of_pos_right hdigits (by positivity)
      _ = 10 ^ scale := by rw [← pow_add, Nat.add_sub_cancel' hlen]
  have hone : digitsValue int ≤ digitsValue int * 10 ^ scale :=
    Nat.le_mul_of_pos_right _ (by positivity)
  have hsome : (int.isEmpty && frac.isEmpty) = false := by
    rw [Bool.and_eq_false_imp, List.isEmpty_iff]
    intro hint
    simpa using fun hfrac => hne ⟨hint, hfrac⟩
  unfold parseDecimal128
  simp only [hneg, hsplit, hsome, hall, hall', Bool.false_eq_true, Bool.and_self, Bool.not_true,
    if_false]
  rw [bind_intPart, checkedI128_natCast]
  unfold scaledDigits
  by_cases hsmall : digitsValue int < 2 ^ 127
  · rw [if_pos hsmall, Option.bind_eq_bind, Option.bind_some, checkedPow10_of_le hscale,
      Option.bind_some, ← Int.natCast_mul, checkedI128_natCast]
    by_cases hval : digitsValue int * 10 ^ scale < 2 ^ 127
    · rw [if_pos hval, Option.bind_some]
      by_cases hempty : frac.take scale = []
      · have hzero : digitsValue ([] : List Char) = 0 := rfl
        rw [hempty, List.isEmpty_nil, if_pos rfl, Option.bind_some, hzero, Nat.zero_mul,
          Nat.add_zero, if_pos hval]
      · have hmore : ¬ (frac.take scale).isEmpty = true := by simpa using hempty
        rw [if_neg hmore, checkedI128_natCast, if_pos (by omega), Option.bind_some,
          checkedPow10_of_le (by omega), Option.bind_some, ← Int.natCast_mul,
          checkedI128_natCast, if_pos (by omega), Option.bind_some, ← Int.natCast_add,
          checkedI128_natCast]
        split
        · rfl
        · rfl
    · rw [if_neg hval, Option.bind_none, if_neg (by omega)]
  · rw [if_neg hsmall, Option.bind_eq_bind, Option.bind_none, if_neg (by omega)]

/-- A text that is no numeral is refused. Each `?` of the parser is a clause of `Numeral`: a sign,
digits, and at most one point. -/
theorem numeral_of_parseDecimal128 {s : String} {scale : Nat} {v : Int}
    (h : parseDecimal128 s scale = some v) :
    ∃ neg int frac, Numeral (trim s).toList neg int frac := by
  rcases hsplit : splitPoint (splitSign (trim s).toList).2 with ⟨int, frac⟩
  refine ⟨_, int, frac, (numeral_iff (trim s).toList _ int frac).mpr ⟨rfl, hsplit, ?_⟩⟩
  unfold parseDecimal128 at h
  simp only [hsplit] at h
  split at h
  · cases h
  · next hsome =>
    split at h
    · cases h
    · next hdigits =>
      rw [Bool.and_eq_true, List.isEmpty_iff, List.isEmpty_iff] at hsome
      rw [Bool.not_eq_true, Bool.not_eq_false', Bool.and_eq_true] at hdigits
      exact ⟨hdigits.1, hdigits.2, hsome⟩

/-- What a decimal column stores can be written and read again: the parser never returns the one
value whose magnitude is `2^127`. -/
theorem parseDecimal128_range {s : String} {scale : Nat} (hscale : scale ≤ 38) {v : Int}
    (h : parseDecimal128 s scale = some v) : -2 ^ 127 < v ∧ v < 2 ^ 127 := by
  obtain ⟨neg, int, frac, hnumeral⟩ := numeral_of_parseDecimal128 h
  rw [parseDecimal128_of_numeral hscale hnumeral] at h
  by_cases hlt : scaledDigits int frac scale < 2 ^ 127
  · rw [if_pos hlt, Option.some.injEq] at h
    subst h
    cases neg <;> simp only [Bool.false_eq_true, if_false, if_true] <;> omega
  · rw [if_neg hlt] at h
    cases h

/-- **Parsing decimals is exact.** The parser returns a value exactly when the trimmed text is a
numeral whose magnitude, scaled and cut to an integer, is at most `2^127 - 1`, and the value is that
integer with the sign of the numeral. -/
theorem parseDecimal128_eq_some_iff {scale : Nat} (hscale : scale ≤ 38) (s : String) (v : Int) :
    parseDecimal128 s scale = some v ↔
      ∃ neg int frac, Numeral (trim s).toList neg int frac ∧
        ⌊numeralValue int frac * 10 ^ scale⌋ ≤ 2 ^ 127 - 1 ∧
        v = if neg then -⌊numeralValue int frac * 10 ^ scale⌋
          else ⌊numeralValue int frac * 10 ^ scale⌋ := by
  constructor
  · intro h
    obtain ⟨neg, int, frac, hnumeral⟩ := numeral_of_parseDecimal128 h
    refine ⟨neg, int, frac, hnumeral, ?_⟩
    rw [floor_numeralValue int hnumeral.fracDigits]
    rw [parseDecimal128_of_numeral hscale hnumeral] at h
    by_cases hlt : scaledDigits int frac scale < 2 ^ 127
    · rw [if_pos hlt, Option.some.injEq] at h
      exact ⟨by omega, h.symm⟩
    · rw [if_neg hlt] at h
      cases h
  · rintro ⟨neg, int, frac, hnumeral, hle, rfl⟩
    rw [floor_numeralValue int hnumeral.fracDigits] at hle ⊢
    rw [parseDecimal128_of_numeral hscale hnumeral, if_pos (by omega)]

/-- `"-1.234"` at scale 2 is a numeral, whose third fraction digit is cut off. -/
theorem parseDecimal128_eq_some_minus :
    ∃ neg int frac, Numeral (trim "-1.234").toList neg int frac ∧
      ⌊numeralValue int frac * 10 ^ 2⌋ ≤ 2 ^ 127 - 1 ∧
      (-123 : Int) = if neg then -⌊numeralValue int frac * 10 ^ 2⌋
        else ⌊numeralValue int frac * 10 ^ 2⌋ :=
  (parseDecimal128_eq_some_iff (by decide) "-1.234" (-123)).mp (by decide)

/-! ## Formatting -/

/-- Text without whitespace is not trimmed, so a formatted decimal is read as it was written. -/
theorem toList_trim {s : String} (h : ∀ c ∈ s.toList, isWhitespace c = false) :
    (trim s).toList = s.toList := by
  have hkeep : ∀ l : List Char, (∀ c ∈ l, isWhitespace c = false) →
      l.dropWhile isWhitespace = l := by
    intro l hl
    cases l with
    | nil => rfl
    | cons c rest => rw [List.dropWhile_cons, hl c List.mem_cons_self, if_neg Bool.false_ne_true]
  rw [trim, trimEnd, trimStart, String.toList_ofList, String.toList_ofList, hkeep _ h,
    hkeep _ fun c hc => h c (List.mem_reverse.mp hc), List.reverse_reverse]

/-- A digit is no whitespace. -/
theorem isWhitespace_of_isDigit {c : Char} (h : c.isDigit = true) : isWhitespace c = false := by
  rw [Char.isDigit_iff_toNat] at h
  have hzero : '0'.toNat = 48 := rfl
  have hnine : '9'.toNat = 57 := rfl
  simp only [isWhitespace, Bool.or_eq_false_iff, Bool.and_eq_false_iff, decide_eq_false_iff_not,
    beq_eq_false_iff_ne]
  omega

/-- The sign a number is written with. -/
def signText (v : Int) : List Char := if v < 0 then ['-'] else []

/-- The sign text of a number is a minus exactly if it is negative. -/
theorem signText_sign (v : Int) : SignText (decide (v < 0)) (signText v) := by
  unfold signText
  by_cases h : v < 0
  · rw [if_pos h, decide_eq_true h]
    exact .minus
  · rw [if_neg h, decide_eq_false h]
    exact .absent

/-- The text of an integer is its sign and the digits of its absolute value. -/
theorem toList_toString (v : Int) :
    (toString v).toList = signText v ++ Nat.toDigits 10 v.natAbs := by
  rw [Int.toString_eq_repr, Int.repr_eq_if]
  unfold signText
  by_cases h : v < 0
  · have habs : (-v).toNat = v.natAbs := by omega
    rw [if_neg (by omega), if_pos h, habs, String.toList_append, Nat.toList_repr]
    rfl
  · have habs : v.toNat = v.natAbs := by omega
    rw [if_pos (by omega), if_neg h, habs, Nat.toList_repr, List.nil_append]

/-- What is written: a sign, the integer digits, and as many fraction digits as the scale says. The
fraction is padded with zeros on the left, since the digits of the remainder may be fewer than the
scale. -/
theorem toList_formatDecimal128 (v : Int) (scale : Nat) :
    ∃ int point frac, (formatDecimal128 v scale).toList = signText v ++ (int ++ point) ∧
      ((point = [] ∧ frac = []) ∨ point = '.' :: frac) ∧
      (∀ c ∈ int, c.isDigit = true) ∧ (∀ c ∈ frac, c.isDigit = true) ∧ int ≠ [] ∧
      frac.length = scale ∧ Decimals.value (int ++ frac) = v.natAbs := by
  by_cases hzero : scale = 0
  · subst hzero
    refine ⟨Nat.toDigits 10 v.natAbs, [], [], ?_, .inl ⟨rfl, rfl⟩,
      fun c hc => Decimals.isDigit_toDigits hc, fun c hc => (List.not_mem_nil hc).elim,
      Nat.toDigits_ne_nil, rfl, ?_⟩
    · rw [formatDecimal128, if_pos rfl, toList_toString, List.append_nil]
    · rw [List.append_nil, Decimals.value, Nat.ofDigitChars_ten_toDigits]
  · -- The digits, filled up with zeros so that one stands before the point.
    obtain ⟨digits, hdigits, hall, hlen, hvalue⟩ : ∃ digits : List Char,
        (let d := (toString v.natAbs).toList
          if d.length ≤ scale then List.replicate (scale + 1 - d.length) '0' ++ d else d) =
            digits ∧
        (∀ c ∈ digits, c.isDigit = true) ∧ scale < digits.length ∧
        Decimals.value digits = v.natAbs := by
      have hnat : (toString v.natAbs).toList = Nat.toDigits 10 v.natAbs := Nat.toList_repr
      simp only [hnat]
      split
      · next hshort =>
        refine ⟨_, rfl, ?_, ?_, ?_⟩
        · intro c hc
          rcases List.mem_append.mp hc with h | h
          · rw [(List.mem_replicate.mp h).2]
            rfl
          · exact Decimals.isDigit_toDigits h
        · rw [List.length_append, List.length_replicate]
          omega
        · rw [Decimals.value_append, Decimals.value_replicate_zero, Nat.zero_mul, Nat.zero_add,
            Decimals.value, Nat.ofDigitChars_ten_toDigits]
      · next hlong =>
        refine ⟨_, rfl, fun c hc => Decimals.isDigit_toDigits hc, by omega, ?_⟩
        rw [Decimals.value, Nat.ofDigitChars_ten_toDigits]
    -- the point stands `scale` digits before the end
    refine ⟨digits.take (digits.length - scale), '.' :: digits.drop (digits.length - scale),
      digits.drop (digits.length - scale), ?_, .inr rfl,
      fun c hc => hall c (List.mem_of_mem_take hc), fun c hc => hall c (List.mem_of_mem_drop hc),
      ?_, ?_, ?_⟩
    · unfold formatDecimal128
      rw [if_neg hzero]
      simp only at hdigits ⊢
      rw [hdigits, String.toList_ofList, signText, List.append_assoc]
    · intro hnil
      have hcount := congrArg List.length hnil
      rw [List.length_take, List.length_nil] at hcount
      omega
    · rw [List.length_drop]
      omega
    · rw [List.take_append_drop, hvalue]

/-- **Formatting and parsing round trip.** The text that is written is a numeral whose fraction has
`scale` digits, so the parser has nothing to round or to pad and gets the value back. -/
theorem parseDecimal128_formatDecimal128 {v : Int} {scale : Nat} (hscale : scale ≤ 38)
    (hlow : -2 ^ 127 < v) (hhigh : v < 2 ^ 127) :
    parseDecimal128 (formatDecimal128 v scale) scale = some v := by
  obtain ⟨int, point, frac, htext, hpoint, hint, hfrac, hne, hlen, hvalue⟩ :=
    toList_formatDecimal128 v scale
  -- the text has no white space, so trimming leaves it as it is
  have hclean : ∀ c ∈ (formatDecimal128 v scale).toList, isWhitespace c = false := by
    rw [htext]
    intro c hc
    rcases List.mem_append.mp hc with hsign | hrest
    · unfold signText at hsign
      split at hsign
      · rw [List.mem_singleton.mp hsign]
        rfl
      · cases hsign
    · rcases List.mem_append.mp hrest with hc | hc
      · exact isWhitespace_of_isDigit (hint c hc)
      · rcases hpoint with ⟨rfl, -⟩ | rfl
        · cases hc
        · rcases List.mem_cons.mp hc with rfl | hc
          · rfl
          · exact isWhitespace_of_isDigit (hfrac c hc)
  have hnumeral : Numeral (trim (formatDecimal128 v scale)).toList (decide (v < 0)) int frac := by
    rw [toList_trim hclean]
    exact ⟨⟨signText v, point, signText_sign v, htext, hpoint⟩, hint, hfrac, fun h => hne h.1⟩
  -- the digits are those of the value, none of them cut off
  have hscaled : scaledDigits int frac scale = v.natAbs := by
    have htake : frac.take scale = frac := List.take_of_length_le hlen.le
    rw [Decimals.value_append, hlen] at hvalue
    rw [scaledDigits, htake, hlen, Nat.sub_self, pow_zero, Nat.mul_one]
    exact hvalue
  rw [parseDecimal128_of_numeral hscale hnumeral, hscaled, if_pos (by omega)]
  by_cases hneg : v < 0
  · simp only [hneg, decide_true, if_true, Option.some.injEq]
    omega
  · simp only [hneg, decide_false, Bool.false_eq_true, if_false, Option.some.injEq]
    omega

end Rypipe
