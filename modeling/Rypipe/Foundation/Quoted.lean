import Rypipe.Foundation.Slices

/-! # Scanning past quoted regions

A text over any alphabet, some symbols of which are quotes. A quote symbol opens a region that only
the same symbol closes; inside a region every other symbol is literal. `quoteState` runs this
automaton over a stretch of text, and `Free` are the positions that hold a symbol outside every
region, when the scan starts outside. The questions asked of such a scan are for a least position,
`Least`. -/

namespace Rypipe

universe u

/-! ## The least position of a property -/

/-- No position of `[a, b)` has the property. -/
def NoneIn (P : Nat → Prop) (a b : Nat) : Prop := ∀ i, a ≤ i → i < b → ¬ P i

/-- `r` is the least position from `start` on that has the property; `none` when none has. -/
def Least (P : Nat → Prop) (start : Nat) : Option Nat → Prop
  | some p => start ≤ p ∧ P p ∧ NoneIn P start p
  | none => ∀ i, start ≤ i → ¬ P i

section Least

variable {P Q : Nat → Prop}

theorem noneIn_self (P : Nat → Prop) (a : Nat) : NoneIn P a a := fun _ ha hb =>
  absurd hb (Nat.not_lt.mpr ha)

/-- Adjacent stretches. -/
theorem NoneIn.trans {a m b : Nat} (h₁ : NoneIn P a m) (h₂ : NoneIn P m b) : NoneIn P a b := by
  intro i ha hb
  by_cases hm : i < m
  · exact h₁ i ha hm
  · exact h₂ i (Nat.le_of_not_lt hm) hb

/-- A stretch without the property may be skipped. -/
theorem Least.skip {a m : Nat} {r : Option Nat} (ham : a ≤ m) (hskip : NoneIn P a m)
    (h : Least P m r) : Least P a r := by
  cases r with
  | none =>
    intro i ha
    by_cases hm : i < m
    · exact hskip i ha hm
    · exact h i (Nat.le_of_not_lt hm)
  | some p => exact ⟨Nat.le_trans ham h.1, h.2.1, hskip.trans h.2.2⟩

/-- Only the positions from the start on matter. -/
theorem Least.congr {a : Nat} {r : Option Nat} (hPQ : ∀ i, a ≤ i → (P i ↔ Q i))
    (h : Least P a r) : Least Q a r := by
  cases r with
  | none => exact fun i ha hq => h i ha ((hPQ i ha).mpr hq)
  | some p =>
    refine ⟨h.1, (hPQ p h.1).mp h.2.1, ?_⟩
    intro i ha hi hq
    exact h.2.2 i ha hi ((hPQ i ha).mpr hq)

/-- Nothing is found from a bound on that no position with the property reaches. -/
theorem least_none_of_bound {a n : Nat} (hP : ∀ i, P i → i < n) (ha : n ≤ a) : Least P a none :=
  fun i hi hp => absurd (hP i hp) (by omega)

/-- A skipped stretch that reaches the bound leaves nothing to find. -/
theorem NoneIn.least_none {a m n : Nat} (hP : ∀ i, P i → i < n) (h : NoneIn P a m)
    (hm : n ≤ m) : Least P a none := fun i ha hp =>
  h i ha (Nat.lt_of_lt_of_le (hP i hp) hm) hp

end Least

/-! ## The automaton of quoted regions -/

section Automaton

variable {α : Type u} [DecidableEq α]

/-- One symbol: outside a region a quote opens one, inside only the same symbol closes it. -/
def quoteStep (isQuote : α → Bool) : Option α → α → Option α
  | none, b => if isQuote b then some b else none
  | some q, b => if b = q then none else some q

/-- The region a stretch of text ends in, from the one it starts in. -/
def quoteState (isQuote : α → Bool) (s : Option α) (text : List α) : Option α :=
  text.foldl (quoteStep isQuote) s

/-- The region position `i` lies in, when the scan starts outside at `start`. -/
def regionAt (isQuote : α → Bool) (text : List α) (start i : Nat) : Option α :=
  quoteState isQuote none (slice text start i)

/-- Position `i` holds `d` outside every region. -/
def Free (isQuote : α → Bool) (text : List α) (start : Nat) (d : α) (i : Nat) : Prop :=
  text[i]? = some d ∧ regionAt isQuote text start i = none

variable {isQuote : α → Bool} {text : List α} {start : Nat}

@[simp] theorem regionAt_self (text : List α) (start : Nat) :
    regionAt isQuote text start start = none := by
  simp [regionAt, quoteState]

/-- One more position: the automaton takes its symbol. -/
theorem regionAt_succ {i : Nat} {b : α} (hi : start ≤ i) (hb : text[i]? = some b) :
    regionAt isQuote text start (i + 1) = quoteStep isQuote (regionAt isQuote text start i) b := by
  have hone : slice text i (i + 1) = [b] := by
    rw [slice, Nat.add_sub_cancel_left]
    obtain ⟨hlt, rfl⟩ := List.getElem?_eq_some_iff.mp hb
    rw [List.drop_eq_getElem_cons hlt, List.take_succ_cons, List.take_zero]
  rw [regionAt, ← slice_append text hi (Nat.le_succ i), hone, quoteState, List.foldl_append]
  rfl

/-- Past the end of the text nothing is read. -/
theorem regionAt_succ_of_end {i : Nat} (hi : start ≤ i) (hb : text[i]? = none) :
    regionAt isQuote text start (i + 1) = regionAt isQuote text start i := by
  have hlen : text.length ≤ i := List.getElem?_eq_none_iff.mp hb
  have hnone : slice text i (i + 1) = [] := by
    rw [slice, List.drop_eq_nil_of_le hlen, List.take_nil]
  rw [regionAt, ← slice_append text hi (Nat.le_succ i), hnone, List.append_nil, regionAt]

/-- A scan may be started again wherever it is outside. -/
theorem regionAt_restart {m i : Nat} (hm : start ≤ m) (hi : m ≤ i)
    (hout : regionAt isQuote text start m = none) :
    regionAt isQuote text start i = regionAt isQuote text m i := by
  rw [regionAt, ← slice_append text hm hi, quoteState, List.foldl_append]
  change quoteState isQuote (regionAt isQuote text start m) _ = _
  rw [hout, regionAt]

/-- A region is that of a quote, or the one the stretch starts in. -/
theorem isQuote_of_quoteState {s : Option α} {q : α} (h : quoteState isQuote s text = some q) :
    s = some q ∨ isQuote q = true := by
  induction text generalizing s with
  | nil => exact .inl h
  | cons b rest ih =>
    rcases ih h with hstep | hquote
    · cases s with
      | none =>
        rw [quoteStep] at hstep
        split at hstep
        · rename_i hb
          exact .inr (Option.some.inj hstep ▸ hb)
        · exact absurd hstep (by simp)
      | some c =>
        rw [quoteStep] at hstep
        split at hstep
        · exact absurd hstep (by simp)
        · exact .inl hstep
    · exact .inr hquote

/-- A scan that starts outside is only ever inside the region of a quote. -/
theorem isQuote_of_regionAt {i : Nat} {q : α} (h : regionAt isQuote text start i = some q) :
    isQuote q = true := by
  rcases isQuote_of_quoteState h with hnone | hquote
  · exact absurd hnone (by simp)
  · exact hquote

/-- Outside a region, a stretch without a quote stays outside. Each position of it opens nothing, so
the state is the same at its end. -/
theorem regionAt_of_no_quote {a b : Nat} (ha : start ≤ a) (hab : a ≤ b)
    (hout : regionAt isQuote text start a = none)
    (hnone : ∀ i q, a ≤ i → i < b → text[i]? = some q → isQuote q = false) :
    regionAt isQuote text start b = none := by
  induction b, hab using Nat.le_induction with
  | base => exact hout
  | succ b hab ih =>
    have hb := ih fun i q hi hlt => hnone i q hi (Nat.lt_succ_of_lt hlt)
    cases hsymbol : text[b]? with
    | none => rw [regionAt_succ_of_end (ha.trans hab) hsymbol, hb]
    | some q =>
      rw [regionAt_succ (ha.trans hab) hsymbol, hb, quoteStep,
        if_neg (by simp [hnone b q hab (Nat.lt_succ_self b) hsymbol])]

/-- Inside a region, a stretch without its own quote stays inside. -/
theorem regionAt_of_inside {a b : Nat} {q : α} (ha : start ≤ a) (hab : a ≤ b)
    (hin : regionAt isQuote text start a = some q)
    (hnone : ∀ i, a ≤ i → i < b → text[i]? ≠ some q) :
    regionAt isQuote text start b = some q := by
  induction b, hab using Nat.le_induction with
  | base => exact hin
  | succ b hab ih =>
    have hb := ih fun i hi hlt => hnone i hi (Nat.lt_succ_of_lt hlt)
    cases hsymbol : text[b]? with
    | none => rw [regionAt_succ_of_end (ha.trans hab) hsymbol, hb]
    | some c =>
      have hne : c ≠ q := fun heq => hnone b hab (Nat.lt_succ_self b) (heq ▸ hsymbol)
      rw [regionAt_succ (ha.trans hab) hsymbol, hb, quoteStep, if_neg hne]

/-- The first quote after a stretch outside opens its region. -/
theorem regionAt_open {i : Nat} {q : α} (hi : start ≤ i)
    (hout : regionAt isQuote text start i = none) (hq : text[i]? = some q)
    (hquote : isQuote q = true) : regionAt isQuote text start (i + 1) = some q := by
  rw [regionAt_succ hi hq, hout, quoteStep, if_pos hquote]

/-- The next equal quote closes the region. -/
theorem regionAt_close {i : Nat} {q : α} (hi : start ≤ i)
    (hin : regionAt isQuote text start i = some q) (hq : text[i]? = some q) :
    regionAt isQuote text start (i + 1) = none := by
  rw [regionAt_succ hi hq, hin, quoteStep, if_pos rfl]

/-- Where one symbol is the only quote, the region alternates with the running parity of its
positions. -/
theorem regionAt_of_single {a b : Nat} {q : α} (ha : start ≤ a) (hab : a ≤ b)
    (hquote : isQuote q = true) (hout : regionAt isQuote text start a = none)
    (hsingle : ∀ i c, a ≤ i → i < b → text[i]? = some c → isQuote c = true → c = q)
    (odd : Nat → Bool) (hstart : odd a = false)
    (hodd : ∀ i, a ≤ i → i < b → odd (i + 1) = xor (odd i) (decide (text[i]? = some q))) :
    regionAt isQuote text start b = if odd b then some q else none := by
  induction b, hab using Nat.le_induction with
  | base => simp [hout, hstart]
  | succ b hab ih =>
    have hb := ih (fun i c hi hlt => hsingle i c hi (Nat.lt_succ_of_lt hlt))
      (fun i hi hlt => hodd i hi (Nat.lt_succ_of_lt hlt))
    rw [hodd b hab (Nat.lt_succ_self b)]
    cases hsymbol : text[b]? with
    | none =>
      rw [regionAt_succ_of_end (ha.trans hab) hsymbol, hb]
      simp
    | some c =>
      rw [regionAt_succ (ha.trans hab) hsymbol, hb]
      by_cases hcq : c = q
      · subst hcq
        cases odd b <;> simp [quoteStep, hquote]
      · have hplain : isQuote c = false := by
          by_contra hyes
          exact hcq (hsingle b c hab (Nat.lt_succ_self b) hsymbol (by simpa using hyes))
        cases odd b <;> simp [quoteStep, hcq, hplain]

/-- Inside a region nothing is free. -/
theorem noneIn_free_of_inside {a b : Nat} {q d : α} (ha : start ≤ a)
    (hin : regionAt isQuote text start a = some q)
    (hnone : ∀ i, a ≤ i → i < b → text[i]? ≠ some q) :
    NoneIn (Free isQuote text start d) a b := by
  intro i hai hib hfree
  have hregion := regionAt_of_inside ha hai hin fun j hj hlt => hnone j hj (hlt.trans hib)
  rw [hfree.2] at hregion
  exact absurd hregion (by simp)

/-- A stretch that does not hold the symbol has no free one. -/
theorem noneIn_free_of_absent {a b : Nat} {d : α}
    (hnone : ∀ i, a ≤ i → i < b → text[i]? ≠ some d) :
    NoneIn (Free isQuote text start d) a b := fun i ha hb hfree => hnone i ha hb hfree.1

/-- What is free lies in the text. -/
theorem Free.lt_length {d : α} {i : Nat} (h : Free isQuote text start d i) : i < text.length :=
  (List.getElem?_eq_some_iff.mp h.1).1

/-! ## Doubled quotes

A doubled quote closes a region and opens it again with nothing in between, so that it counts as a
literal quote of the region. -/

/-- Position `i` holds the quote that ends the region it lies in: it is not doubled. -/
def Closing (isQuote : α → Bool) (text : List α) (start : Nat) (i : Nat) : Prop :=
  ∃ q, regionAt isQuote text start i = some q ∧ text[i]? = some q ∧ text[i + 1]? ≠ some q

/-- After a closing quote the scan is outside. -/
theorem Closing.outside {i : Nat} (hi : start ≤ i) (h : Closing isQuote text start i) :
    regionAt isQuote text start (i + 1) = none := by
  obtain ⟨q, hin, hq, -⟩ := h
  exact regionAt_close hi hin hq

/-- A closing quote lies in the text. -/
theorem Closing.lt_length {i : Nat} (h : Closing isQuote text start i) : i < text.length := by
  obtain ⟨q, -, hq, -⟩ := h
  exact (List.getElem?_eq_some_iff.mp hq).1

/-- Up to its closing quote a region is left only between the two quotes of a doubled one. -/
theorem inside_or_doubled {a b : Nat} {q : α} (ha : start ≤ a) (hab : a ≤ b)
    (hin : regionAt isQuote text start a = some q)
    (hnone : NoneIn (Closing isQuote text start) a b) :
    regionAt isQuote text start b = some q ∨
      regionAt isQuote text start b = none ∧ text[b]? = some q := by
  have hquote : isQuote q = true := isQuote_of_regionAt hin
  induction b, hab using Nat.le_induction with
  | base => exact .inl hin
  | succ b hab ih =>
    have hstart : start ≤ b := ha.trans hab
    rcases ih fun i hi hlt => hnone i hi (Nat.lt_succ_of_lt hlt) with hb | ⟨hb, hq⟩
    · by_cases hq : text[b]? = some q
      · -- a quote inside is doubled, as it does not close the region
        have hdoubled : text[b + 1]? = some q := by
          by_contra hne
          exact hnone b hab (Nat.lt_succ_self b) ⟨q, hb, hq, hne⟩
        exact .inr ⟨regionAt_close hstart hb hq, hdoubled⟩
      · refine .inl (regionAt_of_inside hstart (Nat.le_succ b) hb ?_)
        intro i hi hlt
        obtain rfl : i = b := by omega
        exact hq
    · exact .inl (regionAt_open hstart hb hq hquote)

/-- Up to its closing quote nothing but the quote is free in a region. -/
theorem noneIn_free_of_region {a b : Nat} {q d : α} (ha : start ≤ a) (hd : d ≠ q)
    (hin : regionAt isQuote text start a = some q)
    (hnone : NoneIn (Closing isQuote text start) a b) :
    NoneIn (Free isQuote text start d) a b := by
  intro i hi hlt hfree
  rcases inside_or_doubled ha hi hin fun j hj hji => hnone j hj (hji.trans hlt) with h | ⟨-, hq⟩
  · rw [hfree.2] at h
    cases h
  · rw [hfree.1, Option.some.injEq] at hq
    exact hd hq

end Automaton

end Rypipe
