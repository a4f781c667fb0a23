import Mathlib.Data.List.AList
import Mathlib.Data.List.Dedup
import Mathlib.Data.List.Infix

/-! # Interning

An `Interner α` gives each distinct value a code, its position in the list of values, and finds the
code of a value again through a side index. The two tables are independent data; `Interner.WF` says
that the index is exactly the inverse of the list, and interning keeps it.

A sequence of optional codes is read back through the list of values (`decodeAll`), and the values
of one interner can be interned into another, which gives the translation of the codes
(`internAll`). -/

namespace Rypipe

universe u

/-- Distinct values with their codes. -/
structure Interner (α : Type u) where
  /-- The values, each at its code. -/
  values : List α
  /-- The code of each value. -/
  index : AList fun _ : α => Nat

namespace Interner

variable {α : Type u}

/-- The interner with no value. -/
def empty : Interner α := ⟨[], ∅⟩

/-- Read a code back. -/
def decode (d : Interner α) (code : Option Nat) : Option α := code.bind fun k => d.values[k]?

/-- Read a sequence of codes back. -/
def decodeAll (d : Interner α) (codes : List (Option Nat)) : List (Option α) := codes.map d.decode

@[simp] theorem decode_none (d : Interner α) : d.decode none = none := rfl

@[simp] theorem decode_some (d : Interner α) (k : Nat) : d.decode (some k) = d.values[k]? := rfl

@[simp] theorem length_decodeAll (d : Interner α) (codes : List (Option Nat)) :
    (d.decodeAll codes).length = codes.length := by
  simp [decodeAll]

/-- Every present code is the code of a value. -/
def Covers (d : Interner α) (codes : List (Option Nat)) : Prop :=
  ∀ k, some k ∈ codes → k < d.values.length

/-- A code in range is read the same through any extension of the values. -/
theorem decode_extend {d e : Interner α} (h : d.values <+: e.values) {code : Option Nat}
    (hcode : ∀ k, code = some k → k < d.values.length) : e.decode code = d.decode code := by
  cases code with
  | none => rfl
  | some k =>
      obtain ⟨tail, htail⟩ := h
      rw [decode_some, decode_some, ← htail, List.getElem?_append_left (hcode k rfl)]

/-- Codes in range are read the same through any extension of the values. -/
theorem decodeAll_extend {d e : Interner α} (h : d.values <+: e.values)
    {codes : List (Option Nat)} (hcodes : d.Covers codes) :
    e.decodeAll codes = d.decodeAll codes := by
  refine List.map_congr_left fun code hcode => decode_extend h fun k hk => ?_
  exact hcodes k (hk ▸ hcode)

/-- Codes that an interner covers are covered by any longer one. -/
theorem Covers.extend {d e : Interner α} {codes : List (Option Nat)} (hc : d.Covers codes)
    (h : d.values <+: e.values) : e.Covers codes :=
  fun k hk => Nat.lt_of_lt_of_le (hc k hk) h.length_le

/-- Two lists of covered codes make one. -/
theorem Covers.append {d : Interner α} {codes codes' : List (Option Nat)} (h : d.Covers codes)
    (h' : d.Covers codes') : d.Covers (codes ++ codes') := by
  intro k hk
  rcases List.mem_append.mp hk with hk | hk
  exacts [h k hk, h' k hk]

variable [DecidableEq α]

/-- The code of `a`, a new one if `a` has none yet. -/
def intern (d : Interner α) (a : α) : Nat × Interner α :=
  match d.index.lookup a with
  | some code => (code, d)
  | none => (d.values.length, ⟨d.values ++ [a], d.index.insert a d.values.length⟩)

/-- Intern a list of values in order, collecting the codes. -/
def internAll (d : Interner α) : List α → List Nat × Interner α
  | [] => ([], d)
  | a :: as =>
      let (code, d) := d.intern a
      let (codes, d) := d.internAll as
      (code :: codes, d)

/-- Intern a list of optional values, absent ones getting no code. -/
def internOpts (d : Interner α) : List (Option α) → List (Option Nat) × Interner α
  | [] => ([], d)
  | none :: as =>
      let (codes, d) := d.internOpts as
      (none :: codes, d)
  | some a :: as =>
      let (code, d) := d.intern a
      let (codes, d) := d.internOpts as
      (some code :: codes, d)

/-- The index is the inverse of the list of values. -/
def WF (d : Interner α) : Prop := ∀ a k, d.index.lookup a = some k ↔ d.values[k]? = some a

/-- The empty interner is well formed. -/
theorem empty_wf : (empty : Interner α).WF := by
  intro a k
  simp [empty]

/-- Interning a value with a code changes nothing. -/
theorem intern_of_lookup {d : Interner α} {a : α} {k : Nat} (h : d.index.lookup a = some k) :
    d.intern a = (k, d) := by
  rw [intern, h]

/-- Interning a new value appends it. -/
theorem intern_of_lookup_none {d : Interner α} {a : α} (h : d.index.lookup a = none) :
    d.intern a = (d.values.length, ⟨d.values ++ [a], d.index.insert a d.values.length⟩) := by
  rw [intern, h]

/-- Interning only appends to the values. -/
theorem prefix_intern (d : Interner α) (a : α) : d.values <+: (d.intern a).2.values := by
  rcases h : d.index.lookup a with _ | k
  · rw [intern_of_lookup_none h]
    exact List.prefix_append _ _
  · rw [intern_of_lookup h]

/-- Interning keeps an interner well formed: a value that is new gets the next code. -/
theorem intern_wf {d : Interner α} (hd : d.WF) (a : α) : (d.intern a).2.WF := by
  rcases h : d.index.lookup a with _ | k
  · rw [intern_of_lookup_none h]
    -- the value was not in the table, so its code is a new one
    have hfresh : ∀ k : Nat, d.values[k]? ≠ some a := by
      intro k hk
      rw [(hd a k).mpr hk] at h
      cases h
    intro b k
    by_cases hb : b = a
    · subst hb
      rw [AList.lookup_insert]
      constructor
      · rintro ⟨rfl⟩
        simp
      · intro hk
        rw [List.getElem?_append] at hk
        split at hk
        · exact absurd hk (hfresh k)
        · next hlt =>
          rw [List.getElem?_singleton] at hk
          split at hk
          · congr 1
            omega
          · cases hk
    · rw [AList.lookup_insert_ne hb, hd b k, List.getElem?_append]
      split
      · rfl
      · next hlt =>
        rw [List.getElem?_eq_none (not_lt.mp hlt), List.getElem?_singleton]
        split
        · simp [Ne.symm hb]
        · rfl
  · rw [intern_of_lookup h]
    exact hd

/-- The code of a value reads back as the value. -/
theorem values_intern {d : Interner α} (hd : d.WF) (a : α) :
    (d.intern a).2.values[(d.intern a).1]? = some a := by
  rcases h : d.index.lookup a with _ | k
  · rw [intern_of_lookup_none h]
    simp
  · rw [intern_of_lookup h]
    exact (hd a k).mp h

/-- A value interned last is read back by one more code. -/
theorem covers_append_intern {d : Interner α} (hd : d.WF) {codes : List (Option Nat)}
    (hc : d.Covers codes) (a : α) :
    (d.intern a).2.Covers (codes ++ [some (d.intern a).1]) := by
  intro k hk
  rcases List.mem_append.mp hk with hk | hk
  · exact Nat.lt_of_lt_of_le (hc k hk) (prefix_intern d a).length_le
  · rw [List.mem_singleton, Option.some.injEq] at hk
    subst hk
    exact (List.getElem?_eq_some_iff.mp (values_intern hd a)).1

/-- Pushing the code of an interned value appends that value to what is read back. -/
theorem decodeAll_append_intern {d : Interner α} (hd : d.WF) {codes : List (Option Nat)}
    (hc : d.Covers codes) (a : α) :
    (d.intern a).2.decodeAll (codes ++ [some (d.intern a).1]) = d.decodeAll codes ++ [some a] := by
  rw [decodeAll, List.map_append, ← decodeAll, decodeAll_extend (prefix_intern d a) hc]
  simp [values_intern hd a]

/-- Interning a list only adds values at the end. -/
theorem prefix_internAll (d : Interner α) (as : List α) :
    d.values <+: (d.internAll as).2.values := by
  induction as generalizing d with
  | nil => exact List.prefix_refl _
  | cons a as ih => exact (prefix_intern d a).trans (ih (d.intern a).2)

/-- Interning a list keeps the interner well formed, by induction on the list. -/
theorem internAll_wf {d : Interner α} (hd : d.WF) (as : List α) : (d.internAll as).2.WF := by
  induction as generalizing d with
  | nil => exact hd
  | cons a as ih => exact ih (intern_wf hd a)

@[simp] theorem length_internAll (d : Interner α) (as : List α) :
    (d.internAll as).1.length = as.length := by
  induction as generalizing d with
  | nil => rfl
  | cons a as ih => simpa [internAll] using ih (d.intern a).2

/-- No value has two codes. -/
theorem WF.nodup {d : Interner α} (hd : d.WF) : d.values.Nodup := by
  rw [List.nodup_iff_getElem?_ne_getElem?]
  intro i j hij hj heq
  obtain ⟨a, ha⟩ : ∃ a, d.values[j]? = some a := ⟨_, List.getElem?_eq_getElem hj⟩
  have hi := (hd a i).mpr (heq.trans ha)
  rw [(hd a j).mpr ha, Option.some.injEq] at hi
  omega

/-- A value has no code exactly when it is not one of the values. -/
theorem WF.lookup_eq_none {d : Interner α} (hd : d.WF) (a : α) :
    d.index.lookup a = none ↔ a ∉ d.values := by
  rw [Option.eq_none_iff_forall_ne_some, List.mem_iff_getElem?, not_exists]
  exact forall_congr' fun k => not_congr (hd a k)

/-- The values after interning one more. -/
theorem mem_values_intern {d : Interner α} (hd : d.WF) (a b : α) :
    b ∈ (d.intern a).2.values ↔ b ∈ d.values ∨ b = a := by
  rcases h : d.index.lookup a with _ | k
  · rw [intern_of_lookup_none h, List.mem_append, List.mem_singleton]
  · rw [intern_of_lookup h]
    refine ⟨.inl, ?_⟩
    rintro (hb | rfl)
    exacts [hb, List.mem_of_getElem? ((hd b k).mp h)]

/-- The values after interning a list. -/
theorem mem_values_internAll {d : Interner α} (hd : d.WF) (as : List α) (b : α) :
    b ∈ (d.internAll as).2.values ↔ b ∈ d.values ∨ b ∈ as := by
  induction as generalizing d with
  | nil => simp [internAll]
  | cons a as ih =>
      show b ∈ ((d.intern a).2.internAll as).2.values ↔ _
      rw [ih (intern_wf hd a), mem_values_intern hd, List.mem_cons, or_assoc]

/-- Interning a list in two parts. -/
theorem internAll_append (d : Interner α) (as bs : List α) :
    (d.internAll (as ++ bs)).2 = ((d.internAll as).2.internAll bs).2 := by
  induction as generalizing d with
  | nil => rfl
  | cons a as ih => exact ih (d.intern a).2

/-- The first `a` of the list comes after `k` different elements. -/
def ComesAfter (a : α) (as : List α) (k : Nat) : Prop :=
  ∃ before after, as = before ++ a :: after ∧ a ∉ before ∧ before.dedup.length = k

/-- A list is interned to its different elements. -/
theorem length_values_internAll (as : List α) :
    (empty.internAll as).2.values.length = as.dedup.length := by
  have hwf := internAll_wf (empty_wf (α := α)) as
  refine List.Perm.length_eq ((List.perm_ext_iff_of_nodup hwf.nodup as.nodup_dedup).mpr fun b => ?_)
  rw [mem_values_internAll empty_wf, List.mem_dedup]
  exact or_iff_right List.not_mem_nil

/-- The first appearance of an element gives it the next code. That is the number of distinct
elements before it, and what comes later does not change it. -/
theorem getElem?_values_of_first {a : α} {before : List α} (h : a ∉ before) (after : List α) :
    (empty.internAll (before ++ a :: after)).2.values[before.dedup.length]? = some a := by
  have hwf := internAll_wf (empty_wf (α := α)) before
  have hnew : a ∉ (empty.internAll before).2.values := by
    rw [mem_values_internAll empty_wf]
    exact fun ha => h (ha.resolve_left List.not_mem_nil)
  have hstep := intern_of_lookup_none ((hwf.lookup_eq_none a).mpr hnew)
  have hvalues : ((empty.internAll before).2.intern a).2.values =
      (empty.internAll before).2.values ++ [a] := by
    rw [hstep]
  obtain ⟨rest, hrest⟩ := prefix_internAll ((empty.internAll before).2.intern a).2 after
  rw [internAll_append]
  show (((empty.internAll before).2.intern a).2.internAll after).2.values[_]? = _
  rw [← hrest, hvalues, ← length_values_internAll, List.append_assoc, List.getElem?_append_right le_rfl,
    Nat.sub_self]
  rfl

/-- **The values of an interned list** are its elements in the order of their first appearance: the code
of an element is the number of different elements before it. -/
theorem getElem?_values_internAll (as : List α) {a : α} {k : Nat} :
    (empty.internAll as).2.values[k]? = some a ↔ ComesAfter a as k := by
  constructor
  · intro hk
    have hmem : a ∈ as := by
      have hin := List.mem_of_getElem? hk
      rw [mem_values_internAll empty_wf] at hin
      exact hin.resolve_left List.not_mem_nil
    obtain ⟨before, after, rfl, hbefore⟩ := List.eq_append_cons_of_mem hmem
    refine ⟨before, after, rfl, hbefore, ?_⟩
    -- the values are distinct, so that `a` has one code
    have hwf := internAll_wf (empty_wf (α := α)) (before ++ a :: after)
    have hcode := (hwf a _).mpr (getElem?_values_of_first hbefore after)
    exact Option.some.inj (hcode.symm.trans ((hwf a k).mpr hk))
  · rintro ⟨before, after, rfl, hbefore, rfl⟩
    exact getElem?_values_of_first hbefore after

/-- The translated code of the `i`-th interned value reads back as that value. -/
theorem values_internAll {d : Interner α} (hd : d.WF) (as : List α) {i : Nat} {a : α}
    (h : as[i]? = some a) :
    ((d.internAll as).1[i]?).bind (fun k => (d.internAll as).2.values[k]?) = some a := by
  induction as generalizing d i with
  | nil => simp at h
  | cons b as ih =>
      cases i with
      | zero =>
          simp only [List.getElem?_cons_zero, Option.some.injEq] at h
          subst h
          have hcode := values_intern hd b
          obtain ⟨tail, htail⟩ := prefix_internAll (d.intern b).2 as
          have hlt := (List.getElem?_eq_some_iff.mp hcode).1
          simp only [internAll, List.getElem?_cons_zero, Option.bind_some]
          rw [← htail, List.getElem?_append_left hlt, hcode]
      | succ i => simpa [internAll] using ih (intern_wf hd b) (by simpa using h)

/-- Translate a code through the codes its values got in another interner. -/
def translate (remap : List Nat) (code : Option Nat) : Option Nat := code.bind fun k => remap[k]?

/-- Codes translated into another interner read back as before. A code is sent to the code that its
value gets there, and a null stays a null. -/
theorem decodeAll_translate {d e : Interner α} (hd : d.WF) {codes : List (Option Nat)}
    (hc : e.Covers codes) :
    (d.internAll e.values).2.decodeAll (codes.map (translate (d.internAll e.values).1)) =
      e.decodeAll codes := by
  rw [decodeAll, decodeAll, List.map_map]
  refine List.map_congr_left fun code hcode => ?_
  cases code with
  | none => rfl
  | some k =>
      have hk := List.getElem?_eq_getElem (hc k hcode)
      have hval := values_internAll hd e.values hk
      simp only [Function.comp_apply, translate, Option.bind_some, decode]
      rw [hval, hk]

/-- The translated codes are codes of the other interner. All the values were interned there, and
the translation has only the codes that they got. -/
theorem covers_translate {d e : Interner α} (hd : d.WF) (codes : List (Option Nat)) :
    (d.internAll e.values).2.Covers (codes.map (translate (d.internAll e.values).1)) := by
  intro k hk
  obtain ⟨code, -, hcode⟩ := List.mem_map.mp hk
  cases code with
  | none => simp [translate] at hcode
  | some j =>
      simp only [translate, Option.bind_some] at hcode
      have hj : j < e.values.length := by
        have := (List.getElem?_eq_some_iff.mp hcode).1
        simpa using this
      have hval := values_internAll hd e.values (List.getElem?_eq_getElem hj)
      rw [hcode, Option.bind_some] at hval
      exact (List.getElem?_eq_some_iff.mp hval).1

/-- Interning optional values only adds values at the end; missing ones add none. -/
theorem prefix_internOpts (d : Interner α) (as : List (Option α)) :
    d.values <+: (d.internOpts as).2.values := by
  induction as generalizing d with
  | nil => exact List.prefix_refl _
  | cons a as ih =>
      cases a with
      | none => exact ih d
      | some a => exact (prefix_intern d a).trans (ih (d.intern a).2)

/-- Interning optional values keeps the interner well formed. -/
theorem internOpts_wf {d : Interner α} (hd : d.WF) (as : List (Option α)) :
    (d.internOpts as).2.WF := by
  induction as generalizing d with
  | nil => exact hd
  | cons a as ih =>
      cases a with
      | none => exact ih hd
      | some a => exact ih (intern_wf hd a)

/-- Interning a list of optional values reads back as that list. -/
theorem decodeAll_internOpts {d : Interner α} (hd : d.WF) (as : List (Option α)) :
    (d.internOpts as).2.decodeAll (d.internOpts as).1 = as ∧
      (d.internOpts as).2.Covers (d.internOpts as).1 := by
  induction as generalizing d with
  | nil => exact ⟨rfl, fun k hk => by simp [internOpts] at hk⟩
  | cons a as ih =>
      cases a with
      | none =>
          obtain ⟨hdec, hcov⟩ := ih hd
          refine ⟨by simpa [internOpts, decodeAll] using hdec, fun k hk => hcov k ?_⟩
          simpa [internOpts] using hk
      | some a =>
          obtain ⟨hdec, hcov⟩ := ih (intern_wf hd a)
          have hcode := values_intern hd a
          have hlt := (List.getElem?_eq_some_iff.mp hcode).1
          have hpre := prefix_internOpts (d.intern a).2 as
          constructor
          · obtain ⟨tail, htail⟩ := hpre
            have hhead : (d.internOpts (some a :: as)).2.values[(d.intern a).1]? = some a := by
              simp only [internOpts]
              rw [← htail, List.getElem?_append_left hlt, hcode]
            simpa [internOpts, decodeAll] using ⟨hhead, hdec⟩
          · intro k hk
            simp only [internOpts, List.mem_cons, Option.some.injEq] at hk
            rcases hk with rfl | hk
            · exact Nat.lt_of_lt_of_le hlt hpre.length_le
            · exact hcov k hk

end Interner

end Rypipe
