import Mathlib.Data.List.Induction
import Mathlib.Data.List.Infix
import Mathlib.Data.List.Nodup
import Mathlib.Logic.Function.Basic

/-! # Tables as lists of rows

The specification of a columnar store, in the store's own terms: a `RowTable` is an ordered list of
distinct named, typed columns together with a list of rows, each row a finite assignment of values
to column names. What a column of the given type keeps of a value is the parameter
`store : τ → α → Option γ` (`none` when the value does not fit the type), and the content of a
column is read off the rows by `RowTable.column`.

The operations are the ones an append-only store offers: declare a column, commit a row, cut a
prefix, concatenate. -/

namespace Rypipe

universe u v w x

variable {κ : Type u} {τ : Type v} {α : Type w} {γ : Type x}

/-- One row: the value assigned to each column name, if any. -/
abbrev Row (κ : Type u) (α : Type w) : Type _ := κ → Option α

/-- The row a sequence of assignments makes of a row, the last assignment to a name winning. -/
def assignAll [DecidableEq κ] (row : Row κ α) (puts : List (κ × α)) : Row κ α :=
  puts.foldl (fun row p => Function.update row p.1 (some p.2)) row

/-- The row a sequence of assignments leaves. -/
def rowOf [DecidableEq κ] (puts : List (κ × α)) : Row κ α := assignAll (fun _ => none) puts

@[simp] theorem rowOf_nil [DecidableEq κ] : rowOf ([] : List (κ × α)) = fun _ => none := rfl

/-- One more assignment updates the row at its name. -/
@[simp] theorem rowOf_append_singleton [DecidableEq κ] (puts : List (κ × α)) (p : κ × α) :
    rowOf (puts ++ [p]) = Function.update (rowOf puts) p.1 (some p.2) := by
  simp [rowOf, assignAll]

/-- A name has a value exactly when some assignment names it, whichever of several assignments it is
that stands. -/
theorem rowOf_isSome [DecidableEq κ] (puts : List (κ × α)) (name : κ) :
    (rowOf puts name).isSome ↔ name ∈ puts.map Prod.fst := by
  induction puts using List.reverseRecOn with
  | nil => simp
  | append_singleton puts p ih =>
      by_cases h : name = p.1
      · subst h
        simp
      · simp only [rowOf_append_singleton, Function.update_of_ne h, ih, List.map_append,
          List.mem_append, List.map_cons, List.map_nil, List.mem_singleton, h, or_false]

/-- Assignments to distinct names all stand, since none of them is overwritten by a later one. -/
theorem rowOf_of_mem [DecidableEq κ] {puts : List (κ × α)} (h : (puts.map Prod.fst).Nodup)
    {p : κ × α} (hp : p ∈ puts) : rowOf puts p.1 = some p.2 := by
  induction puts using List.reverseRecOn with
  | nil => cases hp
  | append_singleton puts q ih =>
      rw [List.map_append, List.nodup_append] at h
      rw [rowOf_append_singleton]
      rcases List.mem_append.mp hp with hp | hp
      · have hne : p.1 ≠ q.1 := h.2.2 p.1 (List.mem_map_of_mem hp) q.1 (by simp)
        rw [Function.update_of_ne hne]
        exact ih h.1 hp
      · rw [List.mem_singleton] at hp
        rw [hp, Function.update_self]

/-- The value of a name is one that was assigned to it, namely the last one. -/
theorem mem_of_rowOf [DecidableEq κ] {puts : List (κ × α)} {name : κ} {value : α}
    (h : rowOf puts name = some value) : (name, value) ∈ puts := by
  induction puts using List.reverseRecOn with
  | nil => cases h
  | append_singleton puts p ih =>
      rw [rowOf_append_singleton] at h
      by_cases hname : name = p.1
      · subst hname
        rw [Function.update_self] at h
        obtain rfl := Option.some.inj h
        exact List.mem_append_right _ (List.mem_singleton_self p)
      · rw [Function.update_of_ne hname] at h
        exact List.mem_append_left _ (ih h)

/-- What a column of type `ty` keeps of the value a row assigns to `name`. -/
def cell (store : τ → α → Option γ) (ty : τ) (name : κ) (row : Row κ α) : Option γ :=
  (row name).bind (store ty)

/-- One more element is kept if it is new. -/
theorem eraseDups_concat [BEq κ] [LawfulBEq κ] (xs : List κ) (x : κ) :
    (xs ++ [x]).eraseDups = if x ∈ xs then xs.eraseDups else xs.eraseDups ++ [x] := by
  rw [List.eraseDups_append]
  split
  · next h => simp [List.removeAll, h]
  · next h => simp [List.removeAll, h, List.eraseDups_cons]

/-- Elements can be left out before or after the repetitions are. -/
theorem eraseDups_filter [BEq κ] [LawfulBEq κ] (keep : κ → Bool) (xs : List κ) :
    (xs.filter keep).eraseDups = xs.eraseDups.filter keep := by
  induction xs using List.reverseRecOn with
  | nil => rfl
  | append_singleton xs x ih =>
      rw [eraseDups_concat, List.filter_append]
      by_cases hx : keep x = true
      · rw [List.filter_cons_of_pos hx, List.filter_nil, eraseDups_concat, ih]
        by_cases hmem : x ∈ xs
        · rw [if_pos hmem, if_pos (List.mem_filter.mpr ⟨hmem, hx⟩)]
        · rw [if_neg hmem, if_neg fun h => hmem (List.mem_filter.mp h).1, List.filter_append,
            List.filter_cons_of_pos hx, List.filter_nil]
      · rw [List.filter_cons_of_neg hx, List.filter_nil, List.append_nil, ih]
        split
        · rfl
        · rw [List.filter_append, List.filter_cons_of_neg hx, List.filter_nil, List.append_nil]

/-- Elements can be renamed, to different names, before or after the repetitions are left out. -/
theorem eraseDups_filterMap {μ : Type*} [BEq κ] [LawfulBEq κ] [BEq μ] [LawfulBEq μ]
    (f : κ → Option μ) {xs : List κ}
    (h : ∀ x ∈ xs, ∀ y ∈ xs, ∀ b, f x = some b → f y = some b → x = y) :
    (xs.filterMap f).eraseDups = xs.eraseDups.filterMap f := by
  induction xs using List.reverseRecOn with
  | nil => rfl
  | append_singleton xs x ih =>
      have hrest := ih fun y hy z hz =>
        h y (List.mem_append_left _ hy) z (List.mem_append_left _ hz)
      rw [List.filterMap_append, eraseDups_concat]
      cases hx : f x with
      | none =>
          rw [List.filterMap_cons_none hx, List.filterMap_nil, List.append_nil, hrest]
          split
          · rfl
          · rw [List.filterMap_append, List.filterMap_cons_none hx, List.filterMap_nil,
              List.append_nil]
      | some b =>
          rw [List.filterMap_cons_some hx, List.filterMap_nil, eraseDups_concat, hrest]
          by_cases hmem : x ∈ xs
          · rw [if_pos hmem, if_pos (List.mem_filterMap.mpr ⟨x, hmem, hx⟩)]
          · have hnew : b ∉ xs.filterMap f := by
              rintro hb
              obtain ⟨y, hy, hyb⟩ := List.mem_filterMap.mp hb
              have heq := h y (List.mem_append_left _ hy) x
                (List.mem_append_right _ (List.mem_singleton_self x)) b hyb hx
              exact hmem (heq ▸ hy)
            rw [if_neg hmem, if_neg hnew, List.filterMap_append, List.filterMap_cons_some hx,
              List.filterMap_nil]

/-- `eraseDups` leaves every element once. By induction on the list, with the first occurrence
kept. -/
theorem nodup_eraseDups [BEq κ] [LawfulBEq κ] (xs : List κ) : xs.eraseDups.Nodup := by
  induction xs using List.reverseRecOn with
  | nil => exact List.nodup_nil
  | append_singleton xs x ih =>
      rw [eraseDups_concat]
      split
      · exact ih
      · next h =>
        rw [List.nodup_append]
        refine ⟨ih, List.nodup_singleton x, ?_⟩
        rintro y hy z hz rfl
        rw [List.mem_singleton.mp hz] at hy
        exact h (List.mem_eraseDups.mp hy)

/-- A list without repetitions stays as it is. -/
theorem eraseDups_of_nodup [BEq κ] [LawfulBEq κ] {xs : List κ} (h : xs.Nodup) :
    xs.eraseDups = xs := by
  induction xs using List.reverseRecOn with
  | nil => rfl
  | append_singleton xs x ih =>
      obtain ⟨hxs, -, hne⟩ := List.nodup_append.mp h
      rw [eraseDups_concat, if_neg fun hx => hne x hx x (List.mem_singleton_self x) rfl, ih hxs]

/-- A second time it has nothing to erase. -/
theorem eraseDups_eraseDups [BEq κ] [LawfulBEq κ] (xs : List κ) :
    xs.eraseDups.eraseDups = xs.eraseDups := eraseDups_of_nodup (nodup_eraseDups xs)

/-- The repetitions of a concatenation. -/
theorem eraseDups_append_eq [BEq κ] [LawfulBEq κ] (xs ys : List κ) :
    (xs ++ ys).eraseDups = xs.eraseDups ++ ys.eraseDups.filter fun y => !(y ∈ xs : Bool) := by
  rw [List.eraseDups_append, List.removeAll, eraseDups_filter]
  congr 1
  refine List.filter_congr fun y _ => ?_
  rw [List.elem_eq_mem]

/-- A table: distinct typed columns, and rows that assign values to declared columns only. -/
structure RowTable (κ : Type u) (τ : Type v) (α : Type w) where
  /-- The columns in declaration order, with their types. -/
  cols : List (κ × τ)
  /-- The committed rows, oldest first. -/
  rows : List (Row κ α)
  /-- No column is declared twice. -/
  nodup : (cols.map Prod.fst).Nodup
  /-- A row only assigns values to declared columns. -/
  within : ∀ row ∈ rows, ∀ name, (row name).isSome → name ∈ cols.map Prod.fst

namespace RowTable

variable (store : τ → α → Option γ)

/-- The names of the columns, in declaration order. -/
def names (t : RowTable κ τ α) : List κ := t.cols.map Prod.fst

/-- The table with no column and no row. -/
def empty : RowTable κ τ α := ⟨[], [], by simp, by simp⟩

/-- The content of the column `name` of type `ty`: its cell in each row. -/
def column (t : RowTable κ τ α) (name : κ) (ty : τ) : List (Option γ) :=
  t.rows.map (cell store ty name)

@[simp] theorem length_column (t : RowTable κ τ α) (name : κ) (ty : τ) :
    (t.column store name ty).length = t.rows.length := by
  simp [column]

/-- A column that is not declared is empty in every row, because a row has values under declared
names only. -/
theorem column_of_notMem {t : RowTable κ τ α} {name : κ} (h : name ∉ t.names) (ty : τ) :
    t.column store name ty = List.replicate t.rows.length none := by
  rw [column, List.eq_replicate_iff]
  refine ⟨by simp, ?_⟩
  intro c hc
  obtain ⟨row, hrow, rfl⟩ := List.mem_map.mp hc
  have hnone : row name = none := by
    by_contra hne
    exact h (t.within row hrow name (Option.isSome_iff_ne_none.mpr hne))
  simp [cell, hnone]

/-- Two columns with the same name and type are the same column. -/
theorem getElem?_inj {t : RowTable κ τ α} {i j : Nat} {p q : κ × τ} (hi : t.cols[i]? = some p)
    (hj : t.cols[j]? = some q) (h : p.1 = q.1) : i = j := by
  obtain ⟨hi', rfl⟩ := List.getElem?_eq_some_iff.mp hi
  obtain ⟨hj', rfl⟩ := List.getElem?_eq_some_iff.mp hj
  have hi'' : i < (t.cols.map Prod.fst).length := by simpa using hi'
  have hj'' : j < (t.cols.map Prod.fst).length := by simpa using hj'
  have hname : (t.cols.map Prod.fst)[i] = (t.cols.map Prod.fst)[j] := by simpa using h
  exact (List.Nodup.getElem_inj_iff t.nodup).mp hname

section Declare

variable [DecidableEq κ]

/-- Declare a column unless its name is already taken; the rows have no value for it. -/
def declare (t : RowTable κ τ α) (name : κ) (ty : τ) : RowTable κ τ α :=
  if h : name ∈ t.cols.map Prod.fst then t
  else
    { cols := t.cols ++ [(name, ty)]
      rows := t.rows
      nodup := by
        rw [List.map_append, List.nodup_append]
        refine ⟨t.nodup, by simp, ?_⟩
        rintro a ha b hb rfl
        simp only [List.map_cons, List.map_nil, List.mem_singleton] at hb
        exact h (hb ▸ ha)
      within := by
        intro row hrow n hn
        rw [List.map_append]
        exact List.mem_append_left _ (t.within row hrow n hn) }

@[simp] theorem rows_declare (t : RowTable κ τ α) (name : κ) (ty : τ) :
    (t.declare name ty).rows = t.rows := by
  unfold declare; split <;> rfl

/-- Declaring a column that is there changes nothing. -/
theorem declare_of_mem {t : RowTable κ τ α} {name : κ} (h : name ∈ t.names) (ty : τ) :
    t.declare name ty = t := dif_pos h

/-- Declaring a new column puts it after the others. -/
theorem cols_declare_of_notMem {t : RowTable κ τ α} {name : κ} (h : name ∉ t.names) (ty : τ) :
    (t.declare name ty).cols = t.cols ++ [(name, ty)] := by
  rw [declare, dif_neg (show name ∉ t.cols.map Prod.fst from h)]

/-- Declaring a column adds its name and loses none. -/
@[simp] theorem mem_names_declare (t : RowTable κ τ α) (name n : κ) (ty : τ) :
    n ∈ (t.declare name ty).names ↔ n ∈ t.names ∨ n = name := by
  by_cases h : name ∈ t.names
  · rw [declare_of_mem h]
    constructor
    · exact Or.inl
    · rintro (hn | rfl)
      exacts [hn, h]
  · simp [names, cols_declare_of_notMem h]

/-- Declaring a column keeps the ones before it in place. -/
theorem cols_prefix_declare (t : RowTable κ τ α) (name : κ) (ty : τ) :
    t.cols <+: (t.declare name ty).cols := by
  by_cases h : name ∈ t.names
  · rw [declare_of_mem h]
  · rw [cols_declare_of_notMem h]
    exact List.prefix_append _ _

/-- Declaring a column does not move a name. -/
theorem getElem?_names_declare_of_some {t : RowTable κ τ α} {i : Nat} {n : κ}
    (h : t.names[i]? = some n) (name : κ) (ty : τ) :
    (t.declare name ty).names[i]? = some n := by
  have hpre : t.names <+: (t.declare name ty).names :=
    (cols_prefix_declare t name ty).map Prod.fst
  obtain ⟨hi, hn⟩ := List.getElem?_eq_some_iff.mp h
  rw [List.prefix_iff_getElem?.mp hpre i hi, hn]

/-- Declaring a column does not move the other names: the new one is put at the end, and a declared
one stays. -/
theorem getElem?_names_declare {t : RowTable κ τ α} {name n : κ} (hn : n ≠ name) (ty : τ)
    (i : Nat) : (t.declare name ty).names[i]? = some n ↔ t.names[i]? = some n := by
  by_cases h : name ∈ t.names
  · rw [declare_of_mem h]
  · rw [names, cols_declare_of_notMem h, List.map_append, ← names, List.getElem?_append]
    split
    · rfl
    · next hge =>
      rw [List.getElem?_eq_none (Nat.le_of_not_lt hge), List.map_cons, List.map_nil,
        List.getElem?_singleton]
      split
      · simp [Ne.symm hn]
      · rfl

@[simp] theorem column_declare (t : RowTable κ τ α) (name n : κ) (ty ty' : τ) :
    (t.declare name ty).column store n ty' = t.column store n ty' := by
  simp [column]

/-- Declare a list of columns from the left. -/
def declareAll (t : RowTable κ τ α) (cols : List (κ × τ)) : RowTable κ τ α :=
  cols.foldl (fun t p => t.declare p.1 p.2) t

@[simp] theorem rows_declareAll (t : RowTable κ τ α) (cols : List (κ × τ)) :
    (t.declareAll cols).rows = t.rows := by
  induction cols generalizing t with
  | nil => rfl
  | cons p cols ih => simpa [declareAll] using ih (t.declare p.1 p.2)

/-- Declaring columns adds their names. -/
theorem mem_names_declareAll (t : RowTable κ τ α) (cols : List (κ × τ)) (n : κ) :
    n ∈ (t.declareAll cols).names ↔ n ∈ t.names ∨ n ∈ cols.map Prod.fst := by
  induction cols generalizing t with
  | nil => simp [declareAll]
  | cons p cols ih =>
      have hrest := ih (t.declare p.1 p.2)
      rw [mem_names_declare] at hrest
      rw [declareAll, List.foldl_cons, ← declareAll, hrest, List.map_cons, List.mem_cons, or_assoc]

/-- Declaring columns keeps the ones before them in place. -/
theorem cols_prefix_declareAll (t : RowTable κ τ α) (cols : List (κ × τ)) :
    t.cols <+: (t.declareAll cols).cols := by
  induction cols generalizing t with
  | nil => exact List.prefix_refl _
  | cons p cols ih => exact (cols_prefix_declare t p.1 p.2).trans (ih (t.declare p.1 p.2))

/-- Declaring columns whose names are all taken changes nothing. -/
theorem declareAll_of_mem {t : RowTable κ τ α} {cols : List (κ × τ)}
    (h : ∀ p ∈ cols, p.1 ∈ t.names) : t.declareAll cols = t := by
  induction cols with
  | nil => rfl
  | cons p cols ih =>
      rw [declareAll, List.foldl_cons, declare_of_mem (h p List.mem_cons_self)]
      exact ih fun q hq => h q (List.mem_cons_of_mem _ hq)

/-- What a declaration makes of the columns does not depend on the rows. -/
theorem cols_declareAll_congr {t t' : RowTable κ τ α} (h : t'.cols = t.cols)
    (cols : List (κ × τ)) : (t'.declareAll cols).cols = (t.declareAll cols).cols := by
  induction cols generalizing t t' with
  | nil => exact h
  | cons p cols ih =>
      refine ih (show (t'.declare p.1 p.2).cols = (t.declare p.1 p.2).cols from ?_)
      by_cases hmem : p.1 ∈ t.names
      · have hmem' : p.1 ∈ t'.names := by rw [names, h]; exact hmem
        rw [declare_of_mem hmem, declare_of_mem hmem', h]
      · have hmem' : p.1 ∉ t'.names := by rw [names, h]; exact hmem
        rw [cols_declare_of_notMem hmem, cols_declare_of_notMem hmem', h]

/-- Declaring two lists is declaring one and then the other. -/
theorem declareAll_append (t : RowTable κ τ α) (cols cols' : List (κ × τ)) :
    t.declareAll (cols ++ cols') = (t.declareAll cols).declareAll cols' :=
  List.foldl_append

/-- The columns declared from the empty table are in order of first appearance. -/
theorem names_declareAll (cols : List (κ × τ)) :
    ((empty : RowTable κ τ α).declareAll cols).names = (cols.map Prod.fst).eraseDups := by
  induction cols using List.reverseRecOn with
  | nil => rfl
  | append_singleton cols p ih =>
      rw [declareAll_append, List.map_append, List.map_cons, List.map_nil, eraseDups_concat]
      show (((empty : RowTable κ τ α).declareAll cols).declare p.1 p.2).names = _
      split
      · next h => rw [declare_of_mem (ih ▸ List.mem_eraseDups.mpr h), ih]
      · next h =>
        rw [names, cols_declare_of_notMem fun hn => h (List.mem_eraseDups.mp (ih ▸ hn)),
          List.map_append, ← names, ih]
        rfl

/-- A column of the table after a declaration was there before, or is the declared one. -/
theorem mem_cols_declare {t : RowTable κ τ α} {name : κ} {ty : τ} {p : κ × τ}
    (hp : p ∈ (t.declare name ty).cols) :
    p ∈ t.cols ∨ (p.1 ∉ t.names ∧ p = (name, ty)) := by
  by_cases h : name ∈ t.names
  · rw [declare_of_mem h] at hp
    exact Or.inl hp
  · rw [cols_declare_of_notMem h, List.mem_append, List.mem_singleton] at hp
    rcases hp with hp | rfl
    · exact Or.inl hp
    · exact Or.inr ⟨h, rfl⟩

/-- A column of the table after declarations was there before, or is one of the declared ones. -/
theorem mem_cols_declareAll {t : RowTable κ τ α} {cols : List (κ × τ)} {p : κ × τ}
    (hp : p ∈ (t.declareAll cols).cols) : p ∈ t.cols ∨ (p.1 ∉ t.names ∧ p ∈ cols) := by
  induction cols generalizing t with
  | nil => exact Or.inl hp
  | cons q cols ih =>
      rcases ih hp with h | ⟨hnot, hmem⟩
      · rcases mem_cols_declare h with h | ⟨hnot, rfl⟩
        · exact Or.inl h
        · exact Or.inr ⟨hnot, List.mem_cons_self⟩
      · refine Or.inr ⟨fun hn => hnot ?_, List.mem_cons_of_mem _ hmem⟩
        exact (t.mem_names_declare q.1 p.1 q.2).mpr (Or.inl hn)

end Declare

/-- Commit a row over declared columns. -/
def commit (t : RowTable κ τ α) (row : Row κ α) (h : ∀ name, (row name).isSome → name ∈ t.names) :
    RowTable κ τ α where
  cols := t.cols
  rows := t.rows ++ [row]
  nodup := t.nodup
  within := by
    intro r hr
    rcases List.mem_append.mp hr with hr | hr
    · exact t.within r hr
    · rw [List.mem_singleton] at hr
      subst hr
      exact h

/-- Committing a row appends one cell to every column. -/
@[simp] theorem column_commit (t : RowTable κ τ α) (row : Row κ α)
    (h : ∀ name, (row name).isSome → name ∈ t.names) (name : κ) (ty : τ) :
    (t.commit row h).column store name ty = t.column store name ty ++ [cell store ty name row] := by
  simp [column, commit]

/-- The table over the same columns with some of its rows. -/
def restrict (t : RowTable κ τ α) (rows : List (Row κ α)) (h : ∀ row ∈ rows, row ∈ t.rows) :
    RowTable κ τ α where
  cols := t.cols
  rows := rows
  nodup := t.nodup
  within := fun row hrow => t.within row (h row hrow)

/-- The first `n` rows. -/
def take (t : RowTable κ τ α) (n : Nat) : RowTable κ τ α :=
  t.restrict (t.rows.take n) fun _ => List.mem_of_mem_take

/-- The rows after the first `n`. -/
def drop (t : RowTable κ τ α) (n : Nat) : RowTable κ τ α :=
  t.restrict (t.rows.drop n) fun _ => List.mem_of_mem_drop

@[simp] theorem column_take (t : RowTable κ τ α) (n : Nat) (name : κ) (ty : τ) :
    (t.take n).column store name ty = (t.column store name ty).take n := by
  simp [column, take, restrict, List.map_take]

@[simp] theorem column_drop (t : RowTable κ τ α) (n : Nat) (name : κ) (ty : τ) :
    (t.drop n).column store name ty = (t.column store name ty).drop n := by
  simp [column, drop, restrict, List.map_drop]

/-- Append the rows of another table, whose columns must all be declared. -/
def append (t s : RowTable κ τ α) (h : ∀ name, name ∈ s.names → name ∈ t.names) :
    RowTable κ τ α where
  cols := t.cols
  rows := t.rows ++ s.rows
  nodup := t.nodup
  within := by
    intro row hrow n hn
    rcases List.mem_append.mp hrow with hr | hr
    · exact t.within row hr n hn
    · exact h n (s.within row hr n hn)

@[simp] theorem column_append (t s : RowTable κ τ α)
    (h : ∀ name, name ∈ s.names → name ∈ t.names) (name : κ) (ty : τ) :
    (t.append s h).column store name ty =
      t.column store name ty ++ s.column store name ty := by
  simp [column, append]

/-- The type of the column `name`, if it is declared. -/
def typeOf [DecidableEq κ] (t : RowTable κ τ α) (name : κ) : Option τ :=
  (t.cols.find? fun p => p.1 = name).map Prod.snd

/-- A column has one type, as the names are distinct: the type found for a name is the one it was
declared with. -/
theorem typeOf_eq_some [DecidableEq κ] {t : RowTable κ τ α} {name : κ} {ty : τ} :
    t.typeOf name = some ty ↔ (name, ty) ∈ t.cols := by
  rw [typeOf, Option.map_eq_some_iff]
  constructor
  · rintro ⟨p, hp, rfl⟩
    have hname : p.1 = name := by simpa using List.find?_some hp
    exact hname ▸ List.mem_of_find?_eq_some hp
  · intro hmem
    obtain ⟨i, hi⟩ := List.mem_iff_getElem?.mp hmem
    cases hfind : t.cols.find? fun p => p.1 = name with
    | none => simpa using List.find?_eq_none.mp hfind _ hmem
    | some p =>
        have hname : p.1 = name := by simpa using List.find?_some hfind
        obtain ⟨j, hj⟩ := List.mem_iff_getElem?.mp (List.mem_of_find?_eq_some hfind)
        obtain rfl := getElem?_inj hj hi hname
        rw [Option.some.inj (hj.symm.trans hi)]
        exact ⟨_, rfl, rfl⟩

/-- A name has no type exactly if it has no column. -/
theorem typeOf_eq_none [DecidableEq κ] {t : RowTable κ τ α} {name : κ} :
    t.typeOf name = none ↔ name ∉ t.names := by
  rw [Option.eq_none_iff_forall_ne_some, names, List.mem_map]
  constructor
  · rintro h ⟨p, hp, rfl⟩
    exact h p.2 (typeOf_eq_some.mpr hp)
  · intro h ty hty
    exact h ⟨_, typeOf_eq_some.mp hty, rfl⟩

/-- The same rows over columns of other types. -/
def retype (t : RowTable κ τ α) (f : κ → τ → τ) : RowTable κ τ α where
  cols := t.cols.map fun p => (p.1, f p.1 p.2)
  rows := t.rows
  nodup := by rw [List.map_map]; exact t.nodup
  within := by rw [List.map_map]; exact t.within

@[simp] theorem names_retype (t : RowTable κ τ α) (f : κ → τ → τ) :
    (t.retype f).names = t.names := by
  rw [names, retype, List.map_map]
  rfl

@[simp] theorem column_retype (t : RowTable κ τ α) (f : κ → τ → τ) (name : κ) (ty : τ) :
    (t.retype f).column store name ty = t.column store name ty := rfl

/-- The type a retyping gives a column is its own function of the name and of the type before. -/
theorem typeOf_retype [DecidableEq κ] (t : RowTable κ τ α) (f : κ → τ → τ) (name : κ) :
    (t.retype f).typeOf name = (t.typeOf name).map (f name) := by
  refine Option.ext fun ty => ?_
  rw [typeOf_eq_some, Option.map_eq_some_iff]
  simp only [typeOf_eq_some, retype, List.mem_map]
  constructor
  · rintro ⟨p, hp, heq⟩
    obtain ⟨rfl, rfl⟩ := Prod.mk.inj heq
    exact ⟨p.2, hp, rfl⟩
  · rintro ⟨ty', hp, rfl⟩
    exact ⟨(name, ty'), hp, rfl⟩

/-- A declared column had its type before, or is new with a declared type. -/
theorem typeOf_declareAll [DecidableEq κ] {t : RowTable κ τ α} {cols : List (κ × τ)} {name : κ}
    {ty : τ} (h : (t.declareAll cols).typeOf name = some ty) :
    t.typeOf name = some ty ∨ (t.typeOf name = none ∧ (name, ty) ∈ cols) := by
  rw [typeOf_eq_some, typeOf_eq_none]
  exact mem_cols_declareAll (typeOf_eq_some.mp h)

/-- Types that keep the same of every value have the same columns. -/
theorem column_congr {t : RowTable κ τ α} {ty ty' : τ} (h : store ty = store ty') (name : κ) :
    t.column store name ty = t.column store name ty' := by
  have hcell : cell store ty name = cell store ty' name := by
    funext row
    simp only [cell, h]
  rw [column, column, hcell]

end RowTable

end Rypipe
