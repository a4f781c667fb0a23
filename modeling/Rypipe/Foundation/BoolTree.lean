import Mathlib.Data.List.Nodup

/-! # Boolean combinations of tests

Trees of conjunctions, disjunctions and negations over leaves that are evaluated elsewhere. When the
leaves carry distinct labels the tree is read-once: its leaves can be set one by one, so that the
tree takes both values, and no leaf is hidden by the others. -/

namespace Rypipe

universe u v

/-- A Boolean combination of leaves. -/
inductive BoolTree (L : Type u) where
  | leaf (l : L)
  | and (a b : BoolTree L)
  | or (a b : BoolTree L)
  | not (inner : BoolTree L)

namespace BoolTree

variable {L : Type u} {K : Type v}

/-- The value of a tree, given the values of its leaves. -/
def eval (value : L → Bool) : BoolTree L → Bool
  | .leaf l => value l
  | .and a b => a.eval value && b.eval value
  | .or a b => a.eval value || b.eval value
  | .not inner => !inner.eval value

/-- The leaves of a tree, in order. -/
def leaves : BoolTree L → List L
  | .leaf l => [l]
  | .and a b | .or a b => a.leaves ++ b.leaves
  | .not inner => inner.leaves

/-- The value of a tree only depends on the values of its leaves. -/
theorem eval_congr {t : BoolTree L} {value value' : L → Bool}
    (h : ∀ l ∈ t.leaves, value l = value' l) : t.eval value = t.eval value' := by
  induction t with
  | leaf l => exact h l List.mem_cons_self
  | and a b iha ihb | or a b iha ihb =>
      rw [eval, eval, iha fun l hl => h l (List.mem_append_left _ hl),
        ihb fun l hl => h l (List.mem_append_right _ hl)]
  | not inner ih => rw [eval, eval, ih h]

section ReadOnce

variable (label : L → K)

/-- The value follows the labels on the leaves of a tree. -/
def Follows (t : BoolTree L) (value : L → Bool) (setting : K → Bool) : Prop :=
  ∀ l ∈ t.leaves, value l = setting (label l)

/-- The value follows the labels on the leaves of a tree, one leaf excepted. -/
def FollowsOff (t : BoolTree L) (l : L) (value : L → Bool) (setting : K → Bool) : Prop :=
  ∀ x ∈ t.leaves, label x ≠ label l → value x = setting (label x)

/-- The setting that is `f` on the labels of a tree and `g` elsewhere. -/
def merge [DecidableEq K] (t : BoolTree L) (f g : K → Bool) (k : K) : Bool :=
  if k ∈ t.leaves.map label then f k else g k

variable {label}

theorem merge_left [DecidableEq K] {t : BoolTree L} (f g : K → Bool) {l : L} (h : l ∈ t.leaves) :
    t.merge label f g (label l) = f (label l) := if_pos (List.mem_map_of_mem h)

/-- The labels of two parts of a read-once tree are disjoint. -/
theorem label_notMem {as bs : List L} (h : ((as ++ bs).map label).Nodup) {l : L} (hl : l ∈ bs) :
    label l ∉ as.map label := by
  rw [List.map_append, List.nodup_append] at h
  intro ha
  exact h.2.2 _ ha _ (List.mem_map_of_mem hl) rfl

theorem merge_right [DecidableEq K] {a b : BoolTree L} (f g : K → Bool)
    (h : ((a.leaves ++ b.leaves).map label).Nodup) {l : L} (hl : l ∈ b.leaves) :
    a.merge label f g (label l) = g (label l) := if_neg (label_notMem h hl)

/-- The parts of a read-once tree are read-once. -/
theorem nodup_parts {as bs : List L} (h : ((as ++ bs).map label).Nodup) :
    (as.map label).Nodup ∧ (bs.map label).Nodup := by
  rw [List.map_append] at h
  exact ⟨h.of_append_left, h.of_append_right⟩

/-- **A read-once tree takes both values.** By induction on the tree: its two sides share no label,
so the settings that the sides need can be put together. -/
theorem exists_setting {t : BoolTree L} (h : (t.leaves.map label).Nodup) (result : Bool) :
    ∃ setting : K → Bool, ∀ value, t.Follows label value setting → t.eval value = result := by
  classical
  induction t generalizing result with
  | leaf l => exact ⟨fun _ => result, fun value hv => hv l List.mem_cons_self⟩
  | and a b iha ihb =>
      obtain ⟨f, hf⟩ := iha (nodup_parts h).1 result
      obtain ⟨g, hg⟩ := ihb (nodup_parts h).2 result
      refine ⟨a.merge label f g, fun value hv => ?_⟩
      have ha : a.eval value = result := hf value fun l hl => by
        rw [hv l (List.mem_append_left _ hl), merge_left f g hl]
      have hb : b.eval value = result := hg value fun l hl => by
        rw [hv l (List.mem_append_right _ hl), merge_right f g h hl]
      rw [eval, ha, hb, Bool.and_self]
  | or a b iha ihb =>
      obtain ⟨f, hf⟩ := iha (nodup_parts h).1 result
      obtain ⟨g, hg⟩ := ihb (nodup_parts h).2 result
      refine ⟨a.merge label f g, fun value hv => ?_⟩
      have ha : a.eval value = result := hf value fun l hl => by
        rw [hv l (List.mem_append_left _ hl), merge_left f g hl]
      have hb : b.eval value = result := hg value fun l hl => by
        rw [hv l (List.mem_append_right _ hl), merge_right f g h hl]
      rw [eval, ha, hb, Bool.or_self]
  | not inner ih =>
      obtain ⟨f, hf⟩ := ih h (!result)
      exact ⟨f, fun value hv => by rw [eval, hf value hv, Bool.not_not]⟩

/-- The value of a tree is that of one leaf, or its negation, when the others follow a setting. -/
def SensitiveTo (label : L → K) (t : BoolTree L) (l : L) : Prop :=
  ∃ (setting : K → Bool) (flip : Bool), ∀ value, t.FollowsOff label l value setting →
    t.eval value = (value l ^^ flip)

/-- In a conjunction or disjunction of two parts the other part can be set to the value that leaves
the sensitive part alone. -/
theorem exists_split_setting [DecidableEq K] {a b : BoolTree L} {l : L}
    (h : ((a.leaves ++ b.leaves).map label).Nodup) (hl : l ∈ a.leaves)
    (ha : SensitiveTo label a l) (result : Bool) :
    ∃ (setting : K → Bool) (flip : Bool), ∀ value,
      (∀ x ∈ a.leaves ++ b.leaves, label x ≠ label l → value x = setting (label x)) →
      a.eval value = (value l ^^ flip) ∧ b.eval value = result := by
  obtain ⟨f, flip, hf⟩ := ha
  obtain ⟨g, hg⟩ := exists_setting (nodup_parts h).2 result
  refine ⟨a.merge label f g, flip, fun value hv => ⟨hf value fun x hx hne => ?_,
    hg value fun x hx => ?_⟩⟩
  · rw [hv x (List.mem_append_left _ hx) hne, merge_left f g hx]
  · have hne : label x ≠ label l := by
      intro heq
      exact label_notMem h hx (heq ▸ List.mem_map_of_mem hl)
    rw [hv x (List.mem_append_right _ hx) hne, merge_right f g h hx]

/-- **No leaf of a read-once tree is hidden by the others.** By induction on the tree: the other
side of a conjunction is set to true and that of a disjunction to false, which is possible because
no leaf occurs on both sides. -/
theorem sensitiveTo_of_mem {t : BoolTree L} (h : (t.leaves.map label).Nodup) {l : L}
    (hl : l ∈ t.leaves) : SensitiveTo label t l := by
  classical
  -- the labels are distinct in either order of the two subtrees
  have hswap : ∀ {a b : BoolTree L}, ((a.leaves ++ b.leaves).map label).Nodup →
      ((b.leaves ++ a.leaves).map label).Nodup := by
    intro a b hab
    exact (List.perm_append_comm.map label).nodup hab
  induction t with
  | leaf x =>
      rw [leaves, List.mem_singleton] at hl
      subst hl
      exact ⟨fun _ => true, false, fun value _ => (Bool.xor_false _).symm⟩
  -- set the other side to the value that leaves the connective open
  | and a b iha ihb =>
      rcases List.mem_append.mp hl with hl | hl
      · obtain ⟨setting, flip, hs⟩ :=
          exists_split_setting h hl (iha (nodup_parts h).1 hl) true
        refine ⟨setting, flip, fun value hv => ?_⟩
        rw [eval, (hs value hv).1, (hs value hv).2, Bool.and_true]
      · obtain ⟨setting, flip, hs⟩ :=
          exists_split_setting (hswap h) hl (ihb (nodup_parts h).2 hl) true
        refine ⟨setting, flip, fun value hv => ?_⟩
        have hv' := hs value fun x hx => hv x (List.perm_append_comm.mem_iff.mp hx)
        rw [eval, hv'.1, hv'.2, Bool.true_and]
  | or a b iha ihb =>
      rcases List.mem_append.mp hl with hl | hl
      · obtain ⟨setting, flip, hs⟩ :=
          exists_split_setting h hl (iha (nodup_parts h).1 hl) false
        refine ⟨setting, flip, fun value hv => ?_⟩
        rw [eval, (hs value hv).1, (hs value hv).2, Bool.or_false]
      · obtain ⟨setting, flip, hs⟩ :=
          exists_split_setting (hswap h) hl (ihb (nodup_parts h).2 hl) false
        refine ⟨setting, flip, fun value hv => ?_⟩
        have hv' := hs value fun x hx => hv x (List.perm_append_comm.mem_iff.mp hx)
        rw [eval, hv'.1, hv'.2, Bool.false_or]
  | not inner ih =>
      obtain ⟨setting, flip, hs⟩ := ih h hl
      refine ⟨setting, !flip, fun value hv => ?_⟩
      rw [eval, hs value hv]
      cases value l <;> cases flip <;> rfl

end ReadOnce

end BoolTree

end Rypipe
