import Rypipe.Decoder.Splitting
import Rypipe.Foundation.Regions

/-! # No split point inside a skip region

`in_skip_region` looks at every occurrence of an opener in its window on its own and finds those with
no closer before the position (`inSkipRegion_iff`). A scan from the left may take fewer of them for
openers, so that the answer errs on the safe side only. -/

namespace Rypipe

/-- `memmem` finds an occurrence when there is one, so where it fails the needle occurs nowhere. -/
theorem memmemFind_eq_none {needle : List UInt8} (hneedle : needle ≠ []) {bytes : List UInt8} :
    memmemFind needle bytes = none ↔ ∀ i, ¬ OccursAt needle bytes i := by
  induction bytes with
  | nil =>
    rw [memmemFind, if_neg (by simpa using hneedle)]
    exact ⟨fun _ => not_occursAt_nil hneedle, fun _ => rfl⟩
  | cons b bytes ih =>
    rw [memmemFind]
    by_cases hhere : needle <+: b :: bytes
    · rw [if_pos (List.isPrefixOf_iff_prefix.mpr hhere)]
      exact ⟨nofun, fun h => absurd hhere (h 0)⟩
    · rw [if_neg (mt List.isPrefixOf_iff_prefix.mp hhere), Option.map_eq_none_iff, ih]
      constructor
      · intro h i
        cases i with
        | zero => exact hhere
        | succ i => exact h i
      · exact fun h i => h (i + 1)

/-- The loop of `in_skip_region` finds an opener that no closer follows. By induction on the window,
from its start: the loop remembers whether an opener is open, a closer after it closes it, and at
the end of the window it says whether one is left. -/
theorem unclosedOpener_iff {opener closer : List UInt8} (hopener : opener ≠ [])
    (hcloser : closer ≠ []) {scan : List UInt8} :
    unclosedOpener opener closer scan = true ↔
      ∃ s, OccursAt opener scan s ∧ ∀ c, s + opener.length ≤ c → ¬ OccursAt closer scan c := by
  induction scan with
  | nil =>
    rw [unclosedOpener]
    constructor
    · intro h
      exact absurd (List.isEmpty_iff.mp h) hopener
    · rintro ⟨s, hs, -⟩
      exact absurd hs (not_occursAt_nil hopener s)
  | cons b scan ih =>
    -- the text between the opener and the position has no closer, be it empty or not
    have hbetween : (((b :: scan).drop opener.length).isEmpty ||
        (memmemFind closer ((b :: scan).drop opener.length)).isNone) = true ↔
          ∀ c, 0 + opener.length ≤ c → ¬ OccursAt closer (b :: scan) c := by
      rw [Bool.or_eq_true, List.isEmpty_iff, Option.isNone_iff_eq_none, memmemFind_eq_none hcloser]
      constructor
      · rintro hor c hc hoccurs
        rw [← Nat.add_sub_cancel' hc, Nat.zero_add, ← occursAt_drop] at hoccurs
        rcases hor with hempty | hnone
        · rw [hempty] at hoccurs
          exact not_occursAt_nil hcloser _ hoccurs
        · exact hnone _ hoccurs
      · intro hnone
        refine .inr fun i hi => hnone (opener.length + i) (by omega) (occursAt_drop.mp hi)
    rw [unclosedOpener, Bool.or_eq_true, Bool.and_eq_true, List.isPrefixOf_iff_prefix, hbetween, ih]
    constructor
    · rintro (⟨hhere, hnone⟩ | ⟨s, hs, hnone⟩)
      · exact ⟨0, hhere, hnone⟩
      · refine ⟨s + 1, hs, ?_⟩
        intro c hc
        obtain ⟨c, rfl⟩ := Nat.exists_eq_add_of_le' (Nat.le_trans (by omega) hc : 1 ≤ c)
        exact hnone c (by omega)
    · rintro ⟨s, hs, hnone⟩
      cases s with
      | zero => exact .inl ⟨hs, hnone⟩
      | succ s => exact .inr ⟨s, hs, fun c hc => hnone (c + 1) (by omega)⟩

/-- A finder whose markers are not empty. -/
def SkipRegionFinder.Proper (finder : SkipRegionFinder) : Prop :=
  ∀ opener ∈ finder.openers, opener ≠ [] ∧ finder.closerFor opener ≠ []

/-- `in_skip_region` finds the unclosed openers of its window: it answers yes exactly if some opener
occurs in the window with no closer of its kind after it. -/
theorem inSkipRegion_iff {finder : SkipRegionFinder} (hfinder : finder.Proper)
    {bytes : List UInt8} {at' : Nat} (hat : at' ≤ bytes.length) :
    inSkipRegion bytes at' finder = true ↔ ∃ opener s, at' - finder.window ≤ s ∧
      Unclosed finder.openers finder.closerFor (bytes.take at') opener s := by
  have hscan : slice bytes (at' - finder.window) at' =
      (bytes.take at').drop (at' - finder.window) := by
    rw [slice, List.drop_take]
  have hopeners : finder.openers.isEmpty = true → finder.openers = [] := List.isEmpty_iff.mp
  rw [inSkipRegion, if_neg (Nat.not_lt.mpr hat), hscan]
  split
  · rename_i hempty
    constructor
    · intro hfalse
      cases hfalse
    · rintro ⟨opener, s, -, hmem, -⟩
      rw [hopeners hempty] at hmem
      exact (List.not_mem_nil hmem).elim
  · simp only [List.any_eq_true]
    constructor
    · rintro ⟨opener, hmem, hfound⟩
      obtain ⟨hopener, hcloser⟩ := hfinder opener hmem
      obtain ⟨s, hs, hnone⟩ := (unclosedOpener_iff hopener hcloser).mp hfound
      -- positions in the window are positions in the input, moved by its start
      refine ⟨opener, at' - finder.window + s, Nat.le_add_right _ _, hmem, occursAt_drop.mp hs, ?_⟩
      intro c hc hoccurs
      have hle : at' - finder.window ≤ c := by omega
      rw [← Nat.add_sub_cancel' hle, ← occursAt_drop] at hoccurs
      exact hnone _ (by omega) hoccurs
    · rintro ⟨opener, s, hwindow, hmem, hs, hnone⟩
      obtain ⟨hopener, hcloser⟩ := hfinder opener hmem
      refine ⟨opener, hmem, (unclosedOpener_iff hopener hcloser).mpr
        ⟨s - (at' - finder.window), ?_, ?_⟩⟩
      · rw [occursAt_drop, Nat.add_sub_cancel' hwindow]
        exact hs
      · intro c hc hoccurs
        exact hnone (at' - finder.window + c) (by omega) (occursAt_drop.mp hoccurs)

namespace Splitter

/-- The default plan cuts at candidates only, apart from the ends of the input. -/
theorem mem_defaultFindSplitPoints (splitter : Splitter) {bytes : List UInt8}
    {maxChunks minChunkBytes p : Nat}
    (hp : p ∈ splitter.defaultFindSplitPoints bytes maxChunks minChunkBytes) :
    p = 0 ∨ p = bytes.length ∨ splitter.Accepts bytes p := by
  have hinterior : ∀ n, p ∈ 0 :: splitter.interiorPoints bytes n →
      p = 0 ∨ p = bytes.length ∨ splitter.Accepts bytes p := by
    intro n hmem
    rcases List.mem_cons.mp hmem with rfl | hmem
    · exact .inl rfl
    · exact .inr (.inr (splitter.mem_interiorPoints hmem).2)
  unfold defaultFindSplitPoints at hp
  split at hp
  · simp only [List.mem_cons, List.not_mem_nil, or_false] at hp
    exact hp.imp_right .inl
  · dsimp only at hp
    split at hp
    · rcases List.mem_append.mp hp with hp | hp
      · exact hinterior _ hp
      · exact .inr (.inl (List.mem_singleton.mp hp))
    · exact hinterior _ hp

end Splitter

/-- **No split point inside a skip region.** A position where the scan of the bytes before it ends in
a region whose opener is in the window is rejected; a position before which every opener of the
window is followed by its closer is not. No interior point of the default plan lies in such a
region. -/
theorem splits_outside_regions (finder : SkipRegionFinder) (hfinder : finder.Proper)
    (bytes : List UInt8) :
    (∀ at' ≤ bytes.length, ∀ opener s,
      EndsInside finder.openers finder.closerFor (bytes.take at') opener s →
      at' - finder.window ≤ s → inSkipRegion bytes at' finder = true) ∧
    (∀ at', (∀ opener ∈ finder.openers, ∀ s, at' - finder.window ≤ s →
        OccursAt opener (bytes.take at') s → ∃ c, s + opener.length ≤ c ∧
          OccursAt (finder.closerFor opener) (bytes.take at') c) →
      inSkipRegion bytes at' finder = false) ∧
    ∀ (splitter : Splitter) (maxChunks minChunkBytes : Nat), splitter.skipRegions = some finder →
      ∀ p ∈ splitter.defaultFindSplitPoints bytes maxChunks minChunkBytes, 0 < p →
        p < bytes.length → ∀ opener s,
          EndsInside finder.openers finder.closerFor (bytes.take p) opener s →
          s < p - finder.window := by
  have hinside : ∀ at' ≤ bytes.length, ∀ opener s,
      EndsInside finder.openers finder.closerFor (bytes.take at') opener s →
      at' - finder.window ≤ s → inSkipRegion bytes at' finder = true :=
    fun at' hat opener s hends hwindow =>
      (inSkipRegion_iff hfinder hat).mpr ⟨opener, s, hwindow, hends.unclosed⟩
  refine ⟨hinside, ?_, ?_⟩
  · intro at' hclosed
    by_cases hat : at' ≤ bytes.length
    · by_contra hfound
      rw [Bool.not_eq_false, inSkipRegion_iff hfinder hat] at hfound
      obtain ⟨opener, s, hwindow, hmem, hs, hnone⟩ := hfound
      obtain ⟨c, hc, hoccurs⟩ := hclosed opener hmem s hwindow hs
      exact hnone c hc hoccurs
    · rw [inSkipRegion, if_pos (Nat.lt_of_not_le hat)]
  · intro splitter maxChunks minChunkBytes hskip p hp hpos hlt opener s hends
    rcases splitter.mem_defaultFindSplitPoints hp with rfl | rfl | ⟨-, haccepts⟩
    · exact absurd hpos (Nat.lt_irrefl 0)
    · exact absurd hlt (Nat.lt_irrefl _)
    · by_contra hwindow
      -- an interior split point was accepted, so it is in no region
      have hrejected := hinside p hlt.le opener s hends (Nat.le_of_not_lt hwindow)
      rw [haccepts finder hskip] at hrejected
      cases hrejected

section Examples

/-- XML comments: `<!--` to `-->`. -/
def xmlComments : SkipRegionFinder where
  openers := [[60, 33, 45, 45]]
  closerFor _ := [45, 45, 62]

/-- In `a<!--b` a position after the `b` lies in the comment: its opener is in the window, and no
closer follows it. -/
theorem splits_outside_regions_comment :
    inSkipRegion [97, 60, 33, 45, 45, 98, 10, 99] 7 xmlComments = true := by
  have hproper : xmlComments.Proper := by
    intro opener hmem
    rw [List.mem_singleton.mp hmem]
    decide
  refine (splits_outside_regions xmlComments hproper [97, 60, 33, 45, 45, 98, 10, 99]).1 7
    (by decide) [60, 33, 45, 45] 1 ⟨0, .start, ⟨List.mem_singleton_self _, ?_, by decide⟩, ?_⟩
    (by decide)
  · refine ⟨by decide, ⟨_, List.mem_singleton_self _, by decide⟩, ?_⟩
    rintro i - hlt ⟨opener, hmem, hoccurs⟩
    obtain rfl : i = 0 := by omega
    rw [List.mem_singleton.mp hmem] at hoccurs
    exact absurd hoccurs (by decide)
  · intro c hc hoccurs
    have hlen := hoccurs.add_length_le (by decide)
    simp only [xmlComments, List.length_cons, List.length_nil, List.take_succ_cons,
      List.take_zero] at hc hlen
    omega

end Examples

end Rypipe
