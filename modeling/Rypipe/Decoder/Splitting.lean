import Rypipe.Decoder

/-! # Chunk splitting tiles the input

The split points of the default planning increase strictly from 0 to the length of the input, and the
interior ones are candidates the splitter returned; the ranges between them tile the input. -/

namespace Rypipe

/-- What splitting promises of the points and the ranges of an input: `Candidate` says which interior
positions are cut. -/
structure Tiles (bytes : List UInt8) (Candidate : Nat → Prop) (points : List Nat)
    (chunks : List (Nat × Nat)) : Prop where
  increasing : points.Pairwise (· < ·)
  head : points.head? = some 0
  last : points.getLast? = some bytes.length
  interior : ∀ p ∈ points, p = 0 ∨ p = bytes.length ∨ Candidate p
  bounded : chunks.length ≤ maxSplitChunks
  nonempty : ∀ chunk ∈ chunks, chunk.1 < chunk.2
  contiguous : chunks.IsChain fun chunk next => chunk.2 = next.1
  whole : chunks.flatMap (fun chunk => slice bytes chunk.1 chunk.2) = bytes

/-- The plan never exceeds the maximal number of chunks. -/
theorem planChunkCountWith_le (bytes threads : Nat) (mode : SplitMode) (minChunkBytes : Nat) :
    planChunkCountWith bytes threads mode minChunkBytes ≤ maxSplitChunks :=
  Nat.min_le_right _ _

/-- More than one thread gives more than one chunk. -/
theorem one_lt_planChunkCountWith (bytes : Nat) {threads : Nat} (mode : SplitMode)
    (minChunkBytes : Nat) (hthreads : 1 < threads) :
    1 < planChunkCountWith bytes threads mode minChunkBytes := by
  unfold planChunkCountWith maxSplitChunks
  apply lt_min _ (by omega)
  exact lt_of_lt_of_le hthreads (Nat.le_max_right _ _)

/-- Increasing points with both ends give ranges that drop nothing. -/
theorem splitPointsToRanges_of_increasing {points : List Nat} (hlen : 2 ≤ points.length)
    (h : points.Pairwise (· < ·)) (len : Nat) :
    splitPointsToRanges points len = ranges points := by
  rw [splitPointsToRanges, if_neg (by omega), List.filter_eq_self]
  intro r hr
  exact decide_eq_true (lt_of_mem_ranges h hr)

/-- Points that increase from 0 to the length tile the input: the ranges between neighbours are not
empty, touch one another, and make up the whole. -/
theorem Tiles.of_points {bytes : List UInt8} {Candidate : Nat → Prop} {points : List Nat}
    (hbytes : bytes ≠ []) (increasing : points.Pairwise (· < ·)) (head : points.head? = some 0)
    (last : points.getLast? = some bytes.length)
    (interior : ∀ p ∈ points, p = 0 ∨ p = bytes.length ∨ Candidate p)
    (bounded : points.length ≤ maxSplitChunks + 1) :
    Tiles bytes Candidate points (splitPointsToRanges points bytes.length) := by
  have hpos : 0 < bytes.length := List.length_pos_iff.mpr hbytes
  obtain ⟨rest, rfl⟩ : ∃ rest, points = 0 :: rest := by
    cases points with
    | nil => cases head
    | cons p rest => exact ⟨rest, by rw [Option.some.inj head]⟩
  -- 0 is not the length, so there is a second point
  have hlen : 2 ≤ (0 :: rest).length := by
    cases rest with
    | nil => exact absurd (Option.some.inj last) hpos.ne
    | cons p rest => simp
  rw [splitPointsToRanges_of_increasing hlen increasing]
  refine ⟨increasing, head, last, interior, ?_, ?_, ranges_contiguous _, ?_⟩
  · rw [length_ranges]
    omega
  · intro chunk hchunk
    exact lt_of_mem_ranges increasing hchunk
  · rw [flatMap_slice_ranges bytes increasing]
    have hlast := List.getLast?_eq_getLast_of_ne_nil (List.cons_ne_nil 0 rest)
    rw [last] at hlast
    rw [← Option.some.inj hlast, slice_zero_length]

/-- No element of an increasing list exceeds its last one, so no interior split point comes after
the end. -/
theorem le_getLast_of_increasing {points : List Nat} (h : points.Pairwise (· < ·))
    (hne : points ≠ []) {p : Nat} (hp : p ∈ points) : p ≤ points.getLast hne := by
  induction points with
  | nil => cases hp
  | cons q rest ih =>
      obtain ⟨hq, hrest⟩ := List.pairwise_cons.mp h
      by_cases hnil : rest = []
      · subst hnil
        rw [List.mem_singleton.mp hp]
        exact le_rfl
      · rw [List.getLast_cons hnil]
        rcases List.mem_cons.mp hp with rfl | hp
        · exact (hq _ (List.getLast_mem hnil)).le
        · exact ih hrest hnil hp

/-- Increasing points behind 0 tile the input once the length is appended, which is done where it is
not the last point already. -/
theorem Tiles.of_interior {bytes : List UInt8} {Candidate : Nat → Prop} {points : List Nat}
    (hbytes : bytes ≠ []) (hincreasing : (0 :: points).Pairwise (· < ·))
    (hle : ∀ p ∈ points, p ≤ bytes.length) (hcandidate : ∀ p ∈ points, Candidate p)
    (hcount : points.length < maxSplitChunks) :
    let closed := if (0 :: points).getLast?.getD 0 ≠ bytes.length then (0 :: points) ++ [bytes.length]
      else 0 :: points
    Tiles bytes Candidate closed (splitPointsToRanges closed bytes.length) := by
  intro closed
  have hinterior : ∀ p ∈ 0 :: points, p = 0 ∨ p = bytes.length ∨ Candidate p := by
    intro p hp
    rcases List.mem_cons.mp hp with rfl | hp
    · exact .inl rfl
    · exact .inr (.inr (hcandidate p hp))
  have hne := List.cons_ne_nil 0 points
  have hlast := List.getLast?_eq_getLast_of_ne_nil hne
  have hlastLe : (0 :: points).getLast hne ≤ bytes.length := by
    rcases List.mem_cons.mp (List.getLast_mem hne) with hzero | hmem
    · rw [hzero]
      exact Nat.zero_le _
    · exact hle _ hmem
  by_cases hend : (0 :: points).getLast hne = bytes.length
  · have hclosed : closed = 0 :: points := by
      simp only [closed]
      rw [hlast, Option.getD_some, if_neg (not_not.mpr hend)]
    rw [hclosed]
    apply Tiles.of_points hbytes hincreasing rfl _ hinterior
    · simp only [List.length_cons]
      omega
    · rw [hlast, hend]
  · -- the length is no point yet and is appended
    have hclosed : closed = (0 :: points) ++ [bytes.length] := by
      simp only [closed]
      rw [hlast, Option.getD_some, if_pos hend]
    rw [hclosed]
    apply Tiles.of_points hbytes
    · apply List.pairwise_append.mpr
      refine ⟨hincreasing, List.pairwise_singleton _ _, ?_⟩
      intro p hp q hq
      rw [List.mem_singleton.mp hq]
      exact (le_getLast_of_increasing hincreasing hne hp).trans_lt (lt_of_le_of_ne hlastLe hend)
    · rfl
    · exact List.getLast?_concat
    · intro p hp
      rcases List.mem_append.mp hp with hp | hp
      · exact hinterior p hp
      · exact .inr (.inl (List.mem_singleton.mp hp))
    · simp only [List.length_append, List.length_cons, List.length_nil]
      omega

namespace Splitter

variable (splitter : Splitter)

/-- A position the splitter returned for some offset and no skip region rejects. -/
def Accepts (bytes : List UInt8) (pos : Nat) : Prop :=
  (∃ approx, splitter.nextRecordStart bytes approx = some pos) ∧
    ∀ finder, splitter.skipRegions = some finder → inSkipRegion bytes pos finder = false

/-- A candidate is an accepted position. -/
theorem accepts_of_candidate {bytes : List UInt8} {approx pos : Nat}
    (h : splitter.candidate bytes approx = some pos) : splitter.Accepts bytes pos := by
  obtain ⟨hnext, hskip⟩ := Option.filter_eq_some_iff.mp h
  refine ⟨⟨approx, hnext⟩, ?_⟩
  intro finder hfinder
  simpa [hfinder] using hskip

/-- The interior points are sorted and distinct. -/
theorem interiorPoints_increasing (bytes : List UInt8) (n : Nat) :
    (splitter.interiorPoints bytes n).Pairwise (· < ·) := by
  unfold interiorPoints
  exact (pairwise_destutter_insertionSort _).filter _

/-- Every interior point is positive and a candidate. -/
theorem mem_interiorPoints {bytes : List UInt8} {n p : Nat}
    (h : p ∈ splitter.interiorPoints bytes n) : 0 < p ∧ splitter.Accepts bytes p := by
  unfold interiorPoints at h
  obtain ⟨hmem, hpos⟩ := List.mem_filter.mp h
  have hsorted := (List.destutter_sublist _ _).subset hmem
  rw [List.mem_insertionSort, List.mem_filterMap] at hsorted
  obtain ⟨i, -, hi⟩ := hsorted
  exact ⟨of_decide_eq_true hpos, splitter.accepts_of_candidate hi⟩

/-- At most one interior point for every nominal offset. -/
theorem length_interiorPoints_le (bytes : List UInt8) (n : Nat) :
    (splitter.interiorPoints bytes n).length ≤ n - 1 := by
  unfold interiorPoints
  calc _ ≤ _ := List.length_filter_le _ _
    _ ≤ _ := (List.destutter_sublist _ _).length_le
    _ = _ := List.length_insertionSort _ _
    _ ≤ _ := List.length_filterMap_le _ _
    _ = n - 1 := List.length_range'

/-- **Chunk splitting tiles the input on record boundaries.** For a splitter that returns no position
past the end, the split points increase strictly from 0 to the length, the interior ones are accepted
positions, and their ranges are at most `maxSplitChunks` nonempty contiguous chunks that make up the
whole input. -/
theorem tiles_defaultFindSplitPoints (bytes : List UInt8) (maxChunks minChunkBytes : Nat)
    (hbytes : bytes ≠ [])
    (hsplit : ∀ approx pos, splitter.nextRecordStart bytes approx = some pos →
      pos ≤ bytes.length) :
    Tiles bytes (splitter.Accepts bytes)
      (splitter.defaultFindSplitPoints bytes maxChunks minChunkBytes)
      (splitPointsToRanges (splitter.defaultFindSplitPoints bytes maxChunks minChunkBytes)
        bytes.length) := by
  have hpos : 0 < bytes.length := List.length_pos_iff.mpr hbytes
  generalize hpoints : splitter.defaultFindSplitPoints bytes maxChunks minChunkBytes = points
  unfold defaultFindSplitPoints at hpoints
  split at hpoints
  -- one thread, and the whole input is one chunk
  · subst hpoints
    apply Tiles.of_points hbytes
    · simpa using hpos
    · rfl
    · rfl
    · intro p hp
      simp only [List.mem_cons, List.not_mem_nil, or_false] at hp
      exact hp.imp_right .inl
    · simp [maxSplitChunks]
  rename_i hmax
  -- otherwise the interior points are sorted, distinct and fewer than the chunks
  have hthreads : 1 < maxChunks := by
    by_contra hle
    exact hmax (by simp [Nat.le_of_not_lt hle])
  generalize hn : planChunkCountWith bytes.length maxChunks .parallel minChunkBytes = n at hpoints
  have hn1 : 1 < n := hn ▸ one_lt_planChunkCountWith _ _ _ hthreads
  have hn2 : n ≤ maxSplitChunks := hn ▸ planChunkCountWith_le _ _ _ _
  have hcount := splitter.length_interiorPoints_le bytes n
  have hmem := fun p => @mem_interiorPoints splitter bytes n p
  have hle : ∀ p ∈ splitter.interiorPoints bytes n, p ≤ bytes.length := by
    intro p hp
    obtain ⟨approx, happrox⟩ := (hmem p hp).2.1
    exact hsplit approx p happrox
  have hincreasing : (0 :: splitter.interiorPoints bytes n).Pairwise (· < ·) :=
    List.pairwise_cons.mpr
      ⟨fun p hp => (hmem p hp).1, splitter.interiorPoints_increasing bytes n⟩
  rw [← hpoints]
  exact Tiles.of_interior hbytes hincreasing hle (fun p hp => (hmem p hp).2) (by omega)

/-- Records at every multiple of 4. -/
def fixedWidth : Splitter where
  nextRecordStart bytes start :=
    (List.range' start (bytes.length - start)).find? (· % 4 == 0)

theorem fixedWidth_le (bytes : List UInt8) (approx pos : Nat)
    (h : fixedWidth.nextRecordStart bytes approx = some pos) : pos ≤ bytes.length := by
  have hmem := List.mem_of_find?_eq_some h
  rw [List.mem_range'_1] at hmem
  omega

/-- The theorem on an input of three records and a half. -/
theorem fixedWidth_tiles :
    Tiles (List.replicate 14 0) (fixedWidth.Accepts (List.replicate 14 0)) [0, 4, 8, 12, 14]
      [(0, 4), (4, 8), (8, 12), (12, 14)] :=
  fixedWidth.tiles_defaultFindSplitPoints (List.replicate 14 0) 4 1 (by decide)
    (fixedWidth_le (List.replicate 14 0))

end Splitter

end Rypipe
