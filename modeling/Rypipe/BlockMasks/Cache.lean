import Rypipe.BlockMasks

/-! # The cached masks of a block

`Cached` is the invariant of the cursor: a block, once loaded, starts inside the buffer at a
multiple of 64, and every mask marked as computed is the mask of that block. Every access keeps it,
whatever was computed before, so a mask read from the cursor marks exactly the positions of its
delimiter. -/

namespace Rypipe

/-! ## The masks of a block -/

/-- `prefix_xor` puts the running parity into every bit: bit `i` is the parity of the bits up to and
including `i`. The six shifts double the width of the window that a bit has summed. -/
theorem getLsbD_prefixXor (m : BitVec 64) {i : Nat} (hi : i < 64) :
    (prefixXor m).getLsbD i = BitMask.parity m.getLsbD (i + 1) := by
  have h1 : ∀ i < 64, m.getLsbD i = BitMask.window m.getLsbD 1 i := fun i _ =>
    (BitMask.window_one _ i).symm
  have h2 := BitMask.getLsbD_xor_shiftLeft h1
  have h4 := BitMask.getLsbD_xor_shiftLeft h2
  have h8 := BitMask.getLsbD_xor_shiftLeft h4
  have h16 := BitMask.getLsbD_xor_shiftLeft h8
  have h32 := BitMask.getLsbD_xor_shiftLeft h16
  have h64 := BitMask.getLsbD_xor_shiftLeft h32
  rw [prefixXor, h64 i hi, BitMask.window_of_lt hi]

/-- The mask of the first 64 bytes: bit `i` says whether byte `i` is the one that is sought. Beyond
the end of the block there is no byte, and the bit is clear. -/
theorem getLsbD_mask64 (block : List UInt8) (needle : UInt8) {i : Nat} (hi : i < 64) :
    (mask64 block needle).getLsbD i = decide (block[i]? = some needle) := by
  -- After `n` positions the bits below `n` are right and the others clear.
  have key : ∀ n, ((List.range n).foldl
      (fun mask i => if block[i]? = some needle then mask ||| (1#64 <<< i) else mask)
      0#64).getLsbD i = (decide (i < n) && decide (block[i]? = some needle)) := by
    intro n
    induction n with
    | zero => simp
    | succ n ih =>
      rw [List.range_succ, List.foldl_append, List.foldl_cons, List.foldl_nil]
      by_cases hn : block[n]? = some needle
      · rw [if_pos hn, BitVec.getLsbD_or, ih, ← BitVec.twoPow_eq, BitVec.getLsbD_twoPow]
        by_cases hin : i = n
        · subst hin
          simp [hn, hi]
        · have hlt : decide (i < n + 1) = decide (i < n) := by
            rw [decide_eq_decide]
            omega
          rw [hlt]
          simp [Ne.symm hin]
      · rw [if_neg hn, ih]
        by_cases hin : i = n
        · subst hin
          simp [hn]
        · have hlt : decide (i < n + 1) = decide (i < n) := by
            rw [decide_eq_decide]
            omega
          rw [hlt]
  rw [mask64, key 64, decide_eq_true hi, Bool.true_and]

/-- `(1 << rem) - 1` keeps the positions below `rem`, which is how the padding of the last block is
cut off. -/
theorem getLsbD_keep {rem i : Nat} (hrem : rem < 64) (hi : i < 64) :
    ((1#64 <<< rem) - 1#64).getLsbD i = decide (i < rem) := by
  have hpow : 2 ^ rem < 2 ^ 64 := Nat.pow_lt_pow_right (by decide) hrem
  have hpos : 0 < 2 ^ rem := Nat.two_pow_pos rem
  have hval : (1#64 <<< rem) - 1#64 = BitVec.ofNat 64 (2 ^ rem - 1) := by
    apply BitVec.eq_of_toNat_eq
    rw [BitVec.toNat_sub, BitVec.toNat_shiftLeft, BitVec.toNat_ofNat, BitVec.toNat_ofNat,
      Nat.shiftLeft_eq]
    omega
  rw [hval, BitVec.getLsbD_ofNat, Nat.testBit_two_pow_sub_one, decide_eq_true hi, Bool.true_and]

/-- The mask of a delimiter marks its positions in the block, whether the block is full or not. -/
theorem getLsbD_computeOne (buf : Buffer) (base : Nat) (d : UInt8) {i : Nat} (hi : i < 64) :
    (computeOne buf base d).getLsbD i = decide (buf.bytes[base + i]? = some d) := by
  rw [computeOne]
  by_cases hfull : base + 64 ≤ buf.bytes.length
  · rw [if_pos hfull, getLsbD_mask64 _ _ hi, List.getElem?_drop]
  · rw [if_neg hfull]
    by_cases hrem : buf.bytes.length - base = 0
    · have hend : buf.bytes[base + i]? = none := List.getElem?_eq_none_iff.mpr (by omega)
      simp [hrem, hend]
    · rw [if_neg hrem, BitVec.getLsbD_and, getLsbD_mask64 _ _ hi, getLsbD_keep (by omega) hi]
      by_cases hin : i < buf.bytes.length - base
      · have hread : (paddedTail buf.bytes base)[i]? = buf.bytes[base + i]? := by
          rw [paddedTail, List.getElem?_append_left (by rwa [List.length_drop]),
            List.getElem?_drop]
        rw [hread, decide_eq_true hin, Bool.and_true]
      · have hend : buf.bytes[base + i]? = none := List.getElem?_eq_none_iff.mpr (by omega)
        rw [decide_eq_false hin, Bool.and_false, hend]
        rfl

/-- Filling all masks at once gives the single masks, so a block may be filled for all delimiters or
for the one that is asked for. -/
theorem getD_fill (buf : Buffer) (base : Nat) {delims : List UInt8} {i : Nat} {d : UInt8}
    (hd : delims[i]? = some d) : (fill buf base delims).getD i 0#64 = computeOne buf base d := by
  obtain ⟨hlt, hget⟩ := List.getElem?_eq_some_iff.mp hd
  have hne : ¬ delims.length = 0 := by omega
  have hfew : ∀ n, (List.replicate n 0#64).getD i 0#64 = 0#64 := by
    intro n
    rw [List.getD_eq_getElem?_getD, List.getElem?_replicate]
    split <;> rfl
  have hmasks : ∀ (f : BitVec 64 → BitVec 64) (block : List UInt8) (rest : List (BitVec 64)),
      ((masks64 block delims).map f ++ rest).getD i 0#64 = f (mask64 block d) := by
    intro f block rest
    rw [List.getD_eq_getElem?_getD, List.getElem?_append_left (by simpa [masks64] using hlt),
      List.getElem?_map, masks64, List.getElem?_map, hd]
    rfl
  simp only [fill, computeOne, if_neg hne]
  split
  · simpa using hmasks id _ _
  · split
    · exact hfew _
    · exact hmasks _ _ _

namespace DelimiterSet

variable {set : DelimiterSet}

/-- A delimiter of the set has an index: the position of its first occurrence in the list of
delimiters. -/
theorem delimIndex_of_mem {d : UInt8} (hd : d ∈ set.delims) :
    ∃ i, set.delimIndex d = some i ∧ set.delims[i]? = some d := by
  cases hidx : set.delimIndex d with
  | none =>
    rw [delimIndex, List.findIdx?_eq_none_iff] at hidx
    exact absurd (hidx d hd) (by simp)
  | some i =>
    rw [delimIndex, List.findIdx?_eq_some_iff_getElem] at hidx
    obtain ⟨hlt, heq, -⟩ := hidx
    exact ⟨i, rfl, List.getElem?_eq_some_iff.mpr ⟨hlt, by simpa using heq⟩⟩

/-- The full mask has the bit of every delimiter, so a block whose mask of filled indices equals it
has all masks. -/
theorem getLsbD_fullMask {i : Nat} (hi : i < set.delims.length) :
    set.fullMask.getLsbD i = true := by
  have hfew : set.delims.length ≤ 8 := set.few
  rw [fullMask]
  split
  · rw [BitVec.getLsbD_allOnes]
    simp only [decide_eq_true_eq]
    omega
  · have hall : ∀ n < 8, ∀ i < n, ((1#8 <<< n) - 1#8).getLsbD i = true := by decide
    exact hall _ (by omega) i hi

end DelimiterSet

namespace BlockMasks

variable {buf : Buffer} {set : DelimiterSet} {m : BlockMasks buf set}

/-! ## The invariant -/

/-- The cached masks are those of the loaded block. -/
structure Cached (m : BlockMasks buf set) : Prop where
  /-- The array of masks keeps its length. -/
  length : m.masks.length = maxDelims
  /-- A mask marked as computed belongs to the block. -/
  valid : ∀ i d, set.delims[i]? = some d → m.computed.getLsbD i = true →
    m.masks.getD i 0#64 = computeOne buf m.base d
  /-- A loaded block starts inside the buffer, at a multiple of 64. -/
  aligned : m.loaded = true → m.base % 64 = 0 ∧ m.base < buf.bytes.length
  /-- No search starts at or after the base before the first block. -/
  unset : m.loaded = false → m.base = noBase

/-- All masks of the block are there. -/
def Full (m : BlockMasks buf set) : Prop :=
  ∀ i d, set.delims[i]? = some d → m.masks.getD i 0#64 = computeOne buf m.base d

theorem cached_build (buf : Buffer) (set : DelimiterSet) : Cached (build buf set) where
  length := List.length_replicate
  valid _ _ _ hbit := by simp [build] at hbit
  aligned h := by simp [build] at h
  unset _ := rfl

/-- A block loaded inside the buffer. -/
theorem Cached.loadAt (h : Cached m) {base : Nat} (hmod : base % 64 = 0)
    (hbase : base < buf.bytes.length) : Cached (m.loadAt base) where
  length := h.length
  valid _ _ _ hbit := by simp [BlockMasks.loadAt] at hbit
  aligned _ := ⟨hmod, hbase⟩
  unset hloaded := by simp [BlockMasks.loadAt] at hloaded

/-- The quote state is no part of the invariant. -/
theorem Cached.withQuote (h : Cached m) (inQuote : UInt8) (quotePos : Nat) :
    Cached ({ m with inQuote := inQuote, quotePos := quotePos } : BlockMasks buf set) :=
  ⟨h.length, h.valid, h.aligned, h.unset⟩

/-- A search brings its block in and leaves the quote state alone. -/
theorem Cached.seek (h : Cached m) {cur : Nat} (hcur : cur < buf.bytes.length) :
    Cached (m.seek cur) ∧ (m.seek cur).loaded = true ∧ (m.seek cur).base ≤ cur ∧
      cur < (m.seek cur).base + 64 ∧ (m.seek cur).inQuote = m.inQuote := by
  have hfits := buf.fits
  rw [BlockMasks.seek]
  by_cases hout : cur < m.base ∨ m.base + 64 ≤ cur
  · rw [if_pos hout, selectBlock]
    by_cases hload : cur / 64 * 64 ≠ m.base ∨ m.loaded = false
    · rw [if_pos hload]
      refine ⟨h.loadAt (by omega) (by omega), rfl, ?_, ?_, rfl⟩ <;> simp only [BlockMasks.loadAt] <;>
        omega
    · omega
  · rw [if_neg hout]
    have hloaded : m.loaded = true := by
      by_contra hno
      have hunset := h.unset (by simpa using hno)
      rw [noBase] at hunset
      omega
    exact ⟨h, hloaded, by omega, by omega, rfl⟩

/-- The next block starts where the loaded one ends; there is none past the end of the buffer. -/
theorem Cached.advanceBlock (h : Cached m) (hloaded : m.loaded = true) :
    (m.advanceBlock = none ∧ buf.bytes.length ≤ m.base + 64) ∨
      (m.advanceBlock = some (m.loadAt (m.base + 64)) ∧ m.base + 64 < buf.bytes.length ∧
        Cached (m.loadAt (m.base + 64))) := by
  obtain ⟨hmod, hbase⟩ := h.aligned hloaded
  have hfits := buf.fits
  have hwrap : (m.base + 64) % 2 ^ 64 = m.base + 64 := Nat.mod_eq_of_lt (by omega)
  rw [BlockMasks.advanceBlock, hwrap]
  by_cases hend : m.base + 64 ≥ buf.bytes.length
  · exact .inl ⟨by simp only [if_pos hend], hend⟩
  · exact .inr ⟨by simp only [if_neg hend], by omega, h.loadAt (by omega) (by omega)⟩

/-- The mask of one delimiter: computed when it is first asked for, and cached from then on. Neither
the block nor the quote state moves. -/
theorem Cached.maskFor (h : Cached m) {d : UInt8} (hd : d ∈ set.delims) :
    ∃ m', m.maskFor d = some (computeOne buf m.base d, m') ∧ Cached m' ∧ m'.base = m.base ∧
      m'.loaded = m.loaded ∧ m'.inQuote = m.inQuote := by
  obtain ⟨i, hidx, hget⟩ := DelimiterSet.delimIndex_of_mem hd
  have hlt : i < set.delims.length := (List.getElem?_eq_some_iff.mp hget).1
  have hi : i < 8 := Nat.lt_of_lt_of_le hlt set.few
  simp only [BlockMasks.maskFor, hidx, Option.bind_eq_bind, Option.bind_some]
  by_cases hbit : m.computed.getLsbD i = true
  · rw [if_pos hbit, h.valid i d hget hbit]
    exact ⟨m, rfl, h, rfl, rfl, rfl⟩
  · rw [if_neg hbit]
    have hlen : i < m.masks.length := by rw [h.length]; exact hi
    refine ⟨{ m with masks := m.masks.set i (computeOne buf m.base d)
                     computed := m.computed ||| (1#8 <<< i) }, ?_, ?_, rfl, rfl, rfl⟩
    · rw [List.getD_eq_getElem?_getD, List.getElem?_set_self hlen]
      rfl
    · refine ⟨by simpa using h.length, ?_, h.aligned, h.unset⟩
      intro j c hc hcomputed
      by_cases hij : i = j
      · subst hij
        obtain rfl : d = c := Option.some.inj (hget.symm.trans hc)
        rw [List.getD_eq_getElem?_getD, List.getElem?_set_self hlen]
        rfl
      · -- The other masks and their bits are untouched.
        rw [List.getD_eq_getElem?_getD, List.getElem?_set_ne hij, ← List.getD_eq_getElem?_getD]
        apply h.valid j c hc
        rw [BitVec.getLsbD_or, ← BitVec.twoPow_eq, BitVec.getLsbD_twoPow] at hcomputed
        simpa [hij] using hcomputed

/-! ## All masks at once -/

@[simp] theorem ensureAll_base (m : BlockMasks buf set) : m.ensureAll.base = m.base := by
  rw [ensureAll]; split <;> rfl

@[simp] theorem ensureAll_loaded (m : BlockMasks buf set) : m.ensureAll.loaded = m.loaded := by
  rw [ensureAll]; split <;> rfl

@[simp] theorem ensureAll_inQuote (m : BlockMasks buf set) :
    m.ensureAll.inQuote = m.inQuote := by
  rw [ensureAll]; split <;> rfl

/-- After `ensure_all` every mask is there, whichever were computed before. -/
theorem Cached.full_ensureAll (h : Cached m) : Full m.ensureAll := by
  intro i d hd
  have hlt : i < set.delims.length := (List.getElem?_eq_some_iff.mp hd).1
  rw [ensureAll_base, ensureAll]
  split
  · rename_i hcomputed
    exact h.valid i d hd (by rw [hcomputed, DelimiterSet.getLsbD_fullMask hlt])
  · exact getD_fill buf m.base hd

theorem length_fill (buf : Buffer) (base : Nat) {delims : List UInt8}
    (hfew : delims.length ≤ maxDelims) : (fill buf base delims).length = maxDelims := by
  rw [fill]
  split
  · exact List.length_replicate
  · split
    · simp only [masks64, List.length_append, List.length_map, List.length_drop,
        List.length_replicate]
      omega
    · simp only
      split
      · exact List.length_replicate
      · simp only [masks64, List.length_append, List.length_map, List.length_drop,
          List.length_replicate]
        omega

theorem Cached.ensureAll (h : Cached m) : Cached m.ensureAll where
  length := by
    rw [BlockMasks.ensureAll]
    split
    · exact h.length
    · exact length_fill buf m.base set.few
  valid i d hd _ := h.full_ensureAll i d hd
  aligned hloaded := by
    rw [ensureAll_loaded] at hloaded
    rw [ensureAll_base]
    exact h.aligned hloaded
  unset hloaded := by
    rw [ensureAll_loaded] at hloaded
    rw [ensureAll_base]
    exact h.unset hloaded

section Full

variable (h : Full m)

include h

/-- The mask of a delimiter by its name. -/
theorem Full.maskOf {d : UInt8} (hd : d ∈ set.delims) :
    m.maskOf d = some (computeOne buf m.base d) := by
  obtain ⟨i, hidx, hget⟩ := DelimiterSet.delimIndex_of_mem hd
  rw [BlockMasks.maskOf, hidx, Option.map_some, h i d hget]

/-- The union of masks marks the positions of all the delimiters. -/
theorem Full.combined {ds : List UInt8} (hds : ∀ d ∈ ds, d ∈ set.delims) :
    ∃ all, m.combined ds = some all ∧ ∀ i < 64,
      (all.getLsbD i = true ↔ ∃ d ∈ ds, buf.bytes[m.base + i]? = some d) := by
  induction ds with
  | nil => exact ⟨0#64, rfl, by simp⟩
  | cons d ds ih =>
    obtain ⟨rest, hrest, hbits⟩ := ih fun c hc => hds c (List.mem_cons_of_mem d hc)
    refine ⟨computeOne buf m.base d ||| rest, ?_, ?_⟩
    · simp [BlockMasks.combined, h.maskOf (hds d List.mem_cons_self), hrest]
    · intro i hi
      rw [BitVec.getLsbD_or, getLsbD_computeOne buf m.base d hi, Bool.or_eq_true,
        decide_eq_true_eq, hbits i hi]
      simp

/-- The delimiter named for a position is the byte there. The delimiters are tried in order, and no
two of them can be at one position. -/
theorem Full.delimAt {ds : List UInt8} (hds : ∀ d ∈ ds, d ∈ set.delims) {p : Nat} (hp : p < 64)
    {b : UInt8} (hb : buf.bytes[m.base + p]? = some b) (hmem : b ∈ ds) :
    m.delimAt p ds = some (some b) := by
  induction ds with
  | nil => exact absurd hmem (by simp)
  | cons d ds ih =>
    have hmask := h.maskOf (hds d List.mem_cons_self)
    simp only [BlockMasks.delimAt, hmask, Option.bind_eq_bind, Option.bind_some,
      getLsbD_computeOne buf m.base d hp, hb, decide_eq_true_eq, Option.some.injEq]
    by_cases hbd : b = d
    · rw [if_pos hbd, hbd]
    · rw [if_neg hbd]
      exact ih (fun c hc => hds c (List.mem_cons_of_mem d hc))
        (List.mem_of_ne_of_mem hbd hmem)

/-- The index named for a quote byte is one of that byte, though a quote that is listed twice has
two. -/
theorem Full.quoteIndexAt {qs : List UInt8} (hqs : ∀ q ∈ qs, q ∈ set.delims) {p : Nat}
    (hp : p < 64) {b : UInt8} (hb : buf.bytes[m.base + p]? = some b) (hmem : b ∈ qs) :
    ∃ qi, m.quoteIndexAt p qs = some qi ∧ set.delims[qi]? = some b := by
  induction qs with
  | nil => exact absurd hmem (by simp)
  | cons q qs ih =>
    obtain ⟨i, hidx, hget⟩ := DelimiterSet.delimIndex_of_mem (hqs q List.mem_cons_self)
    simp only [BlockMasks.quoteIndexAt, hidx, Option.bind_eq_bind, Option.bind_some, h i q hget,
      getLsbD_computeOne buf m.base q hp, hb, decide_eq_true_eq, Option.some.injEq]
    by_cases hbq : b = q
    · exact ⟨i, if_pos hbq, hbq ▸ hget⟩
    · rw [if_neg hbq]
      exact ih (fun c hc => hqs c (List.mem_cons_of_mem q hc)) (List.mem_of_ne_of_mem hbq hmem)

/-- Nothing of a mask is left from `pos` on exactly when the block holds no more of its
delimiter. -/
theorem Full.cut_eq_zero {i : Nat} {d : UInt8} (hd : set.delims[i]? = some d) (pos : Nat) :
    m.masks.getD i 0#64 &&& BitMask.fromOn 64 pos = 0#64 ↔
      ∀ k, pos ≤ k → k < 64 → buf.bytes[m.base + k]? ≠ some d := by
  rw [BitMask.and_fromOn_eq_zero, h i d hd]
  constructor
  · intro hnone k hpos hk
    have hbit := hnone k hpos
    rwa [getLsbD_computeOne buf m.base d hk, decide_eq_false_iff_not] at hbit
  · intro hnone k hpos
    by_cases hk : k < 64
    · rw [getLsbD_computeOne buf m.base d hk, decide_eq_false_iff_not]
      exact hnone k hpos hk
    · exact BitVec.getLsbD_of_ge _ _ (Nat.le_of_not_lt hk)

end Full

end BlockMasks

end Rypipe
