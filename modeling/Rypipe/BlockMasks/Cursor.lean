import Rypipe.BlockMasks.Cache

/-! # The searches of the cursor

Each search equals a scan byte by byte. `next` and `next_any` walk over blocks, and what they skip
holds no wanted byte. `next_unquoted` also carries the quote state from block to block: in a block
it either takes the prefix XOR of the one quote type left or walks from quote to quote, and both
ways leave the state that the automaton of quoted regions has at the end of the block
(`BlockAnswer`). -/

namespace Rypipe.BlockMasks

variable {buf : Buffer} {set : DelimiterSet} {m : BlockMasks buf set}

/-! ## `next`, `next_any` and `next_far` -/

/-- Byte `d` stands at position `i`. -/
def Holds (buf : Buffer) (d : UInt8) (i : Nat) : Prop := buf.bytes[i]? = some d

/-- A byte that is there lies within the buffer. -/
theorem Holds.lt_length {d : UInt8} {i : Nat} (h : Holds buf d i) : i < buf.bytes.length :=
  (List.getElem?_eq_some_iff.mp h).1

/-- What the lowest bit of a cut mask says about the buffer: `P` is what the mask marks. -/
theorem lowest_of_marks {P : Nat → Prop} {mask : BitVec 64} {base pos : Nat}
    (hmask : ∀ i < 64, (mask.getLsbD i = true ↔ P (base + i)))
    (hne : mask &&& BitMask.fromOn 64 pos ≠ 0#64) :
    (mask &&& BitMask.fromOn 64 pos).ctz.toNat < 64 ∧
      pos ≤ (mask &&& BitMask.fromOn 64 pos).ctz.toNat ∧
      P (base + (mask &&& BitMask.fromOn 64 pos).ctz.toNat) ∧
      NoneIn P (base + pos) (base + (mask &&& BitMask.fromOn 64 pos).ctz.toNat) := by
  obtain ⟨hpos, hbit, hbelow⟩ := BitMask.lowest_fromOn hne
  have hlt := BitVec.lt_of_getLsbD hbit
  refine ⟨hlt, hpos, (hmask _ hlt).mp hbit, ?_⟩
  intro i hi hlow hP
  obtain ⟨k, rfl⟩ : ∃ k, i = base + k := ⟨i - base, by omega⟩
  have hclear := hbelow k (by omega) (by omega)
  rw [(hmask k (by omega)).mpr hP] at hclear
  exact absurd hclear (by simp)

/-- An empty cut mask leaves nothing in the rest of the block. -/
theorem noneIn_of_marks {P : Nat → Prop} {mask : BitVec 64} {base pos : Nat}
    (hmask : ∀ i < 64, (mask.getLsbD i = true ↔ P (base + i)))
    (hzero : mask &&& BitMask.fromOn 64 pos = 0#64) :
    NoneIn P (base + pos) (base + 64) := by
  intro i hi hlow hP
  obtain ⟨k, rfl⟩ : ∃ k, i = base + k := ⟨i - base, by omega⟩
  have hclear := (BitMask.and_fromOn_eq_zero mask pos).mp hzero k (by omega)
  rw [(hmask k (by omega)).mpr hP] at hclear
  exact absurd hclear (by simp)

/-- The mask of a byte marks exactly the positions of the block that hold it. -/
theorem computeOne_marks (buf : Buffer) (base : Nat) (d : UInt8) :
    ∀ i < 64, ((computeOne buf base d).getLsbD i = true ↔ Holds buf d (base + i)) := by
  intro i hi
  rw [getLsbD_computeOne buf base d hi, decide_eq_true_eq, Holds]

/-- The loop of `next` finds the least position; the fuel suffices because the block moves on. -/
theorem nextLoop_spec {d : UInt8} (hd : d ∈ set.delims) (fuel : Nat) {cur : Nat} (h : Cached m)
    (hcur : cur < buf.bytes.length) (hfuel : buf.bytes.length < cur + fuel) :
    ∃ r m', nextLoop d fuel m cur = some (r, m') ∧ Least (Holds buf d) cur r ∧ Cached m' ∧
      m'.inQuote = m.inQuote := by
  induction fuel generalizing m cur with
  | zero => omega
  | succ fuel ih =>
    obtain ⟨hseek, hloaded, hbase, hblock, hquote⟩ := h.seek hcur
    obtain ⟨m', hmask, hcached, hbase', hloaded', hquote'⟩ := hseek.maskFor hd
    have hmarks := computeOne_marks buf (m.seek cur).base d
    have hoffset : (m.seek cur).base + (cur - (m.seek cur).base) = cur := by omega
    simp only [nextLoop, hmask, Option.bind_eq_bind, Option.bind_some, hbase']
    by_cases hhit : computeOne buf (m.seek cur).base d &&&
        BitMask.fromOn 64 (cur - (m.seek cur).base) = 0#64
    -- the delimiter does not occur in the rest of the block
    · rw [if_neg (by simpa using hhit)]
      have hskip := noneIn_of_marks hmarks hhit
      rw [hoffset] at hskip
      rcases hcached.advanceBlock (hloaded'.trans hloaded) with ⟨hnone, hend⟩ | ⟨hsome, hlt, hnext⟩
      · rw [hnone]
        refine ⟨none, m', rfl, ?_, hcached, hquote'.trans hquote⟩
        exact hskip.least_none (fun i hi => hi.lt_length) (by omega)
      · rw [hsome]
        have hcur' : (m'.loadAt (m'.base + 64)).base = m'.base + 64 := rfl
        obtain ⟨r, m'', hrun, hleast, hcached', hq⟩ :=
          @ih _ (m'.base + 64) hnext hlt (by omega)
        refine ⟨r, m'', hrun, ?_, hcached', hq.trans (hquote'.trans hquote)⟩
        rw [hbase'] at hleast
        exact hleast.skip (by omega) hskip
    · rw [if_pos (by simpa using hhit)]
      obtain ⟨-, hpos, hholds, hskip⟩ := lowest_of_marks hmarks hhit
      rw [hoffset] at hskip
      exact ⟨_, m', rfl, ⟨by omega, hholds, hskip⟩, hcached, hquote'.trans hquote⟩

/-- `next` is the byte-by-byte search, and leaves the quote state alone. -/
theorem next_spec {d : UInt8} (hd : d ∈ set.delims) (start : Nat) (h : Cached m) :
    ∃ r m', m.next start d = some (r, m') ∧ Least (Holds buf d) start r ∧ Cached m' ∧
      m'.inQuote = m.inQuote := by
  rw [next]
  by_cases hstart : start ≥ buf.bytes.length
  · rw [if_pos hstart]
    exact ⟨none, m, rfl, least_none_of_bound (fun i hi => hi.lt_length) hstart, h, rfl⟩
  · rw [if_neg hstart]
    exact nextLoop_spec hd _ h (by omega) (by omega)

/-- One of the bytes `ds` stands at position `i`. -/
def HoldsAny (buf : Buffer) (ds : List UInt8) (i : Nat) : Prop :=
  ∃ d ∈ ds, Holds buf d i

/-- A byte of several that is there lies within the buffer. -/
theorem HoldsAny.lt_length {ds : List UInt8} {i : Nat} (h : HoldsAny buf ds i) :
    i < buf.bytes.length := by
  obtain ⟨d, -, hd⟩ := h
  exact hd.lt_length

/-- The delimiter reported with a position is the byte there. -/
def Named (buf : Buffer) (r : Option (Nat × UInt8)) : Prop :=
  ∀ p d, r = some (p, d) → Holds buf d p

/-- The loop of `next_any` finds the first position that holds one of the bytes, or none. By
induction on the blocks that are left: a block without a mark has none of the bytes, and in a block
with one the lowest mark is the position. -/
theorem nextAnyLoop_spec {ds : List UInt8} (hds : ∀ d ∈ ds, d ∈ set.delims) (fuel : Nat)
    {cur : Nat} (h : Cached m) (hcur : cur < buf.bytes.length)
    (hfuel : buf.bytes.length < cur + fuel) :
    ∃ r m', nextAnyLoop ds fuel m cur = some (r, m') ∧
      Least (HoldsAny buf ds) cur (r.map Prod.fst) ∧ Named buf r ∧ Cached m' ∧
      m'.inQuote = m.inQuote := by
  induction fuel generalizing m cur with
  | zero => omega
  | succ fuel ih =>
    obtain ⟨hseek, hloaded, hbase, hblock, hquote⟩ := h.seek hcur
    have hfull := hseek.full_ensureAll
    have hcached := hseek.ensureAll
    obtain ⟨all, hall, hbits⟩ := hfull.combined hds
    have hmarks : ∀ i < 64, (all.getLsbD i = true ↔
        HoldsAny buf ds ((m.seek cur).base + i)) := by
      intro i hi
      rw [hbits i hi, ensureAll_base]
      rfl
    have hoffset : (m.seek cur).base + (cur - (m.seek cur).base) = cur := by omega
    simp only [nextAnyLoop, hall, Option.bind_eq_bind, Option.bind_some, ensureAll_base]
    by_cases hhit : all &&& BitMask.fromOn 64 (cur - (m.seek cur).base) = 0#64
    -- none of the delimiters is left in the block: go on with the next one
    · rw [if_neg (by simpa using hhit)]
      have hskip := noneIn_of_marks hmarks hhit
      rw [hoffset] at hskip
      rcases hcached.advanceBlock (by simpa using hloaded) with
        ⟨hnone, hend⟩ | ⟨hsome, hlt, hnext⟩
      · rw [hnone]
        rw [ensureAll_base] at hend
        refine ⟨none, _, rfl, ?_, fun _ _ hr => by simp at hr, hcached, by simpa using hquote⟩
        exact hskip.least_none (fun i hi => hi.lt_length) (by omega)
      · rw [hsome]
        rw [ensureAll_base] at hlt hnext
        obtain ⟨r, m'', hrun, hleast, hnamed, hcached', hq⟩ :=
          @ih _ ((m.seek cur).base + 64) hnext hlt (by omega)
        refine ⟨r, m'', ?_, ?_, hnamed, hcached', ?_⟩
        · simpa [loadAt] using hrun
        · exact hleast.skip (by omega) hskip
        · rw [hq]
          simpa [loadAt] using hquote
    -- the lowest bit left is the answer, and the byte under it is a delimiter of the set
    · rw [if_pos (by simpa using hhit)]
      obtain ⟨hlt, hpos, ⟨b, hmem, hb⟩, hskip⟩ := lowest_of_marks hmarks hhit
      rw [hoffset] at hskip
      have hat := hfull.delimAt hds hlt (by rw [ensureAll_base]; exact hb) hmem
      rw [hat, Option.bind_some]
      refine ⟨_, _, rfl, ⟨by omega, ⟨b, hmem, hb⟩, hskip⟩, ?_, hcached, by simpa using hquote⟩
      rintro p d hr
      obtain ⟨rfl, rfl⟩ := Prod.mk.inj (Option.some.inj hr)
      exact hb

/-- `next_any` is the byte-by-byte search for several bytes. It returns the least position from the
start on that holds one of them, with the byte found there. -/
theorem nextAny_spec {ds : List UInt8} (hds : ∀ d ∈ ds, d ∈ set.delims) (start : Nat)
    (h : Cached m) :
    ∃ r m', m.nextAny start ds = some (r, m') ∧ Least (HoldsAny buf ds) start (r.map Prod.fst) ∧
      Named buf r ∧ Cached m' ∧ m'.inQuote = m.inQuote := by
  rw [nextAny]
  by_cases hstart : start ≥ buf.bytes.length
  · rw [if_pos hstart]
    exact ⟨none, m, rfl, least_none_of_bound (fun i hi => hi.lt_length) hstart,
      fun _ _ hr => by simp at hr, h, rfl⟩
  · rw [if_neg hstart]
    exact nextAnyLoop_spec hds _ h (by omega) (by omega)

/-- `next_far` finds the same position, by whichever search the hint selects. -/
theorem nextFar_spec {d : UInt8} (hd : d ∈ set.delims) {start : Nat}
    (hstart : start ≤ buf.bytes.length) (hint : Nat) (h : Cached m) :
    ∃ r m', m.nextFar start d hint = some (r, m') ∧ Least (Holds buf d) start r ∧ Cached m' ∧
      m'.inQuote = m.inQuote := by
  rw [nextFar]
  by_cases hfar : hint > 256
  -- a far hint is answered by a search through the bytes, past all masks
  · rw [if_pos hfar, if_pos hstart]
    refine ⟨_, m, rfl, ?_, h, rfl⟩
    cases hfind : (buf.bytes.drop start).findIdx? (· == d) with
    | none =>
      rw [List.findIdx?_eq_none_iff] at hfind
      intro i hi hholds
      have hmem : d ∈ buf.bytes.drop start := by
        apply List.mem_of_getElem? (i := i - start)
        rw [List.getElem?_drop, show start + (i - start) = i by omega]
        exact hholds
      simpa using hfind d hmem
    | some k =>
      rw [List.findIdx?_eq_some_iff_getElem] at hfind
      obtain ⟨hlt, heq, hbefore⟩ := hfind
      refine ⟨by simp, ?_, ?_⟩
      · have hget := List.getElem?_eq_some_iff.mpr ⟨hlt, rfl⟩
        rw [List.getElem?_drop] at hget
        rw [Holds, hget]
        simpa using heq
      · intro i hi hlow hholds
        have hbound : i < start + k := hlow
        have hk : i - start < k := by omega
        have hget : (buf.bytes.drop start)[i - start]? = some d := by
          rw [List.getElem?_drop, show start + (i - start) = i by omega]
          exact hholds
        obtain ⟨hin, hd'⟩ := List.getElem?_eq_some_iff.mp hget
        have hne := hbefore (i - start) hk
        simp [hd'] at hne
  · rw [if_neg hfar]
    exact next_spec hd start h

/-! ## `next_unquoted` in one block -/

/-- The code's byte for the region a position lies in: 0 stands for none. -/
def Encodes (inQuote : UInt8) (region : Option UInt8) : Prop :=
  region = if inQuote = 0 then none else some inQuote

/-- Zero stands for being in no region. -/
theorem encodes_zero {region : Option UInt8} : Encodes 0 region ↔ region = none := by
  simp [Encodes]

/-- Another byte stands for being in its region. -/
theorem Encodes.of_ne {q : UInt8} {region : Option UInt8} (hq : q ≠ 0) :
    Encodes q region ↔ region = some q := by
  simp [Encodes, hq]

/-- A NUL at `i` opens a region, before the scan from `start` has found `d`. -/
structure OpensNul (buf : Buffer) (set : DelimiterSet) (start : Nat) (d : UInt8) (i : Nat) :
    Prop where
  quote : 0 ∈ set.quotes
  holds : Holds buf 0 i
  outside : regionAt set.isQuote buf.bytes start i = none
  unfound : NoneIn (Free set.isQuote buf.bytes start d) start i

/-- What keeps the cursor from taking a region of NUL for being outside. A NUL that opens a region is the
only quote left in its block, and listed once, so that the prefix XOR is taken there; and the region does
not reach the next block, or the scan ends before. -/
structure Contained (buf : Buffer) (set : DelimiterSet) (start : Nat) (d : UInt8) (i : Nat) :
    Prop where
  once : set.quotes.count 0 ≤ 1
  alone : ∀ q ∈ set.quotes, ∀ k, start ≤ k → k / 64 = i / 64 → Holds buf q k → q = 0
  closed : (∃ p, i ≤ p ∧ p / 64 = i / 64 ∧ Free set.isQuote buf.bytes start d p) ∨
    regionAt set.isQuote buf.bytes start ((i / 64 + 1) * 64) = none

/-- Every NUL that opens a region of the scan is contained. -/
def NulContained (buf : Buffer) (set : DelimiterSet) (start : Nat) (d : UInt8) : Prop :=
  ∀ i, start ≤ i → OpensNul buf set start d i → Contained buf set start d i

/-- What a scan of the block at `base` from offset `pos` has to answer: the least free position and
a cursor outside, or none and the region at the end of the block. -/
def BlockAnswer (buf : Buffer) (set : DelimiterSet) (start : Nat) (d : UInt8) (base pos : Nat) :
    Option Nat → UInt8 → Prop
  | some p, inQuote => pos ≤ p ∧ Free set.isQuote buf.bytes start d (base + p) ∧
      NoneIn (Free set.isQuote buf.bytes start d) (base + pos) (base + p) ∧ inQuote = 0
  | none, inQuote => NoneIn (Free set.isQuote buf.bytes start d) (base + pos) (base + 64) ∧
      Encodes inQuote (regionAt set.isQuote buf.bytes start (base + 64))

/-- A stretch without a free position may be skipped in a block. -/
theorem BlockAnswer.skip {start : Nat} {d : UInt8} {base pos pos' : Nat} {hit : Option Nat}
    {inQuote : UInt8} (hpos : pos ≤ pos')
    (hskip : NoneIn (Free set.isQuote buf.bytes start d) (base + pos) (base + pos'))
    (h : BlockAnswer buf set start d base pos' hit inQuote) :
    BlockAnswer buf set start d base pos hit inQuote := by
  cases hit with
  | none => exact ⟨hskip.trans h.1, h.2⟩
  | some p => exact ⟨hpos.trans h.1, h.2.1, hskip.trans h.2.2.1, h.2.2.2⟩

/-- The quotes are those the set was made with. -/
theorem isQuote_eq_true {b : UInt8} : set.isQuote b = true ↔ b ∈ set.quotes := by
  simp [DelimiterSet.isQuote]

section Block

variable {start : Nat} {d : UInt8} {di : Nat}

/-- A turn outside every region takes the next delimiter or the next quote of any type, whichever
comes first. A delimiter is the answer; a quote opens the region in which the walk goes on; without
either the block holds no free position. -/
theorem Full.walk_outside (h : Full m) (hd : set.delims[di]? = some d) (fuel : Nat) {pos : Nat}
    (hpos : pos ≤ 64) (hstart : start ≤ m.base + pos)
    (hout : regionAt set.isQuote buf.bytes start (m.base + pos) = none) :
    (∃ hit, m.walk di (fuel + 1) 0 pos = some (hit, 0) ∧ BlockAnswer buf set start d m.base pos hit 0) ∨
    ∃ q p, m.walk di (fuel + 1) 0 pos = m.walk di fuel q (p + 1) ∧ q ∈ set.quotes ∧ pos ≤ p ∧
      p < 64 ∧ Holds buf q (m.base + p) ∧
      regionAt set.isQuote buf.bytes start (m.base + p) = none ∧
      NoneIn (Holds buf d) (m.base + pos) (m.base + p) := by
  have hdelim := computeOne_marks buf m.base d
  rw [← h di d hd] at hdelim
  obtain ⟨qbits, hqbits, hquotes⟩ := h.combined set.among
  have hquotes : ∀ i < 64, (qbits.getLsbD i = true ↔ HoldsAny buf set.quotes (m.base + i)) :=
    fun i hi => hquotes i hi
  -- up to the first quote every position is outside
  have hopen : ∀ e, NoneIn (HoldsAny buf set.quotes) (m.base + pos) e → m.base + pos ≤ e →
      regionAt set.isQuote buf.bytes start e = none := by
    intro e hnone he
    apply regionAt_of_no_quote hstart he hout
    intro i q hi hlt hq
    by_contra hyes
    exact hnone i hi hlt ⟨q, isQuote_eq_true.mp (by simpa using hyes), hq⟩
  rw [BlockMasks.walk, if_pos rfl, hqbits]
  simp only [Option.bind_eq_bind, Option.bind_some]
  by_cases hfirst : m.masks.getD di 0#64 &&& BitMask.fromOn 64 pos ≠ 0#64 ∧
      (qbits &&& BitMask.fromOn 64 pos = 0#64 ∨
        (m.masks.getD di 0#64 &&& BitMask.fromOn 64 pos).ctz.toNat <
          (qbits &&& BitMask.fromOn 64 pos).ctz.toNat)
  · -- the delimiter comes first
    rw [if_pos hfirst]
    obtain ⟨hlt, hge, hholds, hskip⟩ := lowest_of_marks hdelim hfirst.1
    refine .inl ⟨_, rfl, hge, ⟨hholds, hopen _ (fun i hi hlow hany => ?_) (by omega)⟩,
      fun i hi hlow hfree => hskip i hi hlow hfree.1, rfl⟩
    rcases hfirst.2 with hnone | hbefore
    · exact noneIn_of_marks hquotes hnone i hi (by omega) hany
    · have hne : qbits &&& BitMask.fromOn 64 pos ≠ 0#64 := by
        intro hzero
        exact noneIn_of_marks hquotes hzero i hi (by omega) hany
      exact (lowest_of_marks hquotes hne).2.2.2 i hi (by omega) hany
  · rw [if_neg hfirst]
    by_cases hq : qbits &&& BitMask.fromOn 64 pos = 0#64
    · -- neither is left in the block
      rw [if_pos hq]
      have hg : m.masks.getD di 0#64 &&& BitMask.fromOn 64 pos = 0#64 := by
        by_contra hg
        exact hfirst ⟨hg, .inl hq⟩
      refine .inl ⟨none, rfl, fun i hi hlow hfree => ?_, ?_⟩
      · exact noneIn_of_marks hdelim hg i hi hlow hfree.1
      · rw [encodes_zero]
        exact hopen _ (noneIn_of_marks hquotes hq) (by omega)
    · -- a quote comes before any delimiter
      rw [if_neg hq]
      obtain ⟨hlt, hge, ⟨q, hmem, hholds⟩, hnone⟩ := lowest_of_marks hquotes hq
      obtain ⟨qi, hqi, hget⟩ := h.quoteIndexAt set.among hlt hholds hmem
      rw [hqi, Option.bind_some, hget, Option.bind_some]
      refine .inr ⟨q, _, rfl, hmem, hge, hlt, hholds, hopen _ hnone (by omega), ?_⟩
      intro i hi hlow hdi
      have hg : m.masks.getD di 0#64 &&& BitMask.fromOn 64 pos ≠ 0#64 := by
        intro hzero
        exact noneIn_of_marks hdelim hzero i hi (by omega) hdi
      have hbefore : ¬ (m.masks.getD di 0#64 &&& BitMask.fromOn 64 pos).ctz.toNat <
          (qbits &&& BitMask.fromOn 64 pos).ctz.toNat := fun hlt' => hfirst ⟨hg, .inr hlt'⟩
      exact (lowest_of_marks hdelim hg).2.2.2 i hi (by omega) hdi

/-- A turn inside a region only looks for the quote that opened it. -/
theorem Full.walk_inside (h : Full m) (di fuel : Nat) {q : UInt8} (hq : q ≠ 0) (hmem : q ∈ set.quotes)
    (pos : Nat) :
    (m.walk di (fuel + 1) q pos = some (none, q) ∧
      NoneIn (Holds buf q) (m.base + pos) (m.base + 64)) ∨
    ∃ p, m.walk di (fuel + 1) q pos = m.walk di fuel 0 (p + 1) ∧ pos ≤ p ∧ p < 64 ∧
      Holds buf q (m.base + p) ∧ NoneIn (Holds buf q) (m.base + pos) (m.base + p) := by
  obtain ⟨qi, hidx, hget⟩ := DelimiterSet.delimIndex_of_mem (set.among q hmem)
  have hmarks := computeOne_marks buf m.base q
  rw [← h qi q hget] at hmarks
  rw [BlockMasks.walk, if_neg hq, hidx]
  simp only [Option.bind_eq_bind, Option.bind_some]
  by_cases hc : m.masks.getD qi 0#64 &&& BitMask.fromOn 64 pos = 0#64
  · rw [if_pos hc]
    exact .inl ⟨rfl, noneIn_of_marks hmarks hc⟩
  · rw [if_neg hc]
    obtain ⟨hlt, hge, hholds, hnone⟩ := lowest_of_marks hmarks hc
    exact .inr ⟨_, rfl, hge, hlt, hholds, hnone⟩

/-- The walk from quote to quote, which opens no region of NUL. Every turn but the last moves past a
quote of the block, so 65 turns suffice. -/
theorem Full.walk (h : Full m) (hd : set.delims[di]? = some d) (hplain : d ∉ set.quotes) (fuel : Nat)
    {inQuote : UInt8} {pos : Nat} (hpos : pos ≤ 64) (hfuel : 64 < pos + fuel)
    (hstart : start ≤ m.base + pos)
    (hnul : ∀ i, m.base + pos ≤ i → i < m.base + 64 → ¬ OpensNul buf set start d i)
    (hbefore : NoneIn (Free set.isQuote buf.bytes start d) start (m.base + pos))
    (hregion : Encodes inQuote (regionAt set.isQuote buf.bytes start (m.base + pos))) :
    ∃ hit inQuote', m.walk di fuel inQuote pos = some (hit, inQuote') ∧
      BlockAnswer buf set start d m.base pos hit inQuote' := by
  induction fuel generalizing inQuote pos with
  | zero => omega
  | succ fuel ih =>
    -- a turn to the position after a quote, without a free position in between
    have hturn : ∀ {q : UInt8} {p : Nat} {inQuote' : UInt8}, q ∈ set.quotes → pos ≤ p → p < 64 →
        Holds buf q (m.base + p) →
        NoneIn (Free set.isQuote buf.bytes start d) (m.base + pos) (m.base + p) →
        Encodes inQuote' (regionAt set.isQuote buf.bytes start (m.base + (p + 1))) →
        ∃ hit inQuote'', m.walk di fuel inQuote' (p + 1) = some (hit, inQuote'') ∧
          BlockAnswer buf set start d m.base pos hit inQuote'' := by
      intro q p inQuote' hmem hge hlt hholds hskip hregion'
      have hpast : NoneIn (Free set.isQuote buf.bytes start d) (m.base + pos) (m.base + (p + 1)) := by
        intro i hi hlow hfree
        by_cases hat : i = m.base + p
        · have hdq : some q = some d := hholds.symm.trans (hat ▸ hfree.1)
          exact hplain (Option.some.inj hdq ▸ hmem)
        · exact hskip i hi (by omega) hfree
      obtain ⟨hit, inQuote'', hwalk, hanswer⟩ := @ih inQuote' (p + 1) (by omega) (by omega) (by omega)
        (fun i hi => hnul i (by omega)) (hbefore.trans hpast) hregion'
      exact ⟨hit, inQuote'', hwalk, hanswer.skip (by omega) hpast⟩
    by_cases hzero : inQuote = 0
    · subst hzero
      rw [encodes_zero] at hregion
      rcases h.walk_outside hd fuel hpos hstart hregion with ⟨hit, hwalk, hanswer⟩ |
        ⟨q, p, hwalk, hmem, hge, hlt, hholds, hout, hskip⟩
      · exact ⟨hit, 0, hwalk, hanswer⟩
      · have hskip' : NoneIn (Free set.isQuote buf.bytes start d) (m.base + pos) (m.base + p) :=
          fun i hi hlow hfree => hskip i hi hlow hfree.1
        have hq : q ≠ 0 := by
          rintro rfl
          exact hnul (m.base + p) (by omega) (by omega) ⟨hmem, hholds, hout, hbefore.trans hskip'⟩
        have hopened := regionAt_open (i := m.base + p) (by omega) hout hholds
          (isQuote_eq_true.mpr hmem)
        rw [hwalk]
        exact hturn hmem hge hlt hholds hskip' ((Encodes.of_ne hq).mpr hopened)
    · rw [Encodes.of_ne hzero] at hregion
      have hmem := isQuote_eq_true.mp (isQuote_of_regionAt hregion)
      rcases h.walk_inside di fuel hzero hmem pos with ⟨hwalk, hnone⟩ |
        ⟨p, hwalk, hge, hlt, hholds, hnone⟩
      · refine ⟨none, inQuote, hwalk, ?_, ?_⟩
        · exact noneIn_free_of_inside hstart hregion fun i hi hlt => hnone i hi hlt
        · rw [Encodes.of_ne hzero]
          exact regionAt_of_inside hstart (by omega) hregion fun i hi hlt => hnone i hi hlt
      · have hin := regionAt_of_inside hstart (by omega) hregion fun i hi hlt => hnone i hi hlt
        rw [hwalk]
        exact hturn hmem hge hlt hholds (noneIn_free_of_inside hstart hregion hnone)
          (encodes_zero.mpr (regionAt_close (i := m.base + p) (by omega) hin hholds))

/-- Byte `c` occurs in the block from offset `pos` on. -/
def Left (m : BlockMasks buf set) (pos : Nat) (c : UInt8) : Prop :=
  ∃ k, pos ≤ k ∧ k < 64 ∧ Holds buf c (m.base + k)

/-- The only quote type left: the others do not occur, and it does unless it was found before. The
loop over the quote types keeps the one that it has met, and gives up at a second. -/
theorem Full.singleQuoteFrom (h : Full m) (pos : Nat) {qs : List UInt8}
    (hqs : ∀ q ∈ qs, q ∈ set.delims) (found : Option Nat) :
    ∃ r, m.singleQuoteFrom pos qs found = some r ∧ ∀ qi, r = some qi →
      (∀ c ∈ qs, Left m pos c → found = none ∧ set.delims[qi]? = some c) ∧
      (found = none → ∃ q ∈ qs, set.delims[qi]? = some q ∧ Left m pos q) ∧
      (found ≠ none → found = some qi) := by
  induction qs generalizing found with
  | nil =>
    refine ⟨found, rfl, ?_⟩
    rintro qi rfl
    exact ⟨fun _ hc => absurd hc (by simp), fun hnone => absurd hnone (by simp), fun _ => rfl⟩
  | cons q qs ih =>
    obtain ⟨i, hidx, hget⟩ := DelimiterSet.delimIndex_of_mem (hqs q List.mem_cons_self)
    have hrest : ∀ c ∈ qs, c ∈ set.delims := fun c hc => hqs c (List.mem_cons_of_mem q hc)
    simp only [BlockMasks.singleQuoteFrom, hidx, Option.bind_eq_bind, Option.bind_some]
    by_cases hcut : m.masks.getD i 0#64 &&& BitMask.fromOn 64 pos = 0#64
    -- the quote `q` does not occur any more, so the rest of the list decides
    · rw [if_neg (by simpa using hcut)]
      have hgone : ¬ Left m pos q := by
        rintro ⟨k, hpos, hk, hholds⟩
        exact (h.cut_eq_zero hget pos).mp hcut k hpos hk hholds
      obtain ⟨r, hr, hspec⟩ := ih hrest found
      refine ⟨r, hr, ?_⟩
      intro qi hqi
      obtain ⟨honly, hthere, hbefore⟩ := hspec qi hqi
      refine ⟨?_, ?_, hbefore⟩
      · intro c hc hleft
        rcases List.mem_cons.mp hc with rfl | hc
        · exact absurd hleft hgone
        · exact honly c hc hleft
      · intro hnone
        obtain ⟨c, hc, hspec'⟩ := hthere hnone
        exact ⟨c, List.mem_cons_of_mem q hc, hspec'⟩
    · rw [if_pos (by simpa using hcut)]
      have hleft : Left m pos q := by
        by_contra hgone
        apply hcut
        rw [h.cut_eq_zero hget pos]
        exact fun k hpos hk hholds => hgone ⟨k, hpos, hk, hholds⟩
      cases found with
      -- a second quote occurs, and the search gives up
      | some j => exact ⟨none, by simp, fun qi hqi => by simp at hqi⟩
      | none =>
        obtain ⟨r, hr, hspec⟩ := ih hrest (some i)
        refine ⟨r, by simpa using hr, ?_⟩
        intro qi hqi
        obtain ⟨honly, -, hbefore⟩ := hspec qi hqi
        obtain rfl : i = qi := Option.some.inj (hbefore (by simp))
        refine ⟨?_, fun _ => ⟨q, List.mem_cons_self, hget, hleft⟩, fun hne => absurd rfl hne⟩
        intro c hc hleftc
        rcases List.mem_cons.mp hc with rfl | hc
        · exact ⟨rfl, hget⟩
        · exact absurd (honly c hc hleftc).1 (by simp)

/-- The code finds a quote type left that is the only one and listed once. So where it finds none,
two of the types occur in the rest of the block, or none does. -/
theorem Full.singleQuoteFrom_ne_none (h : Full m) {pos : Nat} {z : UInt8} (hz : Left m pos z)
    {qs : List UInt8} (hqs : ∀ q ∈ qs, q ∈ set.delims) (honly : ∀ c ∈ qs, Left m pos c → c = z)
    (hcount : qs.count z ≤ 1) (found : Option Nat)
    (hmem : (found = none ∧ z ∈ qs) ∨ (found ≠ none ∧ z ∉ qs)) :
    m.singleQuoteFrom pos qs found ≠ some none := by
  induction qs generalizing found with
  | nil =>
    rcases hmem with ⟨-, hmem⟩ | ⟨hfound, -⟩
    · cases hmem
    · exact fun hnone => hfound (Option.some.inj hnone)
  | cons q qs ih =>
    obtain ⟨i, hidx, hget⟩ := DelimiterSet.delimIndex_of_mem (hqs q List.mem_cons_self)
    have hrest : ∀ c ∈ qs, c ∈ set.delims := fun c hc => hqs c (List.mem_cons_of_mem q hc)
    have honly' : ∀ c ∈ qs, Left m pos c → c = z := fun c hc => honly c (List.mem_cons_of_mem q hc)
    have hcount' : qs.count z ≤ 1 := (List.count_le_count_cons).trans hcount
    simp only [BlockMasks.singleQuoteFrom, hidx, Option.bind_eq_bind, Option.bind_some]
    by_cases hleft : Left m pos q
    · -- the byte itself, which does not come again
      obtain rfl := honly q List.mem_cons_self hleft
      have hne : m.masks.getD i 0#64 &&& BitMask.fromOn 64 pos ≠ 0#64 := by
        rw [ne_eq, h.cut_eq_zero hget pos]
        obtain ⟨k, hk, hlt, hholds⟩ := hleft
        exact fun hgone => hgone k hk hlt hholds
      rcases hmem with ⟨rfl, -⟩ | ⟨-, hnot⟩
      · have hnot : q ∉ qs := by
          rw [List.count_cons_self] at hcount
          exact List.count_eq_zero.mp (by omega)
        rw [if_pos hne]
        exact ih hrest honly' hcount' (some i) (.inr ⟨Option.some_ne_none i, hnot⟩)
      · exact absurd List.mem_cons_self hnot
    · have hzero : m.masks.getD i 0#64 &&& BitMask.fromOn 64 pos = 0#64 := by
        rw [h.cut_eq_zero hget pos]
        exact fun k hk hlt hholds => hleft ⟨k, hk, hlt, hholds⟩
      rw [if_neg (not_not_intro hzero)]
      have hne : z ≠ q := fun heq => hleft (heq ▸ hz)
      refine ih hrest honly' hcount' found (hmem.imp (And.imp_right fun hin => ?_)
        (And.imp_right fun hnot hin => hnot (List.mem_cons_of_mem q hin)))
      exact (List.mem_cons.mp hin).resolve_left hne

/-- With one quote type left in the block, the region is the running parity of its mask. -/
theorem Full.region_of_single (h : Full m) {q : UInt8} {qi pos : Nat}
    (hget : set.delims[qi]? = some q) (hmem : q ∈ set.quotes)
    (hsingle : ∀ c ∈ set.quotes, Left m pos c → c = q) (hstart : start ≤ m.base + pos)
    (hout : regionAt set.isQuote buf.bytes start (m.base + pos) = none) {e : Nat}
    (hpos : pos ≤ e) (he : e ≤ 64) :
    regionAt set.isQuote buf.bytes start (m.base + e) =
      if BitMask.parity (m.masks.getD qi 0#64 &&& BitMask.fromOn 64 pos).getLsbD e then some q
      else none := by
  have hbit : ∀ i < 64, (m.masks.getD qi 0#64 &&& BitMask.fromOn 64 pos).getLsbD i =
      (decide (buf.bytes[m.base + i]? = some q) && decide (pos ≤ i)) := by
    intro i hi
    rw [BitMask.getLsbD_and_fromOn, h qi q hget, getLsbD_computeOne buf m.base q hi]
  have hregion := regionAt_of_single hstart (Nat.add_le_add_left hpos m.base)
    (isQuote_eq_true.mpr hmem) hout
    (fun i c hi hlt hc hquote => hsingle c (isQuote_eq_true.mp hquote)
      ⟨i - m.base, by omega, by omega, by
        rwa [Holds, show m.base + (i - m.base) = i by omega]⟩)
    (fun i => BitMask.parity (m.masks.getD qi 0#64 &&& BitMask.fromOn 64 pos).getLsbD
      (i - m.base))
    (by
      rw [Nat.add_sub_cancel_left]
      apply BitMask.parity_of_clear
      intro i hi
      rw [hbit i (by omega), decide_eq_false (Nat.not_le.mpr hi), Bool.and_false])
    (fun i hi hlt => by
      rw [show i + 1 - m.base = i - m.base + 1 by omega, BitMask.parity_succ,
        hbit (i - m.base) (by omega), show m.base + (i - m.base) = i by omega,
        decide_eq_true (show pos ≤ i - m.base by omega), Bool.and_true])
  rwa [Nat.add_sub_cancel_left] at hregion

/-- Byte `d` stands at position `i`, with an even number of `qmask`'s marks before it. -/
def HoldsEven (buf : Buffer) (base : Nat) (qmask : BitVec 64) (d : UInt8) (i : Nat) : Prop :=
  Holds buf d i ∧ BitMask.parity qmask.getLsbD (i - base) = false

/-- The prefix XOR finds the first free position of the block; without one, the parity of the marks
is the region at the end. At a bit of the prefix XOR stands the parity of the quotes up to it, so a
delimiter is free exactly where that bit differs from the state the block was entered with. -/
theorem Full.prefixPath (h : Full m) (hd : set.delims[di]? = some d) (hplain : d ∉ set.quotes)
    {q : UInt8} {qi pos : Nat} (hget : set.delims[qi]? = some q) (hmem : q ∈ set.quotes)
    (hone : ∀ c ∈ set.quotes, Left m pos c → c = q) (hpos : pos ≤ 64) (hstart : start ≤ m.base + pos)
    (hout : regionAt set.isQuote buf.bytes start (m.base + pos) = none) {qmask hits : BitVec 64}
    (hqmask : qmask = m.masks.getD qi 0#64 &&& BitMask.fromOn 64 pos)
    (hhits : hits = m.masks.getD di 0#64 &&& BitMask.fromOn 64 pos &&& ~~~(prefixXor qmask)) :
    (hits ≠ 0#64 → BlockAnswer buf set start d m.base pos (some hits.ctz.toNat) 0) ∧
      (hits = 0#64 → NoneIn (Free set.isQuote buf.bytes start d) (m.base + pos) (m.base + 64) ∧
        regionAt set.isQuote buf.bytes start (m.base + 64) =
          if qmask.cpop.toNat % 2 = 1 then some q else none) := by
  have hinside : ∀ e, pos ≤ e → e ≤ 64 → regionAt set.isQuote buf.bytes start (m.base + e) =
      if BitMask.parity qmask.getLsbD e then some q else none := by
    intro e hpose he
    rw [hqmask]
    exact h.region_of_single hget hmem hone hstart hout hpose he
  have hplainbit : ∀ i < 64, Holds buf d (m.base + i) → qmask.getLsbD i = false := by
    intro i hi hd'
    rw [hqmask, BitMask.getLsbD_and_fromOn, h qi q hget, getLsbD_computeOne buf m.base q hi]
    have hne : buf.bytes[m.base + i]? ≠ some q := fun hq =>
      hplain (Option.some.inj (hd'.symm.trans hq) ▸ hmem)
    rw [decide_eq_false hne, Bool.false_and]
  -- The delimiter is no quote, so its own bit does not change the parity.
  have hmarks : ∀ i < 64, ((m.masks.getD di 0#64 &&& ~~~(prefixXor qmask)).getLsbD i = true ↔
      HoldsEven buf m.base qmask d (m.base + i)) := by
    intro i hi
    rw [HoldsEven, BitVec.getLsbD_and, BitVec.getLsbD_not, getLsbD_prefixXor qmask hi,
      Bool.and_eq_true, h di d hd, computeOne_marks buf m.base d i hi, Nat.add_sub_cancel_left]
    refine and_congr_right fun hholds' => ?_
    rw [BitMask.parity_succ, hplainbit i hi hholds']
    simp [hi]
  have hfree : ∀ i, m.base + pos ≤ i → i < m.base + 64 →
      (Free set.isQuote buf.bytes start d i ↔ HoldsEven buf m.base qmask d i) := by
    intro i hi hlt
    have hregion' := hinside (i - m.base) (by omega) (by omega)
    rw [show m.base + (i - m.base) = i by omega] at hregion'
    rw [Free, HoldsEven, hregion']
    cases BitMask.parity qmask.getLsbD (i - m.base) <;> simp [Holds]
  have hcut : hits = m.masks.getD di 0#64 &&& ~~~(prefixXor qmask) &&& BitMask.fromOn 64 pos := by
    rw [hhits, BitVec.and_assoc, BitVec.and_comm (BitMask.fromOn 64 pos), ← BitVec.and_assoc]
  rw [hcut]
  constructor
  · intro hne
    obtain ⟨hlt, hge, hfound, hnone⟩ := lowest_of_marks hmarks hne
    exact ⟨hge, (hfree _ (by omega) (by omega)).mpr hfound,
      fun i hi hlow hfree' => hnone i hi hlow ((hfree i hi (by omega)).mp hfree'), rfl⟩
  · intro hzero
    have hnone := noneIn_of_marks hmarks hzero
    refine ⟨fun i hi hlt hfree' => hnone i hi hlt ((hfree i hi hlt).mp hfree'), ?_⟩
    rw [hinside 64 hpos (Nat.le_refl 64), BitMask.cpop_mod_two]
    cases BitMask.parity qmask.getLsbD 64 <;> simp

/-- A NUL that the walk of a block would open is not contained. So where every NUL is contained, the
walk meets no quote that the quote state cannot express. -/
theorem Full.opens_of_walk (h : Full m) (hbase : m.base % 64 = 0) (hnul : NulContained buf set start d)
    {pos : Nat} (hpos : pos ≤ 64) (hstart : start ≤ m.base + pos)
    (hregion : Encodes m.inQuote (regionAt set.isQuote buf.bytes start (m.base + pos)))
    (hwalk : m.inQuote = 0 → m.singleQuoteRemaining pos = some none) :
    ∀ i, m.base + pos ≤ i → i < m.base + 64 → ¬ OpensNul buf set start d i := by
  intro i hi hlt hopens
  have hcontained := hnul i (by omega) hopens
  have halone : ∀ q ∈ set.quotes, ∀ k, m.base + pos ≤ k → k < m.base + 64 → Holds buf q k → q = 0 :=
    fun q hq k hk hlt' => hcontained.alone q hq k (by omega) (by omega)
  by_cases hzero : m.inQuote = 0
  · have hleft : Left m pos 0 := ⟨i - m.base, by omega, by omega, by
      rw [show m.base + (i - m.base) = i by omega]
      exact hopens.holds⟩
    refine h.singleQuoteFrom_ne_none hleft set.among ?_ hcontained.once none
      (.inl ⟨rfl, hopens.quote⟩) (hwalk hzero)
    rintro c hc ⟨k, hk, hklt, hholds⟩
    exact halone c hc (m.base + k) (by omega) (by omega) hholds
  · -- the region the block starts in would have to end by a quote other than NUL
    rw [Encodes.of_ne hzero] at hregion
    have hmem := isQuote_eq_true.mp (isQuote_of_regionAt hregion)
    have hin := regionAt_of_inside hstart hi hregion fun k hk hklt hholds =>
      hzero (halone m.inQuote hmem k hk (by omega) hholds)
    rw [hopens.outside] at hin
    cases hin

/-- A region of NUL that the prefix XOR would carry into the next block is not contained. -/
theorem Full.not_carried (h : Full m) (hbase : m.base % 64 = 0) (hnul : NulContained buf set start d)
    {qi pos : Nat} (hget : set.delims[qi]? = some 0) (hmem : 0 ∈ set.quotes)
    (hone : ∀ c ∈ set.quotes, Left m pos c → c = 0) (hleft : Left m pos 0)
    (hstart : start ≤ m.base + pos)
    (hbefore : NoneIn (Free set.isQuote buf.bytes start d) start (m.base + pos))
    (hout : regionAt set.isQuote buf.bytes start (m.base + pos) = none)
    (hskip : NoneIn (Free set.isQuote buf.bytes start d) (m.base + pos) (m.base + 64))
    (hend : regionAt set.isQuote buf.bytes start (m.base + 64) = some 0) : False := by
  have hmarks := computeOne_marks buf m.base 0
  rw [← h qi 0 hget] at hmarks
  have hne : m.masks.getD qi 0#64 &&& BitMask.fromOn 64 pos ≠ 0#64 := by
    rw [ne_eq, h.cut_eq_zero hget pos]
    obtain ⟨k, hk, hlt, hholds⟩ := hleft
    exact fun hgone => hgone k hk hlt hholds
  -- the first NUL of the rest of the block opens the region
  obtain ⟨hlt, hge, hholds, hfirst⟩ := lowest_of_marks hmarks hne
  generalize (m.masks.getD qi 0#64 &&& BitMask.fromOn 64 pos).ctz.toNat = p at hlt hge hholds hfirst
  have hopen : regionAt set.isQuote buf.bytes start (m.base + p) = none := by
    refine regionAt_of_no_quote hstart (by omega) hout fun i q hi hi' hq => ?_
    by_contra hquote
    have hqmem := isQuote_eq_true.mp (eq_true_of_ne_false hquote)
    have hzero := hone q hqmem ⟨i - m.base, by omega, by omega, by
      rwa [Holds, show m.base + (i - m.base) = i by omega]⟩
    exact hfirst i hi hi' (hzero ▸ hq)
  have hcontained := hnul (m.base + p) (by omega) ⟨hmem, hholds, hopen,
    hbefore.trans fun i hi hi' => hskip i hi (by omega)⟩
  rcases hcontained.closed with ⟨i, hi, hblock, hfree⟩ | hclosed
  · exact hskip i (by omega) (by omega) hfree
  · rw [show ((m.base + p) / 64 + 1) * 64 = m.base + 64 by omega, hend] at hclosed
    cases hclosed

/-- The scan of one block, by the prefix XOR or by the walk. The prefix XOR is taken when one quote
type is left in the block, which is then the only one that can open or close a region; otherwise the
walk goes from quote to quote. -/
theorem Full.scanBlockUnquoted (h : Full m) (hbase : m.base % 64 = 0)
    (hnul : NulContained buf set start d) (hd : set.delims[di]? = some d) (hplain : d ∉ set.quotes)
    {pos : Nat} (hpos : pos ≤ 64) (hstart : start ≤ m.base + pos)
    (hbefore : NoneIn (Free set.isQuote buf.bytes start d) start (m.base + pos))
    (hregion : Encodes m.inQuote (regionAt set.isQuote buf.bytes start (m.base + pos))) :
    ∃ hit inQuote', m.scanBlockUnquoted pos di = some (hit, inQuote') ∧
      BlockAnswer buf set start d m.base pos hit inQuote' := by
  have hwalk := fun hsingle => h.walk hd hplain 65 hpos (by omega) hstart
    (h.opens_of_walk hbase hnul hpos hstart hregion hsingle) hbefore hregion
  by_cases hout : m.inQuote = 0
  · obtain ⟨single, hsingle, hspec⟩ := h.singleQuoteFrom pos set.among none
    rw [BlockMasks.scanBlockUnquoted, if_pos hout, singleQuoteRemaining, hsingle]
    simp only [Option.bind_eq_bind, Option.bind_some]
    cases single with
    | none => exact hwalk fun _ => hsingle
    | some qi =>
      obtain ⟨honly, hthere, -⟩ := hspec qi rfl
      obtain ⟨q, hmem, hget, k, hk, hklt, hholds⟩ := hthere rfl
      -- `q` is the only quote left, which is what the prefix parity needs
      have hone : ∀ c ∈ set.quotes, Left m pos c → c = q := fun c hc hleft =>
        Option.some.inj ((honly c hc hleft).2.symm.trans hget)
      rw [hout, encodes_zero] at hregion
      obtain ⟨hsome, hnone⟩ := h.prefixPath hd hplain hget hmem hone hpos hstart hregion rfl rfl
      dsimp only
      split
      · next hhits =>
        rw [hout]
        exact ⟨_, 0, rfl, hsome hhits⟩
      · next hhits =>
        obtain ⟨hskip, hend⟩ := hnone (not_not.mp hhits)
        split
        · -- The quote open at the end is carried into the next block.
          next hodd =>
          rw [if_pos hodd] at hend
          have hq : q ≠ 0 := by
            rintro rfl
            exact h.not_carried hbase hnul hget hmem hone ⟨k, hk, hklt, hholds⟩ hstart hbefore
              hregion hskip hend
          rw [hget, Option.bind_some]
          exact ⟨none, q, rfl, hskip, (Encodes.of_ne hq).mpr hend⟩
        · next heven =>
          rw [if_neg heven] at hend
          rw [hout]
          exact ⟨none, 0, rfl, hskip, encodes_zero.mpr hend⟩
  -- inside a quote the block is walked in any case
  · rw [BlockMasks.scanBlockUnquoted, if_neg hout]
    exact hwalk fun hzero => absurd hzero hout

end Block

/-! ## `next_unquoted` over blocks -/

/-- The loop of `next_unquoted`, on a loaded block that holds the position or ends just before it.
By induction on the blocks that are left: what the scan of a block leaves (no free position so far,
and the region it ends in) is what the scan of the next one starts from. -/
theorem unquotedLoop_spec {start : Nat} {d : UInt8} {di : Nat} (hnul : NulContained buf set start d)
    (hd : set.delims[di]? = some d) (hplain : d ∉ set.quotes) (fuel : Nat) {cur : Nat}
    (h : Cached m) (hloaded : m.loaded = true) (hbase : m.base ≤ cur) (hblock : cur ≤ m.base + 64)
    (hfuel : buf.bytes.length < m.base + fuel) (hstart : start ≤ cur)
    (hbefore : NoneIn (Free set.isQuote buf.bytes start d) start cur)
    (hregion : Encodes m.inQuote (regionAt set.isQuote buf.bytes start cur)) :
    ∃ r m', unquotedLoop di fuel m cur = some (r, m') ∧
      Least (Free set.isQuote buf.bytes start d) cur r ∧ Cached m' ∧
      (r ≠ none → m'.inQuote = 0) := by
  induction fuel generalizing m cur with
  | zero =>
    have hin := (h.aligned hloaded).2
    omega
  | succ fuel ih =>
    have hfull := h.full_ensureAll
    have hcached := h.ensureAll
    rw [← ensureAll_base m] at hbase hblock hfuel
    rw [← ensureAll_loaded m] at hloaded
    rw [← ensureAll_inQuote m] at hregion
    have haligned := (hcached.aligned hloaded).1
    rw [unquotedLoop]
    generalize m.ensureAll = n at *
    have hoffset : n.base + (cur - n.base) = cur := by omega
    obtain ⟨hit, inQuote, hscan, hanswer⟩ := @Full.scanBlockUnquoted _ _ n start d di hfull haligned
      hnul hd hplain (cur - n.base) (by omega) (by omega) (by rw [hoffset]; exact hbefore)
      (by rw [hoffset]; exact hregion)
    simp only [if_neg (Nat.not_lt.mpr hbase), hscan, Option.bind_eq_bind, Option.bind_some]
    cases hit with
    -- the delimiter is found in the block, and the cursor stays outside
    | some p =>
      obtain ⟨hge, hfree, hskip, rfl⟩ := hanswer
      rw [hoffset] at hskip
      exact ⟨_, _, rfl, ⟨by omega, hfree, hskip⟩, hcached.withQuote _ _, fun _ => rfl⟩
    | none =>
      obtain ⟨hskip, hend⟩ := hanswer
      rw [hoffset] at hskip
      have hquoted := hcached.withQuote inQuote n.quotePos
      -- it is not, and the quote that is open at the end is carried into the next block
      rcases hquoted.advanceBlock hloaded with ⟨hnone, hlast⟩ | ⟨hsome, hlt, hnext⟩
      · rw [hnone]
        refine ⟨none, _, rfl, ?_, hcached.withQuote _ _, fun hne => absurd rfl hne⟩
        exact hskip.least_none (fun i hi => hi.lt_length) hlast
      · rw [hsome]
        obtain ⟨r, m', hrun, hleast, hcached', hquote'⟩ :=
          ih (hnext.withQuote inQuote (n.base + 64)) rfl (Nat.le_refl _) (Nat.le_add_right _ _)
            (by simp only [loadAt]; omega) (by simp only [loadAt]; omega) (hbefore.trans hskip) hend
        exact ⟨r, m', hrun, hleast.skip hblock hskip, hcached', hquote'⟩

/-- The calls of `next_unquoted` that the cursor follows. -/
structure InStep (m : BlockMasks buf set) (start : Nat) (d : UInt8) : Prop where
  /-- A call that starts where the cursor left off finds the block of its start loaded, or the one
  that ends there. -/
  block : set.quotes ≠ [] → start < buf.bytes.length → m.loaded = true → start = m.quotePos →
    m.base ≤ start ∧ start ≤ m.base + 64
  /-- No region of NUL is taken for being outside. -/
  nul : NulContained buf set start d

/-- `next_unquoted` on a cursor outside every region is the byte-by-byte scan from its start. The
cursor loads the block of the start and enters the loop there; the region at the start is the one
the invariant has for it. -/
theorem nextUnquoted_spec {start : Nat} {d : UInt8} (hd : d ∈ set.delims)
    (hplain : d ∉ set.quotes) (h : Cached m) (hout : m.inQuote = 0) (hstep : m.InStep start d) :
    ∃ r m', m.nextUnquoted start d = some (r, m') ∧
      Least (Free set.isQuote buf.bytes start d) start r ∧ Cached m' ∧
      (r ≠ none → m'.inQuote = 0) := by
  rw [nextUnquoted]
  by_cases hnone : set.quotes = []
  · -- Without quotes every position is outside.
    rw [if_pos hnone]
    obtain ⟨r, m', hrun, hleast, hcached, hquote⟩ := next_spec hd start h
    refine ⟨r, m', hrun, hleast.congr ?_, hcached, fun _ => hquote.trans hout⟩
    intro i hi
    have hfree : regionAt set.isQuote buf.bytes start i = none := by
      apply regionAt_of_no_quote (Nat.le_refl start) hi (regionAt_self _ _)
      intro j q _ _ _
      simp [DelimiterSet.isQuote, hnone]
    simp [Free, Holds, hfree]
  · rw [if_neg hnone]
    by_cases hlen : start ≥ buf.bytes.length
    · rw [if_pos hlen]
      exact ⟨none, m, rfl, least_none_of_bound (fun i hi => hi.lt_length) hlen, h,
        fun hne => absurd rfl hne⟩
    · rw [if_neg hlen]
      obtain ⟨di, hidx, hget⟩ := DelimiterSet.delimIndex_of_mem hd
      rw [hidx]
      simp only [Option.bind_eq_bind, Option.bind_some]
      have houtside : Encodes 0 (regionAt set.isQuote buf.bytes start start) :=
        encodes_zero.mpr (regionAt_self _ _)
      -- a cursor that has moved away from the last answer starts again outside a quote
      by_cases hfresh : m.loaded = false ∨ start ≠ m.quotePos
      · rw [if_pos hfresh]
        exact unquotedLoop_spec hstep.nul hget hplain _
          ((h.withQuote 0 start).loadAt (by omega) (by omega)) rfl (by simp only [loadAt]; omega)
          (by simp only [loadAt]; omega) (by simp only [loadAt]; omega) (Nat.le_refl start)
          (noneIn_self _ start) houtside
      · rw [if_neg hfresh]
        have hloaded : m.loaded = true := by
          by_contra hno
          exact hfresh (.inl (by simpa using hno))
        have hpos : start = m.quotePos := by
          by_contra hne
          exact hfresh (.inr hne)
        obtain ⟨hbase, hblock⟩ := hstep.block hnone (by omega) hloaded hpos
        exact unquotedLoop_spec hstep.nul hget hplain _ h hloaded hbase hblock (by omega)
          (Nat.le_refl start) (noneIn_self _ start) (by rw [hout]; exact houtside)

/-- At the end of the buffer there is nothing left to find. -/
theorem nextUnquoted_of_end (m : BlockMasks buf set) {start : Nat} (d : UInt8)
    (hend : buf.bytes.length ≤ start) : m.nextUnquoted start d = some (none, m) := by
  rw [nextUnquoted, next, if_pos hend]
  split <;> rfl

/-- A continued scan whose block was moved ahead subtracts below zero. -/
theorem nextUnquoted_of_moved_ahead {start : Nat} {d : UInt8} (hquotes : set.quotes ≠ [])
    (hlen : start < buf.bytes.length) (hloaded : m.loaded = true) (hpos : start = m.quotePos)
    (hahead : start < m.base) : m.nextUnquoted start d = none := by
  have hcontinued : ¬ (m.loaded = false ∨ start ≠ m.quotePos) := by simp [hloaded, hpos]
  rw [nextUnquoted, if_neg hquotes, if_neg (Nat.not_le.mpr hlen)]
  cases set.delimIndex d with
  | none => rfl
  | some di =>
    simp only [Option.bind_eq_bind, Option.bind_some, if_neg hcontinued]
    rw [unquotedLoop]
    simp only [ensureAll_base, if_pos hahead]

end Rypipe.BlockMasks
