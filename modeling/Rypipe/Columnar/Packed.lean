import Rypipe.Columnar.Buffers

/-! # What the buffers hold

Each buffer packs a list: `Packs` says that it is exactly the layout of that list, so that every
operation on the buffer is described by the operation on lists it stands for. The string buffers
pack their lists as long as their bytes can be counted in an `i32`. -/

namespace Rypipe

/-! ## Validity bits -/

namespace ValidityBitmap

variable {v other : ValidityBitmap} {l m : List Bool}

/-- The bitmap packs the bits `l`: its bytes hold them, and nothing after them. -/
structure Packs (v : ValidityBitmap) (l : List Bool) : Prop where
  len : v.len = l.length
  nulls : v.nullCount = l.count false
  bytes : v.bits.words.length = (l.length + 7) / 8
  bit : ∀ i, v.bits.test i = l[i]?.getD false

/-- The empty bitmap packs the empty list. -/
theorem packs_empty : empty.Packs [] where
  len := rfl
  nulls := rfl
  bytes := rfl
  bit i := by simp [empty]

/-- A bit is valid when the list says so. -/
theorem Packs.isValid (h : v.Packs l) (i : Nat) : v.isValid i = l[i]?.getD false := by
  rw [ValidityBitmap.isValid, h.bit, h.len]
  by_cases hi : i < l.length
  · simp [hi]
  · simp [List.getElem?_eq_none (Nat.le_of_not_lt hi)]

/-- The list after one more bit. -/
theorem getD_concat (l : List Bool) (b : Bool) (i : Nat) :
    (l ++ [b])[i]?.getD false = if i = l.length then b else l[i]?.getD false := by
  rw [List.getElem?_append]
  by_cases hi : i < l.length
  · rw [if_pos hi, if_neg (by omega)]
  · rw [if_neg hi, List.getElem?_eq_none (Nat.le_of_not_lt hi)]
    by_cases heq : i = l.length
    · simp [heq]
    · rw [if_neg heq, List.getElem?_eq_none (by simp; omega)]

/-- Pushing a bit packs the list with the bit at its end. A byte is added when the length is a
multiple of eight, and is zero, so that the bits beyond the length stay clear. -/
theorem Packs.push (h : v.Packs l) (b : Bool) : (v.push b).Packs (l ++ [b]) := by
  have hlen := h.len
  have hbytes := h.bytes
  -- The byte that takes the bit is there, and changes nothing by itself.
  have hroom : ∀ bits : WordSet 8,
      bits = (if v.len % 8 = 0 then v.bits.pushWord else v.bits) →
        bits.words.length = (l.length + 1 + 7) / 8 ∧ ∀ i, bits.test i = l[i]?.getD false := by
    rintro bits rfl
    split
    · refine ⟨?_, fun i => by rw [WordSet.test_pushWord, h.bit]⟩
      rw [WordSet.pushWord, List.length_append, List.length_singleton]
      omega
    · exact ⟨by omega, h.bit⟩
  obtain ⟨hcount, htest⟩ := hroom _ rfl
  have hcap : v.len < (if v.len % 8 = 0 then v.bits.pushWord else v.bits).capacity := by
    rw [WordSet.capacity, hcount]
    omega
  rw [ValidityBitmap.push]
  refine ⟨by simp [hlen], ?_, ?_, ?_⟩
  · rw [List.count_append, h.nulls]
    cases b <;> simp
  · rw [List.length_append, List.length_singleton, ← hcount]
    cases b
    · rfl
    · simp [WordSet.insert]
  · intro i
    rw [getD_concat]
    cases b
    · rw [if_neg Bool.false_ne_true, htest]
      split
      · next hi => simp [hi]
      · rfl
    · rw [if_pos rfl, WordSet.test_insert _ hcap, htest, hlen]
      by_cases hi : i = l.length <;> simp [hi]

/-- Without rows there is nothing to pop. -/
theorem Packs.pop_nil (h : v.Packs []) : v.pop = none := by
  have hlen : v.len = 0 := h.len
  rw [ValidityBitmap.pop, if_pos hlen]

/-- The last bit, and the bitmap of the others. The bit is cleared in its byte, and the byte is
dropped when it held no other, so that the bits beyond the length stay clear. -/
theorem Packs.pop {b : Bool} (h : v.Packs (l ++ [b])) :
    ∃ v', v.pop = some (b, v') ∧ v'.Packs l := by
  have hlen : v.len = l.length + 1 := by simpa using h.len
  have hbytes := h.bytes
  rw [List.length_append, List.length_singleton] at hbytes
  have hlast : v.bits.test (v.len - 1) = b := by
    rw [h.bit, getD_concat, if_pos (by omega)]
  have htest : ∀ i, (v.bits.remove (v.len - 1)).test i = l[i]?.getD false := by
    intro i
    rw [WordSet.test_remove (by decide), h.bit, getD_concat]
    by_cases hi : i = l.length
    · simp [hi, hlen]
    · rw [if_neg hi, decide_eq_false (by omega)]
      simp
  have hcount : (v.bits.remove (v.len - 1)).words.length = v.bits.words.length := by
    simp [WordSet.remove]
  rw [ValidityBitmap.pop, if_neg (by omega)]
  simp only [hlast]
  refine ⟨_, rfl, ⟨by simp [hlen], ?_, ?_, ?_⟩⟩
  · have hnulls := h.nulls
    rw [List.count_append] at hnulls
    simp only
    cases b <;> simp at hnulls ⊢ <;> omega
  · simp only
    split
    · rw [WordSet.popWord, List.length_dropLast]
      omega
    · omega
  · intro i
    simp only
    split
    · -- The dropped byte held the popped bit only.
      rw [WordSet.test_popWord, htest]
      by_cases hi : i < l.length
      · rw [decide_eq_true (by omega), Bool.true_and]
      · rw [List.getElem?_eq_none (Nat.le_of_not_lt hi)]
        simp
    · exact htest i

/-- Pushing bits one by one: `count` bits of the other bitmap from `start` on come after those that
are there. -/
theorem Packs.pushRange (h : v.Packs l) (hother : other.Packs m) (start count : Nat)
    (hfits : start + count ≤ m.length) :
    (v.pushRange other start count).Packs (l ++ (m.drop start).take count) := by
  induction count with
  | zero => simpa [ValidityBitmap.pushRange] using h
  | succ count ih =>
    have hstep := (ih (by omega)).push (other.isValid (start + count))
    obtain ⟨b, hb⟩ : ∃ b, m[start + count]? = some b :=
      ⟨_, List.getElem?_eq_getElem (by omega)⟩
    rw [hother.isValid, hb, Option.getD_some, List.append_assoc] at hstep
    have htake : (m.drop start).take (count + 1) = (m.drop start).take count ++ [b] := by
      rw [List.take_add_one, List.getElem?_drop, hb, Option.toList_some]
    rw [htake]
    simpa [ValidityBitmap.pushRange, List.range'_concat, hother.isValid, hb] using hstep

/-- Joined bitmaps pack the joined lists, whether the first ends at a byte or not. Where it does,
the bytes are appended as they are; otherwise the bits are pushed one by one. -/
theorem Packs.append (h : v.Packs l) (hother : other.Packs m) :
    (v.append other).Packs (l ++ m) := by
  rw [ValidityBitmap.append]
  by_cases haligned : v.len % 8 = 0
  · rw [if_pos haligned]
    -- the words of the other bitmap begin at a byte boundary, so they are appended as they are
    have hcap : v.bits.capacity = l.length := by
      rw [WordSet.capacity, h.bytes]
      have hlen := h.len
      omega
    have htest : ∀ i, (v.bits.append other.bits).test i = (l ++ m)[i]?.getD false := by
      intro i
      rw [WordSet.test_append (by decide), hcap, List.getElem?_append, h.bit, hother.bit]
      split <;> rfl
    have hcount : (v.bits.append other.bits).words.length = ((l ++ m).length + 7) / 8 := by
      rw [WordSet.append, List.length_append, h.bytes, hother.bytes, List.length_append]
      have hlen := h.len
      omega
    refine ⟨by simp [h.len, hother.len], by simp [h.nulls, hother.nulls], ?_, ?_⟩
    · simp only
      split
      · simpa [WordSet.maskLast] using hcount
      · exact hcount
    · intro i
      simp only
      split
      · -- The mask only cuts bits past the end, which are clear.
        next hpartial =>
        rw [WordSet.test_maskLast, htest, hcount]
        by_cases hi : i < (l ++ m).length
        · have hkeep : i / 8 ≠ ((l ++ m).length + 7) / 8 - 1 ∨
              ((1#8 <<< ((v.len + other.len) % 8)) - 1#8).getLsbD (i % 8) = true := by
            by_cases hword : i / 8 = ((l ++ m).length + 7) / 8 - 1
            · right
              have hall : ∀ n < 8, ∀ k < n, ((1#8 <<< n) - 1#8).getLsbD k = true := by decide
              apply hall _ (Nat.mod_lt _ (by decide))
              rw [h.len, hother.len, ← List.length_append]
              rw [h.len, hother.len, ← List.length_append] at hpartial
              omega
            · exact .inl hword
          rcases hkeep with hkeep | hkeep
          · rw [decide_eq_true hkeep, Bool.true_or, Bool.and_true]
          · rw [hkeep, Bool.or_true, Bool.and_true]
        · rw [List.getElem?_eq_none (Nat.le_of_not_lt hi)]
          simp
      · exact htest i
  -- otherwise the bits are pushed one by one
  · rw [if_neg haligned]
    have hrange := h.pushRange hother 0 other.len (by rw [hother.len]; omega)
    rwa [List.drop_zero, hother.len, List.take_length, ← hother.len] at hrange

/-- The two halves of a split of the bits. Each half is pushed bit by bit onto an empty bitmap, so
that its bits start at a byte again. -/
theorem Packs.splitOff (h : v.Packs l) {n : Nat} (hn : n ≤ l.length) :
    (v.splitOff n).1.Packs (l.take n) ∧ (v.splitOff n).2.Packs (l.drop n) := by
  have hlen := h.len
  have hhead := packs_empty.pushRange h 0 n (by omega)
  have hrest := packs_empty.pushRange h n (v.len - n) (by omega)
  rw [List.nil_append] at hhead hrest
  rw [ValidityBitmap.splitOff]
  refine ⟨by simpa using hhead, ?_⟩
  rwa [List.take_of_length_le (by rw [List.length_drop]; omega)] at hrest

end ValidityBitmap

/-! ## Primitive columns -/

namespace PrimColumn

variable {α β : Type} [Inhabited α] [Inhabited β] {c other : PrimColumn α} {l m : List (Option α)}

/-- The column packs the rows `l`: a default stands at the null ones. -/
structure Packs (c : PrimColumn α) (l : List (Option α)) : Prop where
  data : c.data = l.map (·.getD default)
  validity : c.validity.Packs (l.map Option.isSome)

/-- An empty column packs the empty list. -/
theorem packs_empty : (empty : PrimColumn α).Packs [] := ⟨rfl, ValidityBitmap.packs_empty⟩

/-- A column that packs a list has its length. -/
theorem Packs.len_eq (h : c.Packs l) : c.len = l.length := by
  rw [PrimColumn.len, h.validity.len, List.length_map]

/-- Reading a row gives its entry of the list: the value where the bit is set, and a null where it
is clear or the row is out of range. -/
theorem Packs.get (h : c.Packs l) (i : Nat) : c.get i = l[i]?.join := by
  rw [PrimColumn.get, h.validity.isValid, h.data, List.getElem?_map, List.getElem?_map]
  rcases l[i]? with _ | _ | v <;> rfl

/-- The rows in order are the list, read one by one with `get`. -/
theorem Packs.iter (h : c.Packs l) : c.iter = l := by
  rw [PrimColumn.iter, h.len_eq]
  apply List.ext_getElem?
  intro i
  rw [List.getElem?_map]
  by_cases hi : i < l.length
  · rw [List.getElem?_range hi, Option.map_some, h.get, List.getElem?_eq_getElem hi]
    rfl
  · rw [List.getElem?_eq_none (by simpa using hi), List.getElem?_eq_none (by simpa using hi)]
    rfl

/-- Pushing an optional value packs the list with it at the end. A null stores the default value and
a clear bit. -/
theorem Packs.push (h : c.Packs l) (v : Option α) : (c.push v).Packs (l ++ [v]) where
  data := by simp [PrimColumn.push, h.data]
  validity := by simpa [PrimColumn.push] using h.validity.push v.isSome

/-- `pop` drops the last entry of the list: the value and its bit. An empty column stays as it is. -/
theorem Packs.pop (h : c.Packs l) : c.pop.Packs l.dropLast := by
  rcases List.eq_nil_or_concat' l with rfl | ⟨l, v, rfl⟩
  · have hnone := ValidityBitmap.Packs.pop_nil h.validity
    refine ⟨?_, ?_⟩
    · simp [PrimColumn.pop, h.data]
    · simpa [PrimColumn.pop, hnone] using h.validity
  · have hvalidity := h.validity
    rw [List.map_append, List.map_singleton] at hvalidity
    obtain ⟨validity, hpop, hpacks⟩ := hvalidity.pop
    refine ⟨?_, ?_⟩
    · simp [PrimColumn.pop, h.data]
    · simpa [PrimColumn.pop, hpop] using hpacks

/-- The pop of the code column does the same. It drops the last code and its validity bit together,
so the codes that are left are those of the rows that are left. -/
theorem Packs.popCode (h : c.Packs l) :
    (NullableColumn.popCode c).Packs l.dropLast := by
  rcases List.eq_nil_or_concat' l with rfl | ⟨l, v, rfl⟩
  · rw [NullableColumn.popCode, ValidityBitmap.Packs.pop_nil h.validity]
    exact h
  · have hvalidity := h.validity
    rw [List.map_append, List.map_singleton] at hvalidity
    obtain ⟨validity, hpop, hpacks⟩ := hvalidity.pop
    rw [NullableColumn.popCode, hpop]
    exact ⟨by simp [h.data], by simpa using hpacks⟩

/-- `append` packs the concatenation: the data is appended, and so is the bitmap. -/
theorem Packs.append (h : c.Packs l) (hother : other.Packs m) :
    (c.append other).Packs (l ++ m) where
  data := by simp [PrimColumn.append, h.data, hother.data]
  validity := by simpa [PrimColumn.append] using h.validity.append hother.validity

/-- `extend_owned` takes the other column over whole when it has no rows itself. -/
theorem Packs.takeIn (h : c.Packs l) (hother : other.Packs m) :
    (if c.len = 0 then other else c.append other).Packs (l ++ m) := by
  by_cases hzero : c.len = 0
  · have hnil : l = [] := List.length_eq_zero_iff.mp (h.len_eq.symm.trans hzero)
    rw [if_pos hzero, hnil, List.nil_append]
    exact hother
  · rw [if_neg hzero]
    exact h.append hother

/-- Rows pushed one by one. -/
theorem Packs.foldl_push {γ : Type} (h : c.Packs l) (f : γ → Option α) (rows : List γ) :
    (rows.foldl (fun c r => c.push (f r)) c).Packs (l ++ rows.map f) := by
  induction rows generalizing c l with
  | nil => simpa using h
  | cons r rest ih => simpa using ih (h.push (f r))

/-- `split_off(n)` packs the first `n` entries in one part and the others in the other part. -/
theorem Packs.splitOff (h : c.Packs l) {n : Nat} (hn : n ≤ l.length) :
    (c.splitOff n).1.Packs (l.take n) ∧ (c.splitOff n).2.Packs (l.drop n) := by
  obtain ⟨hhead, hrest⟩ := h.validity.splitOff (by simpa using hn)
  refine ⟨⟨?_, ?_⟩, ⟨?_, ?_⟩⟩
  · simp [PrimColumn.splitOff, h.data, List.map_take]
  · simpa [PrimColumn.splitOff, List.map_take] using hhead
  · simp [PrimColumn.splitOff, h.data, List.map_drop]
  · simpa [PrimColumn.splitOff, List.map_drop] using hrest

/-- Converting the values, when the default converts to the default. -/
theorem Packs.convert (h : c.Packs l) (f : α → β) (hf : f default = default) :
    (⟨c.data.map f, c.validity⟩ : PrimColumn β).Packs (l.map (·.map f)) where
  data := by
    rw [h.data, List.map_map, List.map_map]
    refine List.map_congr_left fun v _ => ?_
    cases v with
    | none => exact hf
    | some v => rfl
  validity := by
    rw [List.map_map]
    have hsome : (Option.isSome ∘ fun v : Option α => v.map f) = Option.isSome := by
      funext v
      cases v <;> rfl
    rw [hsome]
    exact h.validity

end PrimColumn

/-! ## Offsets -/

/-- Wrapping keeps what an `i32` can hold. -/
theorem wrapI32_of_lt {n : Nat} (h : n < 2147483648) : wrapI32 n = n := by
  simp only [wrapI32]
  split <;> omega

/-- Beyond that nothing is kept. -/
theorem wrapI32_ne {n : Nat} (h : 2147483648 ≤ n) : wrapI32 n ≠ n := by
  simp only [wrapI32]
  split <;> omega

/-- Wrapping is a congruence for addition, as on an `i32`. -/
theorem wrapI32_add (a b : Int) : wrapI32 (wrapI32 a + wrapI32 b) = wrapI32 (a + b) := by
  simp only [wrapI32]
  split <;> split <;> split <;> split <;> omega

/-- Wrapping is a congruence for subtraction, as on an `i32`. -/
theorem wrapI32_sub (a b : Int) : wrapI32 (wrapI32 a - wrapI32 b) = wrapI32 (a - b) := by
  simp only [wrapI32]
  split <;> split <;> split <;> split <;> omega

/-- A natural number is not negative, so the cast to `usize` gives it back. -/
theorem i32AsUsize_natCast (n : Nat) : i32AsUsize n = n := by
  rw [i32AsUsize, if_pos (Int.natCast_nonneg n), Int.toNat_natCast]

/-- A position that fits survives the way through an `i32`. -/
theorem i32AsUsize_wrapI32 {n : Nat} (h : n < 2147483648) : i32AsUsize (wrapI32 n) = n := by
  rw [wrapI32_of_lt h, i32AsUsize_natCast]

/-- The bytes of a string are valid UTF-8 and read back as the string. -/
theorem fromUtf8_utf8 (s : String) : fromUtf8 (utf8 s) = some s := by
  have hbytes : (⟨(utf8 s).toArray⟩ : ByteArray) = s.toByteArray := by
    rw [utf8, Array.toArray_toList]
  rw [fromUtf8, hbytes, String.fromUTF8?, dif_pos s.isValidUTF8]
  rfl

/-- The stored offsets of an arena. -/
def storedOffsets (chunks : List (List UInt8)) : List Int :=
  (Arena.offsets chunks).map fun o : Nat => wrapI32 o

/-- Zero is its own `i32`. -/
theorem wrapI32_zero : wrapI32 ((0 : Nat) : Int) = 0 := wrapI32_of_lt (by decide)

/-- An empty arena stores the one offset 0. -/
theorem storedOffsets_nil : storedOffsets [] = [0] := by
  rw [storedOffsets, Arena.offsets_nil, List.map_singleton, wrapI32_zero]

/-- A chunk at the end adds the wrapped length of all bytes as the last offset. -/
theorem storedOffsets_concat (chunks : List (List UInt8)) (c : List UInt8) :
    storedOffsets (chunks ++ [c]) =
      storedOffsets chunks ++ [wrapI32 (chunks.flatten ++ c).length] := by
  rw [storedOffsets, Arena.offsets_concat, List.map_append, List.map_singleton, storedOffsets]

/-- A chunk of an arena that fits, read through the stored offsets. -/
theorem read_chunk {chunks : List (List UInt8)} (hfits : chunks.flatten.length < 2147483648)
    {k : Nat} {c : List UInt8} (hc : chunks[k]? = some c) :
    ∃ first last, (storedOffsets chunks)[k]? = some first ∧
      (storedOffsets chunks)[k + 1]? = some last ∧
      slice chunks.flatten (i32AsUsize first) (i32AsUsize last) = c := by
  have hk : k < chunks.length := (List.getElem?_eq_some_iff.mp hc).1
  refine ⟨wrapI32 (Arena.offset chunks k), wrapI32 (Arena.offset chunks (k + 1)), ?_, ?_, ?_⟩
  · rw [storedOffsets, List.getElem?_map, Arena.getElem?_offsets chunks (by omega),
      Option.map_some]
  · rw [storedOffsets, List.getElem?_map, Arena.getElem?_offsets chunks (by omega),
      Option.map_some]
  · rw [i32AsUsize_wrapI32 (Nat.lt_of_le_of_lt (Arena.offset_le chunks k) hfits),
      i32AsUsize_wrapI32 (Nat.lt_of_le_of_lt (Arena.offset_le chunks (k + 1)) hfits)]
    exact Arena.slice_offsets chunks hc

/-- Stored offsets are the true ones exactly when the arena fits. -/
theorem storedOffsets_exact (chunks : List (List UInt8)) :
    storedOffsets chunks = (Arena.offsets chunks).map Int.ofNat ↔
      chunks.flatten.length < 2147483648 := by
  constructor
  · intro heq
    by_contra hbig
    have hlast := congrArg List.getLast? heq
    rw [storedOffsets, List.getLast?_map, List.getLast?_map, Arena.getLast?_offsets,
      Option.map_some, Option.map_some, Option.some.injEq] at hlast
    exact wrapI32_ne (Nat.le_of_not_lt hbig) hlast
  · intro hfits
    apply List.map_congr_left
    intro o ho
    exact wrapI32_of_lt (Nat.lt_of_le_of_lt (Arena.le_of_mem_offsets ho) hfits)

/-! ## String columns -/

/-- The bytes of a row; a null one has none. -/
def rowBytes : Option String → List UInt8
  | some s => utf8 s
  | none => []

namespace StrColumn

variable {c other : StrColumn} {l m : List (Option String)}

/-- The column packs the rows `l`, with its offsets as they come out of an `i32`. -/
structure Packs (c : StrColumn) (l : List (Option String)) : Prop where
  data : c.data = (l.map rowBytes).flatten
  offsets : c.offsets = storedOffsets (l.map rowBytes)
  validity : c.validity.Packs (l.map Option.isSome)

/-- The bytes can be counted in an `i32`. -/
def Fits (c : StrColumn) : Prop := c.data.length < 2147483648

/-- An empty string column packs the empty list: no bytes, and the one offset 0. -/
theorem packs_empty : empty.Packs [] :=
  ⟨rfl, storedOffsets_nil.symm, ValidityBitmap.packs_empty⟩

/-- A string column that packs a list has its length, that of the validity bitmap. -/
theorem Packs.len_eq (h : c.Packs l) : c.len = l.length := by
  rw [StrColumn.len, h.validity.len, List.length_map]

/-- In a column that fits, the text of the list is shorter than `2^31` bytes. -/
theorem Packs.fits (h : c.Packs l) (hfits : c.Fits) :
    (l.map rowBytes).flatten.length < 2147483648 := by
  rw [← h.data]
  exact hfits

/-- Pushing a text appends its bytes and the wrapped end; a null appends none and repeats the last
offset. No bound on the bytes is needed, since the stored offsets are the wrapped ones. -/
theorem Packs.push (h : c.Packs l) (v : Option String) : (c.push v).Packs (l ++ [v]) := by
  have hdata : (c.push v).data = ((l ++ [v]).map rowBytes).flatten := by
    cases v <;> simp [StrColumn.push, h.data, rowBytes]
  refine ⟨hdata, ?_, ?_⟩
  · rw [List.map_append, List.map_singleton, storedOffsets_concat, ← h.offsets]
    rw [List.map_append, List.map_singleton, List.flatten_append, List.flatten_singleton] at hdata
    rw [← hdata]
    rfl
  · simpa [StrColumn.push] using h.validity.push v.isSome

/-- Reading a row, as long as the bytes fit. The bit says whether there is a text, and its two
offsets, which have not wrapped, cut it out of the bytes. -/
theorem Packs.get (h : c.Packs l) (hfits : c.Fits) (i : Nat) : c.get i = l[i]?.join := by
  rw [StrColumn.get, h.validity.isValid, List.getElem?_map]
  rcases hrow : l[i]? with _ | _ | s
  · rfl
  · rfl
  · have hchunk : (l.map rowBytes)[i]? = some (utf8 s) := by
      rw [List.getElem?_map, hrow]
      rfl
    obtain ⟨first, last, hfirst, hlast, hslice⟩ := read_chunk (h.fits hfits) hchunk
    rw [h.offsets, h.data, hfirst, hlast]
    simpa [hslice] using fromUtf8_utf8 s

/-- The rows in order are the list, read one by one with `get`, as long as the bytes fit. -/
theorem Packs.iter (h : c.Packs l) (hfits : c.Fits) : c.iter = l := by
  rw [StrColumn.iter, h.len_eq]
  apply List.ext_getElem?
  intro i
  rw [List.getElem?_map]
  by_cases hi : i < l.length
  · rw [List.getElem?_range hi, Option.map_some, h.get hfits, List.getElem?_eq_getElem hi]
    rfl
  · rw [List.getElem?_eq_none (by simpa using hi), List.getElem?_eq_none (by simpa using hi)]
    rfl

/-- `pop` drops the last text, with its offset and its bit. It cuts the bytes at the last offset that
is left, which must not have wrapped. -/
theorem Packs.pop (h : c.Packs l) (hfits : c.Fits) : c.pop.Packs l.dropLast := by
  rcases List.eq_nil_or_concat' l with rfl | ⟨l, v, rfl⟩
  · rw [StrColumn.pop, ValidityBitmap.Packs.pop_nil h.validity]
    exact h
  · have hvalidity := h.validity
    have hoffsets := h.offsets
    have hdata := h.data
    have hbytes := h.fits hfits
    rw [List.map_append, List.map_singleton] at hvalidity hoffsets hdata hbytes
    rw [storedOffsets_concat] at hoffsets
    rw [List.flatten_append, List.flatten_singleton] at hdata hbytes
    obtain ⟨validity, hpop, hpacks⟩ := hvalidity.pop
    have hlast : (storedOffsets (l.map rowBytes)).getLast? =
        some (wrapI32 (l.map rowBytes).flatten.length) := by
      rw [storedOffsets, List.getLast?_map, Arena.getLast?_offsets, Option.map_some]
    rw [List.length_append] at hbytes
    have hcut : i32AsUsize (wrapI32 (l.map rowBytes).flatten.length) =
        (l.map rowBytes).flatten.length := i32AsUsize_wrapI32 (by omega)
    have hdrop : c.offsets.dropLast = storedOffsets (l.map rowBytes) := by
      rw [hoffsets, List.dropLast_concat]
    have htake : c.data.take (l.map rowBytes).flatten.length = (l.map rowBytes).flatten := by
      rw [hdata, List.take_left]
    have hpopped : c.pop = ⟨(l.map rowBytes).flatten, storedOffsets (l.map rowBytes),
        validity⟩ := by
      rw [StrColumn.pop, hpop]
      dsimp only
      rw [hdrop, hlast, Option.getD_some, hcut, htake]
    rw [hpopped, List.dropLast_concat]
    exact ⟨rfl, rfl, hpacks⟩

/-- Joined columns: the offsets of the second one are moved by the length of the first. The sums may
wrap, as the offsets that would have been pushed do. -/
theorem Packs.append (h : c.Packs l) (hother : other.Packs m) :
    (c.append other).Packs (l ++ m) := by
  refine ⟨?_, ?_, ?_⟩
  · simp [StrColumn.append, h.data, hother.data]
  · have hmoved : (other.offsets.drop 1).map (fun o => wrapI32 (o + wrapI32 c.data.length)) =
        ((Arena.offsets (m.map rowBytes)).tail.map
          ((l.map rowBytes).flatten.length + ·)).map fun o : Nat => wrapI32 o := by
      rw [hother.offsets, storedOffsets, ← List.map_drop, List.drop_one, List.map_map,
        List.map_map]
      refine List.map_congr_left fun o _ => ?_
      have hsum : (o : Int) + ((l.map rowBytes).flatten.length : Nat) =
          (((l.map rowBytes).flatten.length + o : Nat) : Int) := by omega
      rw [Function.comp_apply, Function.comp_apply, wrapI32_add, h.data, hsum]
    rw [StrColumn.append]
    simp only
    rw [hmoved, h.offsets, List.map_append, storedOffsets, storedOffsets, Arena.offsets_append,
      List.map_append]
  · simpa [StrColumn.append] using h.validity.append hother.validity

/-- `extend_owned` takes the other column over whole when it has no rows itself. -/
theorem Packs.takeIn (h : c.Packs l) (hother : other.Packs m) :
    (if c.len = 0 then other else c.append other).Packs (l ++ m) := by
  by_cases hzero : c.len = 0
  · have hnil : l = [] := List.length_eq_zero_iff.mp (h.len_eq.symm.trans hzero)
    rw [if_pos hzero, hnil, List.nil_append]
    exact hother
  · rw [if_neg hzero]
    exact h.append hother

/-- The two halves of a split of at least one row. The second half takes the bytes from the offset
at which it is cut, and its offsets are counted from there. -/
theorem Packs.splitOff (h : c.Packs l) (hfits : c.Fits) {n : Nat} (hpos : 1 ≤ n)
    (hn : n ≤ l.length) :
    (c.splitOff n).1.Packs (l.take n) ∧ (c.splitOff n).2.Packs (l.drop n) := by
  have hlen := h.len_eq
  rw [StrColumn.splitOff, if_neg (by omega)]
  -- everything stays in the head, and the rest is empty
  by_cases hall : n = c.len
  · rw [if_pos hall, List.take_of_length_le (by omega), List.drop_of_length_le (by omega)]
    exact ⟨h, packs_empty⟩
  · rw [if_neg hall]
    obtain ⟨hhead, hrest⟩ := h.validity.splitOff (by simpa using hn)
    have hn' : n ≤ (l.map rowBytes).length := by simpa using hn
    -- the offset read at the cut is the length of the first `n` texts, as it has not wrapped
    have hcut : i32AsUsize (c.offsets[n]?.getD 0) = Arena.offset (l.map rowBytes) n := by
      rw [h.offsets, storedOffsets, List.getElem?_map, Arena.getElem?_offsets _ hn',
        Option.map_some, Option.getD_some]
      exact i32AsUsize_wrapI32 (Nat.lt_of_le_of_lt (Arena.offset_le _ n) (h.fits hfits))
    simp only [hcut]
    refine ⟨⟨?_, ?_, by simpa [List.map_take] using hhead⟩,
      ⟨?_, ?_, by simpa [List.map_drop] using hrest⟩⟩
    · rw [h.data, Arena.take_offset, List.map_take]
    · rw [h.offsets, storedOffsets, ← List.map_take, ← Arena.offsets_take _ hn', List.map_take,
        storedOffsets]
    · simp only
      rw [h.data, Arena.drop_offset, List.map_drop]
    · simp only
      rw [h.offsets, storedOffsets, ← List.map_drop, Arena.drop_offsets _ hn', List.map_map,
        List.map_map, List.map_drop, storedOffsets, Arena.offsets_eq_cons, List.map_cons,
        wrapI32_zero, List.tail_cons]
      -- the offsets of the rest are rebased to the cut
      congr 1
      refine List.map_congr_left fun o _ => ?_
      have hback : ((Arena.offset (l.map rowBytes) n + o : Nat) : Int) -
          (Arena.offset (l.map rowBytes) n : Nat) = o := by omega
      rw [Function.comp_apply, Function.comp_apply, wrapI32_sub, hback]

end StrColumn

end Rypipe
