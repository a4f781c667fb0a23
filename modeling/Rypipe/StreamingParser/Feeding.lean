import Rypipe.Foundation.Codewords
import Rypipe.StreamingParser

/-! # Validating a feed slice by slice

`feed` gives each slice to `validate` alone, without the pending bytes. A parser that validates
UTF-8 therefore rejects a valid input as soon as a cut falls inside a character, and accepts it
when no slice begins inside one (`accepted_iff`). -/

namespace Rypipe

/-- `simdutf8::basic::from_utf8(bytes).is_ok()`. -/
def IsUtf8 (bytes : List UInt8) : Prop := bytes.toByteArray.IsValidUTF8

instance (bytes : List UInt8) : Decidable (IsUtf8 bytes) :=
  inferInstanceAs (Decidable bytes.toByteArray.IsValidUTF8)

/-- The encoding of a character. -/
def IsEncoding (w : List UInt8) : Prop := ∃ c : Char, w = String.utf8EncodeChar c

theorem toByteArray_injective {l l' : List UInt8} (h : l.toByteArray = l'.toByteArray) : l = l' := by
  have hdata := congrArg (fun b : ByteArray => b.data.toList) h
  simpa using hdata

/-- Valid bytes are encoded characters, one after the other. -/
theorem isUtf8_iff_spelled {bytes : List UInt8} : IsUtf8 bytes ↔ Spelled IsEncoding bytes := by
  constructor
  · rintro ⟨cs, hcs⟩
    refine ⟨cs.map String.utf8EncodeChar, ?_, ?_⟩
    · intro w hw
      obtain ⟨c, -, rfl⟩ := List.mem_map.mp hw
      exact ⟨c, rfl⟩
    · exact toByteArray_injective hcs
  · rintro ⟨words, hwords, rfl⟩
    have hchars : ∃ cs : List Char, words = cs.map String.utf8EncodeChar := by
      induction words with
      | nil => exact ⟨[], rfl⟩
      | cons w words ih =>
        obtain ⟨c, rfl⟩ := hwords w List.mem_cons_self
        obtain ⟨cs, rfl⟩ := ih fun w' hw' => hwords w' (List.mem_cons_of_mem _ hw')
        exact ⟨c :: cs, rfl⟩
    obtain ⟨cs, rfl⟩ := hchars
    exact ⟨cs, rfl⟩

/-- A character begins with a byte that only begins characters. -/
theorem led_isEncoding : Led UInt8.IsUTF8FirstByte IsEncoding := by
  rintro _ ⟨c, rfl⟩
  have hfirst : ∀ (i : Nat) (b : UInt8), (String.utf8EncodeChar c)[i]? = some b →
      (b.IsUTF8FirstByte ↔ i = 0) := by
    intro i b hb
    obtain ⟨hi, rfl⟩ := List.getElem?_eq_some_iff.mp hb
    exact UInt8.isUTF8FirstByte_getElem_utf8EncodeChar
  cases hc : String.utf8EncodeChar c with
  | nil => exact absurd hc String.utf8EncodeChar_ne_nil
  | cons a rest =>
    rw [hc] at hfirst
    refine ⟨a, rest, rfl, (hfirst 0 a rfl).mpr rfl, ?_⟩
    intro b hb hleads
    obtain ⟨i, hi⟩ := List.mem_iff_getElem?.mp hb
    have hzero := (hfirst (i + 1) b hi).mp hleads
    omega

universe u v w

variable {σ : Type u} {ρ : Type v} {ε : Type w}

/-- A parser whose `validate` accepts exactly the valid UTF-8 byte strings. -/
def StreamingRecordParser.ValidatesUtf8 (P : StreamingRecordParser σ ρ ε) : Prop :=
  ∀ parser bytes, P.validate parser bytes = .ok () ↔ IsUtf8 bytes

namespace RecordStream

/-- The slices a list of calls feeds. -/
def slices : List Call → List (List UInt8)
  | [] => []
  | .feed chunk :: calls => chunk :: slices calls
  | _ :: calls => slices calls

theorem fed_eq_flatten (calls : List Call) : fed calls = (slices calls).flatten := by
  induction calls with
  | nil => rfl
  | cons call calls ih => cases call <;> simp [fed, slices, ih]

/-- Every `feed` of the calls returns `Ok`, whatever the `parse` calls between them return. -/
def Accepted (P : StreamingRecordParser σ ρ ε) : RecordStream σ → List Call → Prop
  | _, [] => True
  | stream, .feed chunk :: calls =>
      ∃ stream', stream.feed P chunk = .ok stream' ∧ Accepted P stream' calls
  | stream, .parse :: calls => Accepted P (stream.parse P).2.1 calls
  | stream, .finish :: calls => Accepted P stream.finish calls

variable {P : StreamingRecordParser σ ρ ε}

/-- A feed is accepted exactly when its slice is valid. The slice is validated by itself, and the
stream is then extended by it. -/
theorem feed_ok_iff (hP : P.ValidatesUtf8) (stream stream' : RecordStream σ)
    (chunk : List UInt8) :
    stream.feed P chunk = .ok stream' ↔ IsUtf8 chunk ∧ stream' = stream.extend chunk := by
  have hvalid := hP stream.parser chunk
  unfold feed
  cases hresult : P.validate stream.parser chunk with
  | error e =>
    rw [hresult] at hvalid
    exact ⟨nofun, fun h => nomatch hvalid.mpr h.1⟩
  | ok u =>
    rw [hresult] at hvalid
    have hchunk : IsUtf8 chunk := hvalid.mp rfl
    simp only [Except.map, Except.ok.injEq, hchunk, true_and]
    exact eq_comm

/-- All feeds are accepted exactly when all slices are valid. By induction on the calls, where only
a feed can be refused. -/
theorem accepted_iff_forall (hP : P.ValidatesUtf8) (stream : RecordStream σ) (calls : List Call) :
    Accepted P stream calls ↔ ∀ chunk ∈ slices calls, IsUtf8 chunk := by
  induction calls generalizing stream with
  | nil => exact ⟨fun _ chunk hchunk => (List.not_mem_nil hchunk).elim, fun _ => trivial⟩
  | cons call calls ih =>
    cases call with
    | feed chunk =>
      rw [slices, List.forall_mem_cons, Accepted]
      constructor
      · rintro ⟨stream', hfeed, hrest⟩
        exact ⟨((feed_ok_iff hP stream stream' chunk).mp hfeed).1, (ih stream').mp hrest⟩
      · rintro ⟨hchunk, hrest⟩
        refine ⟨stream.extend chunk, ?_, (ih _).mpr hrest⟩
        exact (feed_ok_iff hP stream _ chunk).mpr ⟨hchunk, rfl⟩
    | parse => exact ih _
    | finish => exact ih _

/-- **Slices are validated alone.** For a parser that validates UTF-8 and calls that feed a valid
input, with any parses in between, every feed is accepted exactly when no slice begins in the middle
of a character. -/
theorem accepted_iff (hP : P.ValidatesUtf8) (parser : σ) (calls : List Call)
    (hinput : IsUtf8 (fed calls)) :
    Accepted P (new parser) calls ↔
      ∀ chunk ∈ slices calls, ∀ b, chunk.head? = some b → b.IsUTF8FirstByte := by
  rw [fed_eq_flatten, isUtf8_iff_spelled] at hinput
  rw [accepted_iff_forall hP]
  simp only [isUtf8_iff_spelled]
  exact spelled_pieces_iff led_isEncoding hinput

end RecordStream

section Examples

/-- The line parser with the validation of the tests' parser. -/
def utf8LineParser : StreamingRecordParser Unit (List UInt8) Unit :=
  { lineParser with validate := fun _ bytes => if IsUtf8 bytes then .ok () else .error () }

theorem validatesUtf8_utf8LineParser : utf8LineParser.ValidatesUtf8 := by
  intro parser bytes
  by_cases h : IsUtf8 bytes
  · simp [utf8LineParser, h]
  · simp [utf8LineParser, h]

/-- The bytes of `é`, which are `0xC3 0xA9`. -/
theorem isUtf8_accent : IsUtf8 [0xC3, 0xA9] := ⟨['é'], by simp [List.utf8Encode]; rfl⟩

open RecordStream

/-- `aé` cut before `é`. -/
theorem accepted_iff_between :
    Accepted utf8LineParser (new ()) [.feed [97], .parse, .feed [0xC3, 0xA9]] := by
  rw [accepted_iff validatesUtf8_utf8LineParser () _ ⟨['a', 'é'], by simp [List.utf8Encode, fed]; rfl⟩]
  intro chunk hchunk b hb
  rcases List.mem_pair.mp (show chunk ∈ [[97], [0xC3, 0xA9]] from hchunk) with rfl | rfl
  · obtain rfl := Option.some.inj hb
    decide
  · obtain rfl := Option.some.inj hb
    decide

/-- `é` cut in two is rejected. -/
theorem accepted_fails :
    ¬ ∀ (parser : Unit) (calls : List Call), IsUtf8 (fed calls) →
      Accepted utf8LineParser (new parser) calls := by
  intro h
  have haccepted := h () [.feed [0xC3], .feed [0xA9]] isUtf8_accent
  rw [accepted_iff_forall validatesUtf8_utf8LineParser] at haccepted
  have hsecond := haccepted [0xA9] (by simp [slices])
  rw [isUtf8_iff_spelled] at hsecond
  exact absurd (hsecond.beginsLed led_isEncoding 0xA9 rfl) (by decide)

end Examples

end Rypipe
