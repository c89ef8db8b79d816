import CommandReference.Json.Printer
import CommandReference.Json.Reader
import CommandReference.Proofs.Text.Utf8

namespace CommandReference.Json

/-! Texts in ASCII form are read back. A character is written in one of three ways: as
itself, as a short escape, or as the escapes of its UTF-16 units. -/

def writtenCharacter (character : Char) : List Char :=
  (quotedCharacter character).flatMap asciiCharacter

theorem asciiCharacter_of_ascii {character : Char} (ascii : character.toNat < 0x80) :
    asciiCharacter character = [character] :=
  if_pos ascii

theorem flatMap_ascii {characters : List Char}
    (ascii : ∀ character ∈ characters, character.toNat < 0x80) :
    characters.flatMap asciiCharacter = characters := by
  induction characters with
  | nil => rfl
  | cons character rest induction =>
      rw [List.flatMap_cons, asciiCharacter_of_ascii (ascii character List.mem_cons_self),
        induction fun later member => ascii later (List.mem_cons_of_mem character member),
        List.singleton_append]

/-! ## UTF-16 units -/

theorem hexDigit_facts : ∀ digit < 16, hexValue? (hexDigit digit) = some digit ∧
    (hexDigit digit).utf8Size = 1 ∧ (hexDigit digit).toNat < 0x80 := by
  decide

theorem readUnit_hexQuad {unit : Nat} (bound : unit < 65536) (rest : List Char) :
    readUnit (hexQuad unit ++ rest) = .ok (unit, rest) := by
  have first := hexDigit_facts (unit / 4096 % 16) (by omega)
  have second := hexDigit_facts (unit / 256 % 16) (by omega)
  have third := hexDigit_facts (unit / 16 % 16) (by omega)
  have fourth := hexDigit_facts (unit % 16) (by omega)
  have digits : (((unit / 4096 % 16) * 16 + unit / 256 % 16) * 16 + unit / 16 % 16) * 16 +
      unit % 16 = unit := by omega
  have taken : (hexQuad unit ++ rest).take 4 = hexQuad unit := rfl
  have dropped : (hexQuad unit ++ rest).drop 4 = rest := rfl
  have size : Utf8.length (hexQuad unit) = 4 := by
    simp only [hexQuad, Utf8.length, first.2.1, second.2.1, third.2.1, fourth.2.1]
  have values : (hexQuad unit).mapM hexValue? = some [unit / 4096 % 16, unit / 256 % 16,
      unit / 16 % 16, unit % 16] := by
    simp [hexQuad, first.1, second.1, third.1, fourth.1]
  rw [readUnit, taken, dropped, size, if_neg (by decide), values]
  simp only [digits]

theorem escapedUnit_ascii (unit : Nat) :
    ∀ character ∈ escapedUnit unit, character.toNat < 0x80 := by
  intro character member
  simp only [escapedUnit, hexQuad, List.mem_cons, List.not_mem_nil, or_false] at member
  rcases member with rfl | rfl | rfl | rfl | rfl | rfl
  · decide
  · decide
  · exact (hexDigit_facts _ (by omega)).2.2
  · exact (hexDigit_facts _ (by omega)).2.2
  · exact (hexDigit_facts _ (by omega)).2.2
  · exact (hexDigit_facts _ (by omega)).2.2

theorem readEscapedCharacter_single {unit : Nat} (bound : unit < 65536)
    (single : unit < 0xD800 ∨ 0xDFFF < unit) (rest : List Char) :
    readEscapedCharacter (hexQuad unit ++ rest) = .ok (Char.ofNat unit, rest) := by
  simp only [readEscapedCharacter, readUnit_hexQuad bound, bind, Except.bind, if_pos single]
  rfl

theorem readEscapedCharacter_pair {high low : Nat} (highBelow : high < 1024)
    (lowBelow : low < 1024) (rest : List Char) :
    readEscapedCharacter (hexQuad (0xD800 + high) ++ escapedUnit (0xDC00 + low) ++ rest) =
      .ok (Char.ofNat (0x10000 + high * 1024 + low), rest) := by
  have highUnit := readUnit_hexQuad (show 0xD800 + high < 65536 by omega)
    (escapedUnit (0xDC00 + low) ++ rest)
  have lowUnit := readUnit_hexQuad (show 0xDC00 + low < 65536 by omega) rest
  rw [List.append_assoc]
  simp only [readEscapedCharacter, highUnit, bind, Except.bind]
  rw [if_neg (by omega), if_neg (by omega)]
  simp only [escapedUnit, List.cons_append, lowUnit]
  rw [if_pos (by omega), Nat.add_sub_cancel_left, Nat.add_sub_cancel_left]
  rfl

/-! ## Characters of a text -/

def consRead (character : Char) (parsed : Except ReadError (List Char × List Char)) :
    Except ReadError (List Char × List Char) :=
  parsed.map fun (characters, rest) => (character :: characters, rest)

theorem readTextWithin_escape (steps : Nat) (escape : List Char) {rest : List Char}
    {character : Char} (read : readEscape (escape ++ rest) = .ok (character, rest)) :
    readTextWithin (steps + 1) ('\\' :: escape ++ rest) =
      consRead character (readTextWithin steps rest) := by
  rw [List.cons_append, readTextWithin]
  simp only [read, bind, Except.bind, consRead]
  cases readTextWithin steps rest <;> rfl

theorem readTextWithin_plain {steps : Nat} {character : Char} (rest : List Char)
    (notQuote : character ≠ '"') (notEscape : character ≠ '\\')
    (notControl : ¬ character.toNat < 0x20) :
    readTextWithin (steps + 1) (character :: rest) =
      consRead character (readTextWithin steps rest) := by
  rw [readTextWithin]
  · rw [if_neg notControl]
    simp only [bind, Except.bind, consRead]
    cases readTextWithin steps rest <;> rfl
  · exact notQuote
  · exact notEscape

theorem readTextWithin_units (steps : Nat) {character : Char}
    (beyond : 0x80 ≤ character.toNat) (rest : List Char) :
    readTextWithin (steps + 1) (asciiCharacter character ++ rest) =
      consRead character (readTextWithin steps rest) := by
  have range : character.toNat < 0xD800 ∨
      0xDFFF < character.toNat ∧ character.toNat < 0x110000 := character.valid
  rw [asciiCharacter, if_neg (by omega), utf16Units]
  split
  case isTrue small =>
    have read := readEscapedCharacter_single small (by omega) rest
    rw [Char.ofNat_toNat] at read
    rw [List.flatMap_singleton]
    exact readTextWithin_escape steps _ read
  case isFalse large =>
    have read := readEscapedCharacter_pair
      (show (character.toNat - 0x10000) / 1024 < 1024 by omega)
      (show (character.toNat - 0x10000) % 1024 < 1024 by omega) rest
    have whole : 0x10000 + (character.toNat - 0x10000) / 1024 * 1024 +
        (character.toNat - 0x10000) % 1024 = character.toNat := by omega
    rw [whole, Char.ofNat_toNat] at read
    rw [List.flatMap_cons, List.flatMap_singleton]
    exact readTextWithin_escape steps _ read

def shortEscapes : List Char := ['"', '\\', '\x08', '\x0c', '\n', '\r', '\t']

theorem quotedCharacter_short {character : Char} (short : character ∈ shortEscapes) :
    ∃ letter : Char, letter.toNat < 0x80 ∧ quotedCharacter character = ['\\', letter] ∧
      ∀ rest, readEscape (letter :: rest) = .ok (character, rest) := by
  simp only [shortEscapes, List.mem_cons, List.not_mem_nil, or_false] at short
  rcases short with rfl | rfl | rfl | rfl | rfl | rfl | rfl <;>
    exact ⟨_, by decide, rfl, fun _ => rfl⟩

theorem quotedCharacter_long {character : Char} (long : character ∉ shortEscapes) :
    quotedCharacter character =
      if character.toNat < 0x20 then escapedUnit character.toNat else [character] := by
  simp only [shortEscapes, List.mem_cons, List.not_mem_nil, or_false, not_or] at long
  simp only [quotedCharacter, long, if_false]

theorem quotedCharacter_ascii {character : Char} (ascii : character.toNat < 0x80) :
    ∀ written ∈ quotedCharacter character, written.toNat < 0x80 := by
  by_cases short : character ∈ shortEscapes
  · rcases quotedCharacter_short short with ⟨letter, letterAscii, written, _⟩
    rw [written]
    exact List.forall_mem_cons.mpr ⟨by decide, List.forall_mem_singleton.mpr letterAscii⟩
  rw [quotedCharacter_long short]
  split
  · exact escapedUnit_ascii character.toNat
  · exact List.forall_mem_singleton.mpr ascii

def IsSpelling (spelling : Char → List Char) : Prop :=
  ∀ (steps : Nat) (character : Char) (rest : List Char),
    readTextWithin (steps + 1) (spelling character ++ rest) =
      consRead character (readTextWithin steps rest)

theorem isSpelling_quoted : IsSpelling quotedCharacter := by
  intro steps character rest
  by_cases short : character ∈ shortEscapes
  · rcases quotedCharacter_short short with ⟨letter, _, written, read⟩
    rw [written]
    exact readTextWithin_escape steps [letter] (read rest)
  rw [quotedCharacter_long short]
  by_cases control : character.toNat < 0x20
  · have read := readEscapedCharacter_single (show character.toNat < 65536 by omega)
      (.inl (by omega)) rest
    rw [Char.ofNat_toNat] at read
    rw [if_pos control]
    exact readTextWithin_escape steps _ read
  · rw [if_neg control]
    exact readTextWithin_plain rest (fun equal => short (equal ▸ by decide))
      (fun equal => short (equal ▸ by decide)) control

theorem isSpelling_written : IsSpelling writtenCharacter := by
  intro steps character rest
  rw [writtenCharacter]
  by_cases ascii : character.toNat < 0x80
  · rw [flatMap_ascii (quotedCharacter_ascii ascii)]
    exact isSpelling_quoted steps character rest
  have long : character ∉ shortEscapes := by
    intro short
    have low : shortEscapes.all (·.toNat < 0x80) = true := by decide
    exact ascii (of_decide_eq_true (List.all_eq_true.mp low character short))
  rw [quotedCharacter_long long, if_neg (by omega), List.flatMap_singleton]
  exact readTextWithin_units steps (by omega) rest

/-! ## Texts -/

namespace IsSpelling

variable {spelling : Char → List Char} (spells : IsSpelling spelling)
include spells

theorem ne_nil (character : Char) : spelling character ≠ [] := by
  intro empty
  have read := spells 1 character ['"']
  rw [empty] at read
  cases read

theorem readTextWithin {steps : Nat} (characters rest : List Char)
    (enough : characters.length < steps) :
    Json.readTextWithin steps (characters.flatMap spelling ++ '"' :: rest) =
      .ok (characters, rest) := by
  induction characters generalizing steps with
  | nil =>
      rcases steps with _ | steps
      · cases enough
      · rfl
  | cons character characters induction =>
      rcases steps with _ | steps
      · cases enough
      · rw [List.flatMap_cons, List.append_assoc, spells,
          induction (Nat.lt_of_succ_lt_succ enough)]
        rfl

theorem length_le (characters : List Char) :
    characters.length ≤ (characters.flatMap spelling).length := by
  induction characters with
  | nil => exact Nat.le_refl 0
  | cons character characters induction =>
      have positive := List.length_pos_iff.mpr (spells.ne_nil character)
      rw [List.flatMap_cons, List.length_append, List.length_cons]
      omega

theorem readText (text : String) (rest : List Char) :
    Json.readText (text.toList.flatMap spelling ++ '"' :: rest) = .ok (text, rest) := by
  have enough : text.toList.length <
      (text.toList.flatMap spelling ++ '"' :: rest).length + 1 := by
    have length := spells.length_le text.toList
    rw [List.length_append]
    omega
  rw [Json.readText, spells.readTextWithin text.toList rest enough]
  simp only [bind, Except.bind, String.ofList_toList]
  rfl

end IsSpelling

theorem flatMap_quoted (text : String) :
    (quoted text).flatMap asciiCharacter =
      '"' :: text.toList.flatMap writtenCharacter ++ ['"'] := by
  rw [quoted, List.flatMap_append, List.flatMap_cons, List.flatMap_assoc]
  rfl

end CommandReference.Json
