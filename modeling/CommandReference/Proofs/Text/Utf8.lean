import CommandReference.Text.Utf8

namespace CommandReference.Utf8

/-! Every text can be read back from its bytes. A character is followed through the
machine from its leading byte over the bytes that it owes. -/

/-! ## One character -/

theorem lead_of_two : ∀ high < 32, 2 ≤ high →
    lead (high + 192) = some (.inr ⟨1, 0x80, 0xBF, high, 1⟩) := by
  decide

theorem lead_of_three : ∀ high < 16,
    lead (high + 224) =
      some (.inr ⟨2, if high = 0 then 0xA0 else 0x80, if high = 13 then 0x9F else 0xBF,
        high, 1⟩) := by
  decide

theorem lead_of_four : ∀ high < 5,
    lead (high + 240) =
      some (.inr ⟨3, if high = 0 then 0x90 else 0x80, if high = 4 then 0x8F else 0xBF,
        high, 1⟩) := by
  decide

theorem toNat_ofNat_of_lt {byte : Nat} (bound : byte < 256) :
    (UInt8.ofNat byte).toNat = byte := by
  simp only [UInt8.toNat_ofNat']
  omega

theorem toNat_charOfNat {code : Nat} (bound : code < 0xD800) :
    (Char.ofNat code).toNat = code := by
  rw [Char.ofNat, dif_pos (.inl bound)]
  rfl

theorem advance_last {low high code read tail : Nat} (above : low ≤ tail + 128)
    (below : tail + 128 ≤ high) :
    Partial.advance ⟨1, low, high, code, read⟩ (tail + 128) =
      some (.inl (Char.ofNat (code * 64 + tail))) := by
  simp [Partial.advance, above, below]

theorem advance_further {owed low high code read tail : Nat} (above : low ≤ tail + 128)
    (below : tail + 128 ≤ high) :
    Partial.advance ⟨owed + 2, low, high, code, read⟩ (tail + 128) =
      some (.inr ⟨owed + 1, 0x80, 0xBF, code * 64 + tail, read + 1⟩) := by
  simp [Partial.advance, above, below]

theorem decodeFrom_two (index : Nat) {high tail : Nat} (rest : Bytes)
    (above : 2 ≤ high) (below : high < 32) (tailBelow : tail < 64) :
    decodeFrom index (UInt8.ofNat (high + 192) :: UInt8.ofNat (tail + 128) :: rest) =
      (decodeFrom (index + 2) rest).map (Char.ofNat (high * 64 + tail) :: ·) := by
  rw [decodeFrom, toNat_ofNat_of_lt (by omega), lead_of_two high below above]
  dsimp only
  rw [decodeWithin, toNat_ofNat_of_lt (by omega), advance_last (by omega) (by omega)]

theorem decodeFrom_three (index : Nat) {high middle tail : Nat} (rest : Bytes)
    (below : high < 16) (middleBelow : middle < 64) (tailBelow : tail < 64)
    (notOverlong : high = 0 → 32 ≤ middle) (notSurrogate : high = 13 → middle < 32) :
    decodeFrom index
        (UInt8.ofNat (high + 224) :: UInt8.ofNat (middle + 128) ::
          UInt8.ofNat (tail + 128) :: rest) =
      (decodeFrom (index + 3) rest).map
        (Char.ofNat ((high * 64 + middle) * 64 + tail) :: ·) := by
  rw [decodeFrom, toNat_ofNat_of_lt (by omega), lead_of_three high below]
  dsimp only
  rw [decodeWithin, toNat_ofNat_of_lt (by omega),
    advance_further (by split <;> omega) (by split <;> omega)]
  dsimp only
  rw [decodeWithin, toNat_ofNat_of_lt (by omega), advance_last (by omega) (by omega)]

theorem decodeFrom_four (index : Nat) {high upper middle tail : Nat} (rest : Bytes)
    (below : high < 5) (upperBelow : upper < 64) (middleBelow : middle < 64)
    (tailBelow : tail < 64) (notOverlong : high = 0 → 16 ≤ upper)
    (notBeyond : high = 4 → upper < 16) :
    decodeFrom index
        (UInt8.ofNat (high + 240) :: UInt8.ofNat (upper + 128) ::
          UInt8.ofNat (middle + 128) :: UInt8.ofNat (tail + 128) :: rest) =
      (decodeFrom (index + 4) rest).map
        (Char.ofNat (((high * 64 + upper) * 64 + middle) * 64 + tail) :: ·) := by
  rw [decodeFrom, toNat_ofNat_of_lt (by omega), lead_of_four high below]
  dsimp only
  rw [decodeWithin, toNat_ofNat_of_lt (by omega),
    advance_further (by split <;> omega) (by split <;> omega)]
  dsimp only
  rw [decodeWithin, toNat_ofNat_of_lt (by omega), advance_further (by omega) (by omega)]
  dsimp only
  rw [decodeWithin, toNat_ofNat_of_lt (by omega), advance_last (by omega) (by omega)]

theorem decodeFrom_encodeChar (index : Nat) (character : Char) (rest : Bytes) :
    decodeFrom index (String.utf8EncodeChar character ++ rest) =
      (decodeFrom (index + (String.utf8EncodeChar character).length) rest).map
        (character :: ·) := by
  have range : character.val.toNat < 0xD800 ∨
      0xDFFF < character.val.toNat ∧ character.val.toNat < 0x110000 := character.valid
  have whole : Char.ofNat character.val.toNat = character := Char.ofNat_toNat character
  unfold String.utf8EncodeChar
  generalize character.val.toNat = code at range whole
  -- The code point decides how many bytes there are.
  by_cases one : code ≤ 127
  · have leads : lead code = some (.inl character) := by
      rw [lead, if_pos (by omega), whole]
    rw [if_pos one, List.singleton_append, decodeFrom, toNat_ofNat_of_lt (by omega), leads]
    rfl
  by_cases two : code ≤ 2047
  · have digits : code / 64 % 32 * 64 + code % 64 = code := by omega
    rw [if_neg one, if_pos two, List.cons_append, List.singleton_append,
      decodeFrom_two index rest (by omega) (by omega) (by omega), digits, whole]
    rfl
  by_cases three : code ≤ 65535
  · have digits : (code / 4096 % 16 * 64 + code / 64 % 64) * 64 + code % 64 = code := by
      omega
    rw [if_neg one, if_neg two, if_pos three, List.cons_append, List.cons_append,
      List.singleton_append, decodeFrom_three index rest (by omega) (by omega) (by omega)
        (by omega) (by omega), digits, whole]
    rfl
  · have digits : ((code / 262144 % 8 * 64 + code / 4096 % 64) * 64 + code / 64 % 64) * 64 +
        code % 64 = code := by omega
    rw [if_neg one, if_neg two, if_neg three, List.cons_append, List.cons_append,
      List.cons_append, List.singleton_append, decodeFrom_four index rest (by omega)
        (by omega) (by omega) (by omega) (by omega) (by omega), digits, whole]
    rfl

/-! ## Texts -/

theorem decodeFrom_encode (index : Nat) (characters : List Char) :
    decodeFrom index (characters.flatMap String.utf8EncodeChar) = .ok characters := by
  induction characters generalizing index with
  | nil => rfl
  | cons character rest induction =>
      rw [List.flatMap_cons, decodeFrom_encodeChar, induction]
      rfl

theorem decode_encode (text : String) : decode (encode text) = .ok text := by
  rw [decode, encode, decodeFrom_encode]
  simp [Except.map]

end CommandReference.Utf8
