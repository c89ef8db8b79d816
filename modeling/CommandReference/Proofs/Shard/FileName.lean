import CommandReference.Proofs.Text.Utf8
import CommandReference.Shard.FileName

namespace CommandReference

/-! File names of shards. Every key can be read back from the name of its file, and
the name is a single plain component of a path, whatever the key is. -/

namespace PercentEncoding

/-! ## Bytes -/

def isPlain (character : Char) : Bool :=
  character.isAlphanum || ['-', '_', '.', '~', '%'].contains character

theorem unreserved_byte : ∀ byte < 256, isUnreserved (UInt8.ofNat byte) = true →
    byte < 128 ∧ byte ≠ 0x25 ∧ isPlain (Char.ofNat byte) = true := by
  decide +kernel

theorem hexDigit_plain : ∀ digit < 16,
    (hexDigit digit).toNat < 128 ∧ isPlain (hexDigit digit) = true := by
  decide

theorem hexValue?_hexDigit : ∀ digit < 16,
    hexValue? (UInt8.ofNat (hexDigit digit).toNat) = some (UInt8.ofNat digit) := by
  decide

theorem encodeChar_of_ascii {character : Char} (ascii : character.toNat < 128) :
    String.utf8EncodeChar character = [UInt8.ofNat character.toNat] := by
  have ascii : character.val.toNat < 128 := ascii
  unfold String.utf8EncodeChar
  rw [if_pos (by omega)]
  rfl

theorem decodeBytes_ne {byte : UInt8} (plain : byte ≠ 0x25) (rest : Bytes) :
    decodeBytes (byte :: rest) = byte :: decodeBytes rest := by
  rcases rest with _ | ⟨first, _ | ⟨second, rest⟩⟩ <;> simp [decodeBytes, plain]

theorem decodeBytes_percent {first second high low : UInt8} (rest : Bytes)
    (highDigit : hexValue? first = some high) (lowDigit : hexValue? second = some low) :
    decodeBytes (0x25 :: first :: second :: rest) =
      (high * 16 + low) :: decodeBytes rest := by
  rw [decodeBytes, if_pos rfl]
  simp only [highDigit, lowDigit]

theorem join_digits (byte : UInt8) :
    UInt8.ofNat (byte.toNat / 16) * 16 + UInt8.ofNat (byte.toNat % 16) = byte := by
  apply UInt8.toNat.inj
  have bound := byte.toNat_lt
  simp
  omega

theorem decodeBytes_encodeByte (byte : UInt8) (rest : Bytes) :
    decodeBytes ((encodeByte byte).flatMap String.utf8EncodeChar ++ rest) =
      byte :: decodeBytes rest := by
  have bound : byte.toNat < 256 := byte.toNat_lt
  rw [encodeByte]
  split
  case isTrue unreserved =>
    have plain := unreserved_byte byte.toNat bound (by simpa using unreserved)
    have code : (Char.ofNat byte.toNat).toNat = byte.toNat :=
      Utf8.toNat_charOfNat (by omega)
    have ascii : (Char.ofNat byte.toNat).toNat < 128 := by omega
    rw [List.flatMap_singleton, encodeChar_of_ascii ascii, code, UInt8.ofNat_toNat,
      List.singleton_append, decodeBytes_ne fun equal => plain.2.1 (congrArg UInt8.toNat equal)]
  case isFalse =>
    have high := hexDigit_plain (byte.toNat / 16) (by omega)
    have low := hexDigit_plain (byte.toNat % 16) (by omega)
    rw [List.flatMap_cons, List.flatMap_cons, List.flatMap_singleton,
      encodeChar_of_ascii high.1, encodeChar_of_ascii low.1,
      encodeChar_of_ascii (show '%'.toNat < 128 by decide)]
    refine (decodeBytes_percent rest (hexValue?_hexDigit _ (by omega))
      (hexValue?_hexDigit _ (by omega))).trans ?_
    rw [join_digits]

theorem decodeBytes_encode (bytes rest : Bytes) :
    decodeBytes ((bytes.flatMap encodeByte).flatMap String.utf8EncodeChar ++ rest) =
      bytes ++ decodeBytes rest := by
  induction bytes with
  | nil => rfl
  | cons byte bytes induction =>
      rw [List.flatMap_cons, List.flatMap_append, List.append_assoc,
        decodeBytes_encodeByte, induction, List.cons_append]

/-! ## Texts -/

theorem decode?_encode (text : String) : decode? (encode text) = some text := by
  have spelled := decodeBytes_encode (Utf8.encode text) []
  rw [List.append_nil, decodeBytes, List.append_nil] at spelled
  rw [decode?, encode, Utf8.encode, String.toList_ofList, spelled, Utf8.decode_encode]
  rfl

theorem isPlain_of_mem_encodeByte {byte : UInt8} {character : Char}
    (member : character ∈ encodeByte byte) : isPlain character = true := by
  have bound : byte.toNat < 256 := byte.toNat_lt
  rw [encodeByte] at member
  split at member
  case isTrue unreserved =>
    have plain := unreserved_byte byte.toNat bound (by simpa using unreserved)
    rw [List.mem_singleton.mp member]
    exact plain.2.2
  case isFalse =>
    rcases List.mem_cons.mp member with equal | member
    · exact equal ▸ by decide
    · rcases List.mem_cons.mp member with equal | member
      · exact equal ▸ (hexDigit_plain _ (by omega)).2
      · rw [List.mem_singleton.mp member]
        exact (hexDigit_plain _ (by omega)).2

theorem isPlain_of_mem_encode {text : String} {character : Char}
    (member : character ∈ (encode text).toList) : isPlain character = true := by
  rw [encode, String.toList_ofList] at member
  rcases List.mem_flatMap.mp member with ⟨byte, _, member⟩
  exact isPlain_of_mem_encodeByte member

end PercentEncoding

namespace Shard

theorem keyOfFileName?_fileName (key : String) :
    keyOfFileName? (fileName key) = some key := by
  rw [keyOfFileName?, fileName, String.toList_append, if_pos (by simp)]
  have stem : (PercentEncoding.encode key).toList.length =
      ((PercentEncoding.encode key).toList ++ fileEnding.toList).length -
        fileEnding.toList.length := by simp
  rw [← stem, List.take_left, String.ofList_toList, PercentEncoding.decode?_encode]

theorem fileName_injective {left right : String} (equal : fileName left = fileName right) :
    left = right := by
  have keys := congrArg keyOfFileName? equal
  rw [keyOfFileName?_fileName, keyOfFileName?_fileName] at keys
  exact Option.some.inj keys

theorem isPlain_of_mem_fileName {key : String} {character : Char}
    (member : character ∈ (fileName key).toList) :
    PercentEncoding.isPlain character = true := by
  rw [fileName, String.toList_append] at member
  rcases List.mem_append.mp member with member | member
  · exact PercentEncoding.isPlain_of_mem_encode member
  · have ending : fileEnding.toList.all PercentEncoding.isPlain = true := by decide
    exact List.all_eq_true.mp ending character member

end Shard

end CommandReference
