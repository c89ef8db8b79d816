import CommandReference.Text.Utf8

namespace CommandReference

/-! File names of shards. A key may be any text, so its bytes are written with
letters, digits and a few marks; every other byte is a percent sign with two
hexadecimal digits. -/

namespace PercentEncoding

def isUnreserved (byte : UInt8) : Bool :=
  (0x30 ≤ byte && byte ≤ 0x39) || (0x41 ≤ byte && byte ≤ 0x5A) ||
    (0x61 ≤ byte && byte ≤ 0x7A) || byte = 0x2D || byte = 0x5F || byte = 0x2E ||
    byte = 0x7E

def hexDigit (digit : Nat) : Char :=
  if digit < 10 then Char.ofNat (0x30 + digit) else Char.ofNat (0x41 + (digit - 10))

def encodeByte (byte : UInt8) : List Char :=
  if isUnreserved byte then [Char.ofNat byte.toNat]
  else ['%', hexDigit (byte.toNat / 16), hexDigit (byte.toNat % 16)]

def encode (text : String) : String :=
  String.ofList ((Utf8.encode text).flatMap encodeByte)

def hexValue? (byte : UInt8) : Option UInt8 :=
  if 0x30 ≤ byte && byte ≤ 0x39 then some (byte - 0x30)
  else if 0x41 ≤ byte && byte ≤ 0x46 then some (byte - 0x41 + 10)
  else if 0x61 ≤ byte && byte ≤ 0x66 then some (byte - 0x61 + 10)
  else none

/-- The bytes that are spelled. A percent sign without two digits after it stands
for itself. -/
def decodeBytes : Bytes → Bytes
  | [] => []
  | byte :: rest =>
      if byte = 0x25 then
        match rest with
        | first :: second :: after =>
            match hexValue? first, hexValue? second with
            | some high, some low => (high * 16 + low) :: decodeBytes after
            | _, _ => byte :: decodeBytes (first :: second :: after)
        | short => byte :: short
      else byte :: decodeBytes rest

def decode? (text : String) : Option String :=
  (Utf8.decode (decodeBytes (Utf8.encode text))).toOption

example : encode "a/é" = "a%2F%C3%A9" := by decide

example : decode? "%61%4a%zz" = some "aJ%zz" := by decide +kernel

end PercentEncoding

namespace Shard

def fileEnding : String := ".json"

def fileName (key : String) : String :=
  PercentEncoding.encode key ++ fileEnding

def keyOfFileName? (name : String) : Option String :=
  if fileEnding.toList.isSuffixOf name.toList then
    PercentEncoding.decode? (String.ofList
      (name.toList.take (name.toList.length - fileEnding.toList.length)))
  else none

example : fileName ".." = "...json" := rfl

example : keyOfFileName? "x.json.json" = some "x.json" := by decide +kernel

end Shard

end CommandReference
