import CommandReference.Json.Number
import CommandReference.Text.Utf8

namespace CommandReference.Json

/-! Reading JSON values. The reader takes the characters that are left and gives
back a value with the characters after it. It tells a text that ends too early
from one that is wrong at some character, and it refuses to nest too deep. -/

def depthLimit : Nat := 127

def isBlank (character : Char) : Bool :=
  character = ' ' || character = '\n' || character = '\t' || character = '\r'

def skipBlanks (characters : List Char) : List Char := characters.dropWhile isBlank

/-! ## Texts -/

def hexValue? (digit : Char) : Option Nat :=
  let code := digit.toNat
  if 0x30 ≤ code ∧ code ≤ 0x39 then some (code - 0x30)
  else if 0x61 ≤ code ∧ code ≤ 0x66 then some (code - 0x61 + 10)
  else if 0x41 ≤ code ∧ code ≤ 0x46 then some (code - 0x41 + 10)
  else none

def readUnit (characters : List Char) : Except ReadError (Nat × List Char) :=
  if Utf8.length (characters.take 4) < 4 then .error .incomplete
  else
    match (characters.take 4).mapM hexValue? with
    | some [a, b, c, d] =>
        .ok (((a * 16 + b) * 16 + c) * 16 + d, characters.drop 4)
    | _ => .error .malformed

/-- The character that an escape with units stands for, read after its `u`. A
character beyond 16 bits takes two such escapes. -/
def readEscapedCharacter (characters : List Char) : Except ReadError (Char × List Char) := do
  let (unit, rest) ← readUnit characters
  if unit < 0xD800 ∨ 0xDFFF < unit then return (Char.ofNat unit, rest)
  else if 0xDC00 ≤ unit then .error .malformed
  else
    match rest with
    | [] | ['\\'] => .error .incomplete
    | '\\' :: 'u' :: rest => do
        let (low, rest) ← readUnit rest
        if 0xDC00 ≤ low ∧ low ≤ 0xDFFF then
          return (Char.ofNat (0x10000 + (unit - 0xD800) * 1024 + (low - 0xDC00)), rest)
        else .error .malformed
    | _ => .error .malformed

def readEscape : List Char → Except ReadError (Char × List Char)
  | [] => .error .incomplete
  | '"' :: rest => .ok ('"', rest)
  | '\\' :: rest => .ok ('\\', rest)
  | '/' :: rest => .ok ('/', rest)
  | 'b' :: rest => .ok ('\x08', rest)
  | 'f' :: rest => .ok ('\x0c', rest)
  | 'n' :: rest => .ok ('\n', rest)
  | 'r' :: rest => .ok ('\r', rest)
  | 't' :: rest => .ok ('\t', rest)
  | 'u' :: rest => readEscapedCharacter rest
  | _ :: _ => .error .malformed

def readTextWithin : Nat → List Char → Except ReadError (List Char × List Char)
  | 0, _ | _, [] => .error .incomplete
  | _ + 1, '"' :: rest => .ok ([], rest)
  | steps + 1, '\\' :: rest => do
      let (character, rest) ← readEscape rest
      let (characters, rest) ← readTextWithin steps rest
      return (character :: characters, rest)
  | steps + 1, character :: rest =>
      if character.toNat < 0x20 then .error .malformed
      else do
        let (characters, rest) ← readTextWithin steps rest
        return (character :: characters, rest)

def readText (characters : List Char) : Except ReadError (String × List Char) := do
  let (text, rest) ← readTextWithin (characters.length + 1) characters
  return (String.ofList text, rest)

/-! ## Words -/

def readWord (value : Value) :
    (word characters : List Char) → Except ReadError (Value × List Char)
  | [], rest => .ok (value, rest)
  | _ :: _, [] => .error .incomplete
  | letter :: word, character :: rest =>
      if letter = character then readWord value word rest else .error .malformed

def readScalar : List Char → Except ReadError (Value × List Char)
  | [] => .error .incomplete
  | 'n' :: rest => readWord .null "ull".toList rest
  | 't' :: rest => readWord (.boolean true) "rue".toList rest
  | 'f' :: rest => readWord (.boolean false) "alse".toList rest
  | '"' :: rest => (readText rest).map fun (text, rest) => (.text text, rest)
  | '-' :: rest => readUnsigned true rest
  | character :: rest =>
      if character.isDigit then readUnsigned false (character :: rest)
      else .error .malformed

/-! ## Arrays and objects -/

def readKey : List Char → Except ReadError (String × List Char)
  | [] => .error .incomplete
  | '"' :: rest => do
      let (key, rest) ← readText rest
      match skipBlanks rest with
      | [] => .error .incomplete
      | ':' :: rest => return (key, rest)
      | _ :: _ => .error .malformed
  | _ :: _ => .error .malformed

/-- The items of an array up to its end, each read by `readItem`; `first` says
that none has been read. -/
def readItemsWith (readItem : List Char → Except ReadError (Value × List Char)) :
    (steps : Nat) → (first : Bool) → List Char → Except ReadError (List Value × List Char)
  | 0, _, _ => .error .incomplete
  | steps + 1, first, characters =>
      match skipBlanks characters with
      | [] => .error .incomplete
      | ']' :: rest => .ok ([], rest)
      | character :: rest =>
          if first then do
            let (item, rest) ← readItem (character :: rest)
            let (items, rest) ← readItemsWith readItem steps false rest
            return (item :: items, rest)
          else if character = ',' then
            if (skipBlanks rest).head? = some ']' then .error .malformed
            else do
              let (item, rest) ← readItem rest
              let (items, rest) ← readItemsWith readItem steps false rest
              return (item :: items, rest)
          else .error .malformed

def readField (readItem : List Char → Except ReadError (Value × List Char))
    (characters : List Char) : Except ReadError ((String × Value) × List Char) := do
  let (key, rest) ← readKey characters
  let (value, rest) ← readItem rest
  return ((key, value), rest)

def readFieldsWith (readItem : List Char → Except ReadError (Value × List Char)) :
    (steps : Nat) → (first : Bool) → List Char →
    Except ReadError (List (String × Value) × List Char)
  | 0, _, _ => .error .incomplete
  | steps + 1, first, characters =>
      match skipBlanks characters with
      | [] => .error .incomplete
      | '\x7d' :: rest => .ok ([], rest)
      | character :: rest =>
          if first then do
            let (field, rest) ← readField readItem (character :: rest)
            let (fields, rest) ← readFieldsWith readItem steps false rest
            return (field :: fields, rest)
          else if character = ',' then do
            let (field, rest) ← readField readItem (skipBlanks rest)
            let (fields, rest) ← readFieldsWith readItem steps false rest
            return (field :: fields, rest)
          else .error .malformed

/-- A value after blanks; `depth` arrays or objects may be entered. -/
def readValueWithin : (depth : Nat) → List Char → Except ReadError (Value × List Char)
  | 0, characters =>
      match skipBlanks characters with
      | '[' :: _ | '\x7b' :: _ => .error .malformed
      | rest => readScalar rest
  | depth + 1, characters =>
      match skipBlanks characters with
      | '[' :: rest => do
          let (items, rest) ←
            readItemsWith (readValueWithin depth) (rest.length + 1) true rest
          return (.array items, rest)
      | '\x7b' :: rest => do
          let (fields, rest) ←
            readFieldsWith (readValueWithin depth) (rest.length + 1) true rest
          return (.ofFields fields, rest)
      | rest => readScalar rest

def complete (parsed : Except ReadError (α × List Char)) : Except ReadError α :=
  parsed.bind fun (value, rest) =>
    if (skipBlanks rest).isEmpty then .ok value else .error .malformed

def read (text : String) : Except ReadError Value :=
  complete (readValueWithin depthLimit text.toList)

/-- The fields of the object that a text spells. A text that begins like any
other value is wrong as soon as that is clear. -/
def readObject (text : String) : Except ReadError (SortedMap String Value) :=
  match skipBlanks text.toList with
  | '\x7b' :: rest =>
      complete do
        let (fields, rest) ←
          readFieldsWith (readValueWithin (depthLimit - 1)) (rest.length + 1) true rest
        return (SortedMap.ofList fields, rest)
  | '[' :: _ => .error .malformed
  | characters => (readScalar characters).bind fun _ => .error .malformed

example : read " [1, -2, \"\\ud83d\\ude00\", null] " =
    .ok (.array [.integer 1, .integer (-2), .text "😀", .null]) := rfl

example : (readObject "\x7b\"k\":1, \"j\":[], \"k\":2\x7d").map (·.entries) =
    .ok [("j", .array []), ("k", .integer 2)] := rfl

example : (readObject "\x7b").map (·.entries) = .error .incomplete := rfl

example : (readObject "[").map (·.entries) = .error .malformed := rfl

end CommandReference.Json
