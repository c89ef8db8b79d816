import CommandReference.Json.Value
import CommandReference.Number.Shortest

namespace CommandReference.Json

/-! The written forms of a value: on one line, on one line in ASCII, and indented
over several lines. -/

def hexDigit (digit : Nat) : Char := Nat.digitChar digit

def hexQuad (unit : Nat) : List Char :=
  [hexDigit (unit / 4096 % 16), hexDigit (unit / 256 % 16), hexDigit (unit / 16 % 16),
    hexDigit (unit % 16)]

def escapedUnit (unit : Nat) : List Char := '\\' :: 'u' :: hexQuad unit

def quotedCharacter (character : Char) : List Char :=
  if character = '"' then ['\\', '"']
  else if character = '\\' then ['\\', '\\']
  else if character = '\x08' then ['\\', 'b']
  else if character = '\x0c' then ['\\', 'f']
  else if character = '\n' then ['\\', 'n']
  else if character = '\r' then ['\\', 'r']
  else if character = '\t' then ['\\', 't']
  else if character.toNat < 0x20 then escapedUnit character.toNat
  else [character]

def quoted (text : String) : List Char :=
  '"' :: text.toList.flatMap quotedCharacter ++ ['"']

def separated : List (List Char) → List Char
  | [] => []
  | [item] => item
  | item :: rest => item ++ ',' :: separated rest

mutual

def Value.characters : Value → List Char
  | .null => "null".toList
  | .boolean true => "true".toList
  | .boolean false => "false".toList
  | .integer value => (toString value).toList
  | .real negative magnitude =>
      if negative then '-' :: magnitude.characters else magnitude.characters
  | .text value => quoted value
  | .array items => '[' :: separated (charactersOfItems items) ++ [']']
  | .object fields => '\x7b' :: separated (charactersOfFields fields) ++ ['\x7d']

def charactersOfItems : List Value → List (List Char)
  | [] => []
  | item :: rest => item.characters :: charactersOfItems rest

def charactersOfFields : List (String × Value) → List (List Char)
  | [] => []
  | (key, value) :: rest =>
      (quoted key ++ ':' :: value.characters) :: charactersOfFields rest

end

def Value.compact (value : Value) : String := String.ofList value.characters

def utf16Units (character : Char) : List Nat :=
  let code := character.toNat
  if code < 0x10000 then [code]
  else [0xD800 + (code - 0x10000) / 1024, 0xDC00 + (code - 0x10000) % 1024]

/-- Beyond ASCII, a character is written as its escaped units. -/
def asciiCharacter (character : Char) : List Char :=
  if character.toNat < 0x80 then [character]
  else (utf16Units character).flatMap escapedUnit

def Value.ascii (value : Value) : String :=
  String.ofList (value.characters.flatMap asciiCharacter)

/-! ## Indented form -/

def newLine (depth : Nat) : List Char := '\n' :: List.replicate (2 * depth) ' '

/-- Entries one to a line, `depth` levels deep. -/
def indentedLines (depth : Nat) : List (List Char) → List Char
  | [] => []
  | [item] => newLine depth ++ item
  | item :: rest => newLine depth ++ item ++ ',' :: indentedLines depth rest

/-- Entries between brackets; no entries need no line of their own. -/
def bracketed (opening closing : Char) (depth : Nat) (entries : List (List Char)) :
    List Char :=
  if entries.isEmpty then [opening, closing]
  else opening :: indentedLines (depth + 1) entries ++ newLine depth ++ [closing]

mutual

def Value.indentedCharacters (depth : Nat) : Value → List Char
  | .array items => bracketed '[' ']' depth (indentedItems (depth + 1) items)
  | .object fields => bracketed '\x7b' '\x7d' depth (indentedFields (depth + 1) fields)
  | .null => Value.null.characters
  | .boolean value => (Value.boolean value).characters
  | .integer value => (Value.integer value).characters
  | .real negative magnitude => (Value.real negative magnitude).characters
  | .text value => (Value.text value).characters

def indentedItems (depth : Nat) : List Value → List (List Char)
  | [] => []
  | item :: rest => item.indentedCharacters depth :: indentedItems depth rest

def indentedFields (depth : Nat) : List (String × Value) → List (List Char)
  | [] => []
  | (key, value) :: rest =>
      (quoted key ++ ':' :: ' ' :: value.indentedCharacters depth) ::
        indentedFields depth rest

end

def Value.indented (value : Value) : String :=
  String.ofList (value.indentedCharacters 0)

example : (Value.ofFields [("b", .array []), ("a", .text "é\"\n")]).ascii =
    "\x7b\"a\":\"\\u00e9\\\"\\n\",\"b\":[]\x7d" := by decide

example : (Value.array [.text "x", .array []]).indented =
    "[\n  \"x\",\n  []\n]" := by decide

end CommandReference.Json
