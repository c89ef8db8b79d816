import CommandReference.Toml.Number

namespace CommandReference.Toml

/-! Reading whole configuration texts: values, tables, and the lines that build
tables up. -/

/-! ## Values -/

def readWord (word : String) (value : Value) (characters : List Char) :
    Option (Value × List Char) :=
  if word.toList.isPrefixOf characters then
    some (value, characters.drop word.toList.length)
  else none

def readScalar (characters : List Char) : Option (Value × List Char) :=
  match characters with
  | [] => none
  | character :: _ =>
      if character = '"' || character = '\x27' then
        (readText characters).map fun (text, rest) => (.text text, rest)
      else if character = 't' then readWord "true" (.boolean true) characters
      else if character = 'f' then readWord "false" (.boolean false) characters
      else
        match readMoment characters with
        | some parsed => some parsed
        | none =>
            match readFraction characters with
            | some parsed => some parsed
            | none => readInteger characters

/-- The items of an array up to its end. A comma may stand after the last one. -/
def readItemsWith (readItem : List Char → Option (Value × List Char)) :
    (steps : Nat) → List Char → Option (List Value × List Char)
  | 0, _ => none
  | steps + 1, characters =>
      match skipAllLines characters with
      | ']' :: rest => some ([], rest)
      | characters => do
          let (item, rest) ← readItem characters
          match skipAllLines rest with
          | ']' :: rest => some ([item], rest)
          | ',' :: rest => do
              let (items, rest) ← readItemsWith readItem steps rest
              return (item :: items, rest)
          | _ => none

def readPairWith (readItem : List Char → Option (Value × List Char))
    (characters : List Char) : Option (((List String × String) × Value) × List Char) := do
  let (key, rest) ← readKey characters
  let rest ← readCharacter '=' rest
  let (value, rest) ← readItem (skipSpaces rest)
  return ((key, value), rest)

/-- The fields of a table in braces up to its end, after at least one field is
known to follow. -/
def readFieldsWith (readItem : List Char → Option (Value × List Char)) :
    (steps : Nat) → Fields → List Char → Option (Fields × List Char)
  | 0, _, _ => none
  | steps + 1, fields, characters => do
      let (((path, key), value), rest) ← readPairWith readItem characters
      let fields ← fields.addDotted value path key
      match skipSpaces rest with
      | '\x7d' :: rest => some (fields, rest)
      | ',' :: rest => readFieldsWith readItem steps fields rest
      | _ => none

def readValue : (depth : Nat) → List Char → Option (Value × List Char)
  | 0, characters => readScalar characters
  | depth + 1, characters =>
      match characters with
      | '[' :: rest =>
          (readItemsWith (readValue depth) (rest.length + 1) rest).map
            fun (items, rest) => (.array items, rest)
      | '\x7b' :: rest =>
          match skipSpaces rest with
          | '\x7d' :: rest => some (.table .inline [], rest)
          | rest =>
              (readFieldsWith (readValue depth) (rest.length + 1) [] rest).map
                fun (fields, rest) => (.table .inline fields, rest)
      | _ => readScalar characters

def depthLimit : Nat := 79

/-! ## Documents -/

structure Document where
  fields : Fields
  current : List String

def readHeader (characters : List Char) : Option ((List String × String) × List Char) := do
  let (key, rest) ← readKey characters
  let rest ← readCharacter ']' rest
  return (key, rest)

def readLine (document : Document) (characters : List Char) :
    Option (Document × List Char) :=
  match skipSpaces characters with
  | '[' :: '[' :: rest => do
      let ((path, key), rest) ← readHeader rest
      let rest ← readCharacter ']' rest
      let fields ← document.fields.updateAt (Fields.appendTable key) path
      return (⟨fields, path ++ [key]⟩, rest)
  | '[' :: rest => do
      let ((path, key), rest) ← readHeader rest
      let fields ← document.fields.updateAt (Fields.openTable key) path
      return (⟨fields, path ++ [key]⟩, rest)
  | rest =>
      if (skipComment rest).isEmpty || (readLineEnd (skipComment rest)).isSome then
        some (document, rest)
      else do
        let (((path, key), value), rest) ← readPairWith (readValue depthLimit) rest
        let fields ←
          document.fields.updateAt (fun fields => fields.addDotted value path key)
            document.current
        return ({ document with fields }, rest)

def readLinesFrom : (steps : Nat) → Document → List Char → Option Document
  | 0, _, _ => none
  | _ + 1, document, [] => some document
  | steps + 1, document, characters => do
      let (document, rest) ← readLine document characters
      readLinesFrom steps document (← finishLine rest)

/-- The fields of a configuration text. One leading byte order mark is not part
of it. -/
def read (text : String) : Option Fields :=
  let characters :=
    match text.toList with
    | '\ufeff' :: rest => rest
    | characters => characters
  (readLinesFrom (characters.length + 1) ⟨[], []⟩ characters).map (·.fields)

end CommandReference.Toml
