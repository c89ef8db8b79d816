namespace CommandReference.Toml

/-! The lexical parts of configuration texts: blanks, comments, line ends, quoted
texts and keys. Every reader takes the characters that are left and gives back
what it read with the characters after it, or nothing when they do not fit. -/

/-! ## Characters -/

def isSpace (character : Char) : Bool := character = ' ' || character = '\t'

def skipSpaces (characters : List Char) : List Char := characters.dropWhile isSpace

def isPlain (character : Char) : Bool :=
  character = '\t' || (0x20 ≤ character.toNat && character != '\x7f')

def isKeyCharacter (character : Char) : Bool :=
  character.isAlphanum || character = '-' || character = '_'

def digitValue (digit : Char) : Nat :=
  if digit.isDigit then digit.toNat - 0x30
  else if 0x61 ≤ digit.toNat then digit.toNat - 0x61 + 10
  else digit.toNat - 0x41 + 10

def isDigitOf (base : Nat) (character : Char) : Bool :=
  (character.isDigit || (0x61 ≤ character.toNat && character.toNat ≤ 0x66) ||
    (0x41 ≤ character.toNat && character.toNat ≤ 0x46)) && digitValue character < base

def valueOf (base : Nat) (digits : List Char) : Nat :=
  digits.foldl (fun value digit => value * base + digitValue digit) 0

def readLineEnd : List Char → Option (List Char)
  | '\n' :: rest => some rest
  | '\r' :: '\n' :: rest => some rest
  | _ => none

def skipComment : List Char → List Char
  | '#' :: rest => rest.dropWhile isPlain
  | characters => characters

def finishLine (characters : List Char) : Option (List Char) :=
  match skipComment (skipSpaces characters) with
  | [] => some []
  | rest => readLineEnd rest

def skipLines : (steps : Nat) → List Char → List Char
  | 0, characters => characters
  | steps + 1, characters =>
      let rest := skipComment (skipSpaces characters)
      match readLineEnd rest with
      | some rest => skipLines steps rest
      | none => rest

def skipAllLines (characters : List Char) : List Char :=
  skipLines (characters.length + 1) characters

/-! ## Texts -/

def characterOf? (code : Nat) : Option Char :=
  if code < 0xD800 ∨ (0xDFFF < code ∧ code < 0x110000) then some (Char.ofNat code)
  else none

def readEscape : List Char → Option (Char × List Char)
  | 'b' :: rest => some ('\x08', rest)
  | 'f' :: rest => some ('\x0c', rest)
  | 'n' :: rest => some ('\n', rest)
  | 'r' :: rest => some ('\r', rest)
  | 't' :: rest => some ('\t', rest)
  | '"' :: rest => some ('"', rest)
  | '\\' :: rest => some ('\\', rest)
  | 'u' :: rest => numbered 4 rest
  | 'U' :: rest => numbered 8 rest
  | _ => none
where
  numbered (count : Nat) (characters : List Char) : Option (Char × List Char) :=
    let digits := characters.take count
    if digits.length = count && digits.all (isDigitOf 16) then
      (characterOf? (valueOf 16 digits)).map fun character =>
        (character, characters.drop count)
    else none

def readBasic : (steps : Nat) → List Char → Option (List Char × List Char)
  | 0, _ => none
  | _ + 1, [] => none
  | steps + 1, character :: rest =>
      if character = '"' then some ([], rest)
      else if character = '\\' then do
        let (escaped, rest) ← readEscape rest
        let (text, rest) ← readBasic steps rest
        return (escaped :: text, rest)
      else if isPlain character then do
        let (text, rest) ← readBasic steps rest
        return (character :: text, rest)
      else none

def readLiteral (characters : List Char) : Option (List Char × List Char) :=
  let (text, rest) := characters.span fun character =>
    isPlain character && character != '\x27'
  match rest with
  | '\x27' :: rest => some (text, rest)
  | _ => none

/-- The end of a text over several lines: three quotes. One or two quotes before
them belong to the text. -/
def readTripleQuote (quote : Char) (characters : List Char) :
    Option (List Char × List Char) :=
  let quotes := characters.takeWhile (· = quote)
  if quotes.length < 3 then none
  else
    let kept := min (quotes.length - 3) 2
    some (List.replicate kept quote, characters.drop (kept + 3))

def skipBlankLines : (steps : Nat) → List Char → List Char
  | 0, characters => characters
  | steps + 1, characters =>
      match readLineEnd (skipSpaces characters) with
      | some rest => skipBlankLines steps rest
      | none => skipSpaces characters

/-- A backslash at the end of a line joins it to the next text, blanks and empty
lines apart. -/
def skipContinuation (characters : List Char) : Option (List Char) :=
  (readLineEnd (skipSpaces characters)).map fun rest =>
    skipBlankLines (rest.length + 1) rest

/-- A text over several lines, read after its opening quotes. Only between double
quotes has a backslash a meaning. -/
def readLong (quote : Char) : (steps : Nat) → List Char → Option (List Char × List Char)
  | 0, _ => none
  | _ + 1, [] => none
  | steps + 1, character :: rest =>
      if character = quote then
        match readTripleQuote quote (character :: rest) with
        | some parsed => some parsed
        | none => do
            let (text, rest) ← readLong quote steps rest
            return (character :: text, rest)
      else if character = '\\' && quote = '"' then
        match skipContinuation rest with
        | some rest => readLong quote steps rest
        | none => do
            let (escaped, rest) ← readEscape rest
            let (text, rest) ← readLong quote steps rest
            return (escaped :: text, rest)
      else
        match readLineEnd (character :: rest) with
        | some rest => do
            let (text, rest) ← readLong quote steps rest
            return ('\n' :: text, rest)
        | none =>
            if isPlain character then do
              let (text, rest) ← readLong quote steps rest
              return (character :: text, rest)
            else none

def dropFirstLineEnd (characters : List Char) : List Char :=
  (readLineEnd characters).getD characters

def readText (characters : List Char) : Option (String × List Char) :=
  let parsed :=
    match characters with
    | '"' :: '"' :: '"' :: rest =>
        readLong '"' (rest.length + 1) (dropFirstLineEnd rest)
    | '\x27' :: '\x27' :: '\x27' :: rest =>
        readLong '\x27' (rest.length + 1) (dropFirstLineEnd rest)
    | '"' :: rest => readBasic (rest.length + 1) rest
    | '\x27' :: rest => readLiteral rest
    | _ => none
  parsed.map fun (text, rest) => (String.ofList text, rest)

/-! ## Keys -/

def readSimpleKey (characters : List Char) : Option (String × List Char) :=
  match characters with
  | '"' :: rest =>
      (readBasic (rest.length + 1) rest).map fun (key, rest) => (String.ofList key, rest)
  | '\x27' :: rest =>
      (readLiteral rest).map fun (key, rest) => (String.ofList key, rest)
  | _ =>
      match characters.span isKeyCharacter with
      | ([], _) => none
      | (key, rest) => some (String.ofList key, rest)

/-- Keys with dots between them: the ones before the last dot, and the one after
it. -/
def readDottedKeys : (steps : Nat) → List Char → Option ((List String × String) × List Char)
  | 0, _ => none
  | steps + 1, characters => do
      let (key, rest) ← readSimpleKey (skipSpaces characters)
      match skipSpaces rest with
      | '.' :: rest => do
          let ((path, last), rest) ← readDottedKeys steps rest
          return ((key :: path, last), rest)
      | rest => return (([], key), rest)

def segmentLimit : Nat := 80

def readKey (characters : List Char) : Option ((List String × String) × List Char) := do
  let ((path, key), rest) ← readDottedKeys (characters.length + 1) characters
  if path.length + 1 < segmentLimit then return ((path, key), rest) else none

end CommandReference.Toml
