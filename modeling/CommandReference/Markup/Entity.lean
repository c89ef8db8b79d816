import CommandReference.Text.Utf8

namespace CommandReference.Markup

/-! References inside attribute values: five named entities and numbered
characters. Reading replaces every reference by its character; writing puts a
named entity for each of the five characters that have one. -/

inductive CharacterReferenceError where
  | signed
  | noDigits
  | badDigit
  | overflow
  | nullCharacter
  | notACharacter (code : Nat)
  deriving DecidableEq, Repr

/-- Why a value holds a reference that cannot be replaced. Positions count the
bytes of the value as written. -/
inductive EntityError where
  | unterminated (start stop : Nat)
  | unknown (start stop : Nat) (name : String)
  | character (reason : CharacterReferenceError)
  deriving DecidableEq, Repr

def CharacterReferenceError.message : CharacterReferenceError → String
  | .signed => "unexpected number sign"
  | .noDigits => "cannot parse integer from empty string"
  | .badDigit => "invalid digit found in string"
  | .overflow => "number too large to fit in target type"
  | .nullCharacter => "0x0 character is not permitted in XML"
  | .notACharacter code => s!"`{code}` is not a valid codepoint"

def EntityError.message : EntityError → String
  | .unterminated start stop =>
      s!"Error while escaping character at range {start}..{stop}: " ++
        "Cannot find ';' after '&'"
  | .unknown start stop name => s!"at {start}..{stop}: unrecognized entity `{name}`"
  | .character reason => "invalid character reference: " ++ reason.message

def digitValue? (base : Nat) (digit : Char) : Option Nat :=
  let code := digit.toNat
  let value :=
    if 0x30 ≤ code ∧ code ≤ 0x39 then code - 0x30
    else if 0x61 ≤ code ∧ code ≤ 0x66 then code - 0x61 + 10
    else if 0x41 ≤ code ∧ code ≤ 0x46 then code - 0x41 + 10
    else base
  if value < base then some value else none

/-- Read digits into a number that must fit 32 bits. The first bad digit or
overflow met decides the error. -/
def readDigits (base value : Nat) : List Char → Except CharacterReferenceError Nat
  | [] => .ok value
  | digit :: rest =>
      match digitValue? base digit with
      | none => .error .badDigit
      | some amount =>
          if value * base + amount < 0x100000000 then
            readDigits base (value * base + amount) rest
          else .error .overflow

def readNumber (base : Nat) : List Char → Except CharacterReferenceError Nat
  | [] => .error .noDigits
  | '+' :: _ => .error .signed
  | '-' :: _ => .error .signed
  | digits => readDigits base 0 digits

def numberedCharacter (reference : List Char) : Except CharacterReferenceError Char :=
  let number :=
    match reference with
    | 'x' :: digits => readNumber 16 digits
    | digits => readNumber 10 digits
  number.bind fun code =>
    if code = 0 then .error .nullCharacter
    else if code < 0xD800 ∨ (0xDFFF < code ∧ code < 0x110000) then .ok (Char.ofNat code)
    else .error (.notACharacter code)

def entities : List (String × Char) :=
  [("lt", '<'), ("gt", '>'), ("amp", '&'), ("apos", '\x27'), ("quot", '"')]

def resolveReference (start stop : Nat) (reference : List Char) :
    Except EntityError Char :=
  match reference with
  | '#' :: number => (numberedCharacter number).mapError .character
  | name =>
      match entities.lookup (String.ofList name) with
      | some character => .ok character
      | none => .error (.unknown start stop (String.ofList name))

/-- Replace the references in what is left of a value. `position` is where the
characters begin, and `reference?` holds the start and the text, reversed, of a
reference that has begun. -/
def unescapeFrom (position : Nat) (reference? : Option (Nat × List Char)) :
    List Char → Except EntityError (List Char)
  | [] =>
      match reference? with
      | none => .ok []
      | some (start, _) => .error (.unterminated start position)
  | character :: rest =>
      match reference? with
      | none =>
          if character = '&' then unescapeFrom (position + 1) (some (position, [])) rest
          else (unescapeFrom (position + character.utf8Size) none rest).map
            (character :: ·)
      | some (start, reversed) =>
          if character = ';' then
            (resolveReference (start + 1) position reversed.reverse).bind fun resolved =>
              (unescapeFrom (position + 1) none rest).map (resolved :: ·)
          else if character = '&' then
            .error (.unterminated start (position + Utf8.length (character :: rest)))
          else
            unescapeFrom (position + character.utf8Size)
              (some (start, character :: reversed)) rest

def unescape (value : List Char) : Except EntityError String :=
  (unescapeFrom 0 none value).map String.ofList

def escapeCharacter (character : Char) : List Char :=
  if character = '<' then "&lt;".toList
  else if character = '>' then "&gt;".toList
  else if character = '&' then "&amp;".toList
  else if character = '\x27' then "&apos;".toList
  else if character = '"' then "&quot;".toList
  else [character]

def escape (value : String) : String :=
  String.ofList (value.toList.flatMap escapeCharacter)

example : unescape "a&amp;&#x41;b".toList = .ok "a&Ab" := rfl

example : unescape "&amp".toList = .error (.unterminated 0 4) := rfl

example : unescape "x&nbsp;".toList = .error (.unknown 2 6 "nbsp") := rfl

example : unescape "&#xD800;".toList = .error (.character (.notACharacter 55296)) := rfl

example : escape "a<\"b\">&'" = "a&lt;&quot;b&quot;&gt;&amp;&apos;" := by decide

end CommandReference.Markup
