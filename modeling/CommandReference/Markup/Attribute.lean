import CommandReference.Markup.Entity

namespace CommandReference.Markup

/-! Attributes, read from the text of a tag after its name. Keys are not
checked, and no blank is needed between two attributes; a key ends at an equals
sign or a blank, and a value stands in quotes of either kind. -/

def isBlank (character : Char) : Bool :=
  character = ' ' || character = '\t' || character = '\r' || character = '\n'

/-- Why the attributes of a tag cannot be read. Positions count the bytes of the
tag's text from its name on. -/
inductive AttributeError where
  | missingEquals (position : Nat)
  | missingValue (position : Nat)
  | unquotedValue (position : Nat)
  | missingQuote (position : Nat) (quote : Char)
  | duplicate (position previous : Nat)
  | value (reason : EntityError)
  deriving DecidableEq, Repr

def AttributeError.message : AttributeError → String
  | .missingEquals position =>
      s!"position {position}: attribute key must be directly followed by `=` or space"
  | .missingValue position =>
      s!"position {position}: `=` must be followed by an attribute value"
  | .unquotedValue position =>
      s!"position {position}: attribute value must be enclosed in `\"` or `'`"
  | .missingQuote position quote =>
      s!"position {position}: missing closing quote `{quote}` in attribute value"
  | .duplicate position previous =>
      s!"position {position}: duplicated attribute, " ++
        s!"previous declaration at position {previous}"
  | .value reason => reason.message

/-- The part of a name after its first colon, or the whole name. -/
def localName (name : List Char) : List Char :=
  match name.dropWhile (· != ':') with
  | [] => name
  | _ :: rest => rest

structure SeenKey where
  key : List Char
  start : Nat

inductive AttributeState where
  | between
  | key (start : Nat) (reversed : List Char)
  | afterKey (start : Nat) (key : List Char)
  | beforeValue (key : List Char)
  | value (key : List Char) (quote : Char) (reversed : List Char)

def remember (seen : List SeenKey) (key : List Char) (start : Nat) :
    Except AttributeError (List SeenKey) :=
  match seen.find? (·.key = key) with
  | some previous => .error (.duplicate start previous.start)
  | none => .ok (⟨key, start⟩ :: seen)

/-- The attribute that a key and a value as written stand for. Declarations of
namespaces stand for none, and their values are not looked at. -/
def attributeOf (key value : List Char) :
    Except AttributeError (List (String × String)) :=
  if "xmlns".toList.isPrefixOf key then .ok []
  else
    match unescape value with
    | .error reason => .error (.value reason)
    | .ok value => .ok [(String.ofList (localName key), value)]

/-- The attributes in what is left of a tag, in order. The first fault met
decides the error. -/
def attributesFrom (position : Nat) (seen : List SeenKey) :
    AttributeState → List Char → Except AttributeError (List (String × String))
  | .between, [] => .ok []
  | .key .., [] | .afterKey .., [] => .error (.missingEquals position)
  | .beforeValue _, [] => .error (.missingValue position)
  | .value _ quote _, [] => .error (.missingQuote position quote)
  | state, character :: rest =>
      let next := position + character.utf8Size
      match state with
      | .between =>
          if isBlank character then attributesFrom next seen .between rest
          else attributesFrom next seen (.key position [character]) rest
      | .key start reversed =>
          if character = '=' then
            (remember seen reversed.reverse start).bind fun seen =>
              attributesFrom next seen (.beforeValue reversed.reverse) rest
          else if isBlank character then
            attributesFrom next seen (.afterKey start reversed.reverse) rest
          else attributesFrom next seen (.key start (character :: reversed)) rest
      | .afterKey start key =>
          if isBlank character then attributesFrom next seen (.afterKey start key) rest
          else if character = '=' then
            (remember seen key start).bind fun seen =>
              attributesFrom next seen (.beforeValue key) rest
          else .error (.missingEquals position)
      | .beforeValue key =>
          if isBlank character then attributesFrom next seen (.beforeValue key) rest
          else if character = '"' || character = '\x27' then
            attributesFrom next seen (.value key character []) rest
          else .error (.unquotedValue position)
      | .value key quote reversed =>
          if character = quote then
            (attributeOf key reversed.reverse).bind fun read =>
              (attributesFrom next seen .between rest).map (read ++ ·)
          else attributesFrom next seen (.value key quote (character :: reversed)) rest

def cutName (content : List Char) : List Char × List Char :=
  content.span (!isBlank ·)

def attributes (content : List Char) : Except AttributeError (List (String × String)) :=
  let (name, rest) := cutName content
  attributesFrom (Utf8.length name) [] .between rest

example : attributes "a k='1' x:k=\"&lt;\"".toList = .ok [("k", "1"), ("k", "<")] := rfl

example : attributes "a k='1' k='2'".toList = .error (.duplicate 8 2) := rfl

example : attributes "a k".toList = .error (.missingEquals 3) := rfl

end CommandReference.Markup
