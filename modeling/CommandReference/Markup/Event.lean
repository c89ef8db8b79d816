import CommandReference.Markup.Attribute

namespace CommandReference.Markup

/-! The tags of a document in order. A document is first cut into constructs:
tags, comments, character data, declarations and instructions. All but tags are
dropped, once they are closed. Each tag then becomes an event, provided that
closing tags match the tags they close and that attributes can be read. Reading
stops at the first fault; the events before it stand. -/

/-- The kinds of markup that open with a less-than sign. The kind also records
what the search for the end has to know: the quote that a tag is inside of, or
the number of brackets open within a document type. -/
inductive Construct where
  | opening (quote : Option Char)
  | closing (quote : Option Char)
  | instruction
  | comment
  | characterData
  | documentType (depth : Nat)
  deriving DecidableEq, Repr

inductive MarkupError where
  | unknownMarkup
  | unclosedInstruction
  | unclosedComment
  | unclosedDocumentType
  | unclosedCharacterData
  | unclosedTag
  | unnamedDocumentType
  | mismatchedTag (expected found : String)
  | unmatchedTag (found : String)
  deriving DecidableEq, Repr

def MarkupError.message : MarkupError → String
  | .unknownMarkup => "syntax error: unknown or missed symbol in markup"
  | .unclosedInstruction =>
      "syntax error: processing instruction or xml declaration not closed: " ++
        "`?>` not found before end of input"
  | .unclosedComment =>
      "syntax error: comment not closed: `-->` not found before end of input"
  | .unclosedDocumentType =>
      "syntax error: DOCTYPE not closed: `>` not found before end of input"
  | .unclosedCharacterData =>
      "syntax error: CDATA not closed: `]]>` not found before end of input"
  | .unclosedTag => "syntax error: tag not closed: `>` not found before end of input"
  | .unnamedDocumentType =>
      "ill-formed document: `<!DOCTYPE>` declaration does not contain " ++
        "a name of a document type"
  | .mismatchedTag expected found =>
      s!"ill-formed document: expected `</{expected}>`, but `</{found}>` was found"
  | .unmatchedTag found =>
      s!"ill-formed document: close tag `</{found}>` does not match any open tag"

inductive EventError where
  | markup (position : Nat) (reason : MarkupError)
  | attribute (reason : AttributeError)
  deriving DecidableEq, Repr

def EventError.message : EventError → String
  | .markup position reason => s!"at byte {position}: " ++ reason.message
  | .attribute reason => reason.message

/-! ## Constructs -/

namespace Construct

def unclosed : Construct → MarkupError
  | .opening _ | .closing _ => .unclosedTag
  | .instruction => .unclosedInstruction
  | .comment => .unclosedComment
  | .characterData => .unclosedCharacterData
  | .documentType _ => .unclosedDocumentType

def ofStart : List Char → Except MarkupError Construct
  | [] => .error .unclosedTag
  | '/' :: _ => .ok (.closing none)
  | '?' :: _ => .ok .instruction
  | '!' :: '[' :: _ => .ok .characterData
  | '!' :: '-' :: _ => .ok .comment
  | '!' :: 'D' :: _ | '!' :: 'd' :: _ => .ok (.documentType 0)
  | '!' :: _ => .error .unknownMarkup
  | _ => .ok (.opening none)

def advanceQuote (quote : Option Char) (character : Char) : Option Char :=
  match quote with
  | some opener => if character = opener then none else quote
  | none => if character = '"' || character = '\x27' then some character else none

/-- The construct after one more character, or nothing when the character closes
it. `reversed` holds the characters before, the last one first. -/
def advance (construct : Construct) (reversed : List Char) (character : Char) :
    Option Construct :=
  match construct with
  | .opening quote =>
      if quote.isNone && character = '>' then none
      else some (.opening (advanceQuote quote character))
  | .closing quote =>
      if quote.isNone && character = '>' then none
      else some (.closing (advanceQuote quote character))
  | .instruction =>
      if character = '>' && reversed.head? = some '?' then none else some construct
  | .comment =>
      if character = '>' && reversed.take 2 = ['-', '-'] && 4 < Utf8.length reversed then
        none
      else some construct
  | .characterData =>
      if character = '>' && reversed.take 2 = [']', ']'] then none else some construct
  | .documentType depth =>
      if character = '<' then some (.documentType (depth + 1))
      else if character = '>' then
        if depth = 0 then none else some (.documentType (depth - 1))
      else some construct

end Construct

/-- A tag as written, without its angle brackets. The slash of a closing tag or
of an empty element is dropped too. -/
inductive Tag where
  | opening (content : List Char)
  | empty (content : List Char)
  | closing (content : List Char)
  deriving DecidableEq, Repr

def beginsIgnoringCase (pattern text : List Char) : Bool :=
  (text.take pattern.length).map Char.toLower = pattern.map Char.toLower

/-- The tag that a closed construct with the given content is, if it is one.
Other constructs must be properly introduced, and a document type must be
named. -/
def Construct.tag? (construct : Construct) (content : List Char) :
    Except MarkupError (Option Tag) :=
  match construct with
  | .opening _ =>
      match content.reverse with
      | '/' :: reversed => .ok (some (.empty reversed.reverse))
      | _ => .ok (some (.opening content))
  | .closing _ => .ok (some (.closing content.tail))
  | .instruction =>
      if 1 < content.length then .ok none else .error construct.unclosed
  | .comment =>
      if "!--".toList.isPrefixOf content then .ok none else .error construct.unclosed
  | .characterData =>
      if "![CDATA[".toList.isPrefixOf content then .ok none
      else .error construct.unclosed
  | .documentType _ =>
      if beginsIgnoringCase "!DOCTYPE".toList content then
        if (content.drop 8).all isBlank then .error .unnamedDocumentType else .ok none
      else .error construct.unclosed

structure PlacedTag where
  tag : Tag
  stop : Nat
  deriving DecidableEq, Repr

/-- Items in order, up to the first fault if there is one. -/
structure Reading (α : Type) where
  items : List α
  error? : Option EventError
  deriving DecidableEq, Repr

namespace Reading

def stop (error? : Option EventError) : Reading α := ⟨[], error?⟩

def prepend (items : List α) (reading : Reading α) : Reading α :=
  ⟨items ++ reading.items, reading.error?⟩

end Reading

/-- The tags of a text from `position` on; `construct?` is the construct that
has begun, with its content so far, reversed. -/
def tagsFrom (position : Nat) (construct? : Option (Construct × List Char)) :
    List Char → Reading PlacedTag
  | [] =>
      .stop (construct?.map fun (construct, _) => .markup position construct.unclosed)
  | character :: rest =>
      let next := position + character.utf8Size
      match construct? with
      | none =>
          if character = '<' then
            match Construct.ofStart rest with
            | .ok construct => tagsFrom next (some (construct, [])) rest
            | .error reason => .stop (some (.markup next reason))
          else tagsFrom next none rest
      | some (construct, reversed) =>
          match construct.advance reversed character with
          | some construct => tagsFrom next (some (construct, character :: reversed)) rest
          | none =>
              match construct.tag? reversed.reverse with
              | .ok tag? =>
                  (tagsFrom next none rest).prepend (tag?.toList.map (⟨·, next⟩))
              | .error reason => .stop (some (.markup next reason))

/-- The tags of a document. One leading byte order mark is not part of it. -/
def tags (document : String) : Reading PlacedTag :=
  match document.toList with
  | '\ufeff' :: rest => tagsFrom 0 none rest
  | characters => tagsFrom 0 none characters

/-! ## Events -/

/-- What a tag contributes to the tree: names lack their qualifiers, and values
their references. -/
inductive Event where
  | start (name : String) (attributes : List (String × String))
  | empty (name : String) (attributes : List (String × String))
  | stop
  deriving DecidableEq, Repr

def closingName (content : List Char) : List Char :=
  if content.all isBlank then content
  else (content.reverse.dropWhile isBlank).reverse

/-- The events of a list of tags; `opened` holds the full names of the elements
that are open, the innermost one first. -/
def eventsFrom (opened : List (List Char)) (error? : Option EventError) :
    List PlacedTag → Reading Event
  | [] => .stop error?
  | ⟨.opening content, _⟩ :: rest =>
      let name := (cutName content).1
      match attributes content with
      | .error reason => .stop (some (.attribute reason))
      | .ok attributes =>
          (eventsFrom (name :: opened) error? rest).prepend
            [.start (String.ofList (localName name)) attributes]
  | ⟨.empty content, _⟩ :: rest =>
      match attributes content with
      | .error reason => .stop (some (.attribute reason))
      | .ok attributes =>
          (eventsFrom opened error? rest).prepend
            [.empty (String.ofList (localName (cutName content).1)) attributes]
  | ⟨.closing content, stop⟩ :: rest =>
      let found := closingName content
      match opened with
      | [] => .stop (some (.markup stop (.unmatchedTag (String.ofList found))))
      | expected :: outer =>
          if found = expected then (eventsFrom outer error? rest).prepend [.stop]
          else
            .stop (some (.markup stop
              (.mismatchedTag (String.ofList expected) (String.ofList found))))

def events (document : String) : Reading Event :=
  let reading := tags document
  eventsFrom [] reading.error? reading.items

example : events "<?xml?><x:a k='v'> text <!-- <b> --><b/></x:a>" =
    ⟨[.start "a" [("k", "v")], .empty "b" [], .stop], none⟩ := by decide

example : events "<a></b>" =
    ⟨[.start "a" []], some (.markup 7 (.mismatchedTag "a" "b"))⟩ := by decide

example : events "<!a>" = ⟨[], some (.markup 1 .unknownMarkup)⟩ := by decide

end CommandReference.Markup
