import CommandReference.SortedMap

namespace CommandReference

/-! Arguments of commands in canonical form: what may be written, how it is
shown, and whether it may be left out. -/

/-- Arguments of a fixed shape, which document nothing but their shape. -/
inductive Placeholder where
  | content
  | controlSequence
  | text
  | angles
  | template
  | triplet
  | position
  | index
  | apply
  deriving DecidableEq, Repr

namespace Placeholder

def all : List Placeholder :=
  [.content, .controlSequence, .text, .angles, .template, .triplet, .position,
    .index, .apply]

def elementName : Placeholder → String
  | content => "content"
  | controlSequence => "csname"
  | text => "text"
  | angles => "angles"
  | template => "template"
  | triplet => "triplet"
  | position => "position"
  | index => "index"
  | apply => "apply"

def label : Placeholder → String
  | content => "CONTENT"
  | controlSequence => "CSNAME"
  | text => "TEXT"
  | angles => "ANGLES"
  | template => "TEMPLATE"
  | triplet => "TRIPLET"
  | position => "POSITION"
  | index => "INDEX"
  | apply => "APPLY"

def rendering : Placeholder → String
  | content => "\x7b...\x7d"
  | controlSequence => "\\..."
  | text => "..."
  | angles => "<<...>>"
  | template => "[|...|]"
  | triplet => "[x:y:z=]"
  | position => "(...,...)"
  | index => "\x7b..+...+..\x7d"
  | apply => "...->..."

theorem mem_all (placeholder : Placeholder) : placeholder ∈ all := by
  cases placeholder <;> decide

end Placeholder

inductive Content where
  | constant (text : String)
  | keywords (items : List String)
  | assignments (values : SortedMap String (List String))
  | delimiter
  | placeholder (kind : Placeholder)
  deriving DecidableEq, Repr

def Content.isDocumented : Content → Bool
  | .constant text => text != ""
  | .keywords items => !items.isEmpty
  | .assignments values => !values.isEmpty
  | .delimiter => false
  | .placeholder _ => true

/-- One argument of a command. `inherits` names the commands whose settings it
takes as well. -/
structure Argument where
  content : Content
  rendering : String
  inherits : List String
  optional : Bool
  deriving DecidableEq, Repr

namespace Argument

def constant (text : String) : Argument := ⟨.constant text, text, [], false⟩

def delimiter (rendering : String) : Argument := ⟨.delimiter, rendering, [], false⟩

def placeholder (kind : Placeholder) (optional : Bool) : Argument :=
  ⟨.placeholder kind, kind.rendering, [], optional⟩

def withOptional (argument : Argument) (optional : Bool) : Argument :=
  { argument with optional }

/-- Whether the argument documents anything: content of its own, or that of
another command. -/
def hasContent (argument : Argument) : Bool :=
  argument.content.isDocumented || !argument.inherits.isEmpty

def render (argument : Argument) : String :=
  if argument.optional then argument.rendering ++ "?" else argument.rendering

end Argument

/-- One way to write a command: its arguments in order, and the source file that
documents them. -/
structure Signature where
  arguments : List Argument
  file? : Option String
  deriving DecidableEq, Repr

namespace Signature

/-- Whether two signatures are the same up to their source files. -/
def sameArguments (left right : Signature) : Bool :=
  left.arguments = right.arguments

def render (signature : Signature) : String :=
  " ".intercalate (signature.arguments.map Argument.render)

def argumentCount (signature : Signature) : Nat :=
  signature.arguments.countP Argument.hasContent

example :
    (Signature.mk [.placeholder .content false, .placeholder .content true] none).render =
      "\x7b...\x7d \x7b...\x7d?" := by decide

/-- Neither a delimiter nor an empty constant counts as an argument. -/
example :
    (Signature.mk [.placeholder .content false, .delimiter "\\stop", .constant ""]
      none).argumentCount = 1 := by decide

end Signature

end CommandReference
