import CommandReference.Markup.Element
import CommandReference.Markup.Event

namespace CommandReference.Markup

/-! Documents. The events of a document are folded into one element tree, with a
stack of the elements that are open. -/

inductive DocumentError where
  | event (reason : EventError)
  | strayClosingTag
  | secondRoot (name : String)
  | unclosed (name : String)
  | noRoot
  deriving DecidableEq, Repr

def DocumentError.message : DocumentError → String
  | .event reason => reason.message
  | .strayClosingTag => "closing tag without an open element"
  | .secondRoot name => s!"second root element <{name}>"
  | .unclosed name => s!"unclosed element <{name}>"
  | .noRoot => "document has no root element"

/-- A tree under construction: the elements that are open, the innermost one
first and each with its finished children reversed, and the finished root. -/
structure Builder where
  opened : List Element
  root? : Option Element
  deriving DecidableEq, Repr

namespace Builder

def empty : Builder := ⟨[], none⟩

/-- Put a finished element into the innermost open one, or make it the root. -/
def attach (builder : Builder) (element : Element) : Except DocumentError Builder :=
  match builder.opened, builder.root? with
  | parent :: outer, _ =>
      .ok { builder with
        opened := { parent with children := element :: parent.children } :: outer }
  | [], none => .ok { builder with root? := some element }
  | [], some _ => .error (.secondRoot element.name)

def step (builder : Builder) : Event → Except DocumentError Builder
  | .start name attributes =>
      .ok { builder with opened := ⟨name, attributes, []⟩ :: builder.opened }
  | .empty name attributes => builder.attach ⟨name, attributes, []⟩
  | .stop =>
      match builder.opened with
      | [] => .error .strayClosingTag
      | element :: outer =>
          attach { builder with opened := outer }
            { element with children := element.children.reverse }

def run (builder : Builder) : List Event → Except DocumentError Builder
  | [] => .ok builder
  | event :: rest =>
      match builder.step event with
      | .ok next => next.run rest
      | .error reason => .error reason

def finish (builder : Builder) : Except DocumentError Element :=
  match builder.opened, builder.root? with
  | element :: _, _ => .error (.unclosed element.name)
  | [], some root => .ok root
  | [], none => .error .noRoot

end Builder

def Element.ofEvents (reading : Reading Event) : Except DocumentError Element :=
  match Builder.empty.run reading.items, reading.error? with
  | .error reason, _ => .error reason
  | .ok _, some reason => .error (.event reason)
  | .ok builder, none => builder.finish

def parse (document : String) : Except DocumentError Element :=
  Element.ofEvents (events document)

example : parse "<a><x:b k='1'/><c></c></a>" =
    .ok ⟨"a", [], [⟨"b", [("k", "1")], []⟩, ⟨"c", [], []⟩]⟩ := rfl

example : parse "<a/><b/>" = .error (.secondRoot "b") := rfl

example : parse "<a><b>" = .error (.unclosed "b") := rfl

end CommandReference.Markup
