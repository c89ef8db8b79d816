import CommandReference.Definition
import CommandReference.Failure
import CommandReference.Markup.Element
import CommandReference.Markup.Entity

namespace CommandReference

/-! From elements to items. The children of an argument list, of a definition,
and of lists nested in them all follow one grammar: every known element stands
for a list of items, and only references stand for more or less than one. -/

inductive NodeKind where
  | constant
  | keywords
  | assignments
  | parameter
  | inherit
  | resolve
  | delimiter
  | placeholder (kind : Placeholder)
  deriving DecidableEq, Repr

namespace NodeKind

def elementName : NodeKind → String
  | constant => "constant"
  | keywords => "keywords"
  | assignments => "assignments"
  | parameter => "parameter"
  | inherit => "inherit"
  | resolve => "resolve"
  | delimiter => "delimiter"
  | placeholder kind => kind.elementName

def all : List NodeKind :=
  [.constant, .keywords, .assignments, .parameter, .inherit, .resolve, .delimiter] ++
    Placeholder.all.map .placeholder

def ofName? (name : String) : Option NodeKind :=
  all.find? (·.elementName = name)

theorem ofName?_elementName (kind : NodeKind) : ofName? kind.elementName = some kind := by
  cases kind with
  | placeholder kind => cases kind <;> decide
  | _ => decide

end NodeKind

/-- What becomes of a reference to a definition. -/
inductive Resolution where
  /-- It stands for nothing yet. -/
  | deferred
  /-- It stands for the items of the definition, which must exist. -/
  | table (definitions : DefinitionTable)

structure Scope where
  file : String
  name : String

namespace Scope

def unexpected (scope : Scope) (tag : String) : Failure :=
  .unexpectedTag scope.file scope.name tag

def unsupported (scope : Scope) (key value : String) : Failure :=
  .unsupported scope.file scope.name key value

def unresolved (scope : Scope) (reference : String) : Failure :=
  .unresolved scope.file scope.name reference

end Scope

open Markup (Element)

/-! ## Single elements -/

def joiner? (method? : Option String) : Option String :=
  match method? with
  | none => some ""
  | some "range" => some ":"
  | some "apply" => some "->"
  | some "factor" => some "*"
  | some _ => none

/-- The text of a constant. Its parts are escaped, and a default is
underlined. -/
def constantText (scope : Scope) (node : Element) : Except Failure String :=
  let part key := Markup.escape (node.attributeOrEmpty key)
  match joiner? (node.attribute? "method") with
  | none => .error (scope.unsupported "method" (node.attributeOrEmpty "method"))
  | some joiner =>
      let leading := part "prefix"
      let body := part "type" ++ part "name" ++ part "value"
      let text := if leading = "" then body else leading ++ joiner ++ body
      .ok (if node.flag "default" then "<u>" ++ text ++ "</u>" else text)

def brackets? (delimiters? : Option String) : Option (String × String) :=
  match delimiters? with
  | none | some "brackets" => some ("[", "]")
  | some "braces" => some ("\x7b", "\x7d")
  | some "parenthesis" => some ("(", ")")
  | some "none" => some ("", "")
  | some _ => none

def listRendering (scope : Scope) (node : Element) (inner : String) :
    Except Failure String :=
  match brackets? (node.attribute? "delimiters") with
  | none => .error (scope.unsupported "delimiters" (node.attributeOrEmpty "delimiters"))
  | some (opening, closing) => .ok (opening ++ inner ++ closing)

def keywordsArgument (scope : Scope) (node : Element) (items : List Item) :
    Except Failure Argument :=
  if items.flatMap Item.parameters = [] then
    (listRendering scope node (if node.flag "list" then "...,..." else "...")).map
      fun rendering =>
        ⟨.keywords (items.flatMap Item.fragments), rendering,
          items.flatMap Item.inherits, node.flag "optional"⟩
  else .error (scope.unexpected "parameter")

def assignmentsArgument (scope : Scope) (node : Element) (items : List Item) :
    Except Failure Argument :=
  if items.flatMap Item.fragments = [] then
    (listRendering scope node (if node.flag "list" then "..,..=..,.." else "..=..")).map
      fun rendering =>
        ⟨.assignments (Item.mergeParameters items), rendering,
          items.flatMap Item.inherits, node.flag "optional"⟩
  else .error (scope.unexpected "constant")

def parameterItem (scope : Scope) (node : Element) (items : List Item) :
    Except Failure Item :=
  if items.flatMap Item.parameters = [] then
    .ok (.parameter (node.attributeOrEmpty "name") (items.flatMap Item.fragments)
      (items.flatMap Item.inherits))
  else .error (scope.unexpected "parameter")

def resolvedItems (scope : Scope) (resolution : Resolution) (node : Element) :
    Except Failure (List Item) :=
  let reference := node.attributeOrEmpty "name"
  match resolution with
  | .deferred => .ok []
  | .table definitions =>
      match definitions.get? reference with
      | some items => .ok items
      | none => .error (scope.unresolved reference)

/-! ## Trees -/

mutual

def items (scope : Scope) (resolution : Resolution) : Element → Except Failure (List Item)
  | ⟨name, attributes, children⟩ =>
      let node : Element := ⟨name, attributes, children⟩
      match NodeKind.ofName? name with
      | none => .error (scope.unexpected name)
      | some .constant => do
          return [.fragment (← constantText scope node)]
      | some .keywords => do
          return [.argument (← keywordsArgument scope node
            (← itemsOfAll scope resolution children))]
      | some .assignments => do
          return [.argument (← assignmentsArgument scope node
            (← itemsOfAll scope resolution children))]
      | some .parameter => do
          return [← parameterItem scope node (← itemsOfAll scope resolution children)]
      | some .inherit => return [.inherit (node.attributeOrEmpty "name")]
      | some .resolve => resolvedItems scope resolution node
      | some .delimiter =>
          return [.argument ((Argument.delimiter
            ("\\" ++ node.attributeOrEmpty "name")).withOptional (node.flag "optional"))]
      | some (.placeholder kind) =>
          return [.argument (.placeholder kind (node.flag "optional"))]

def itemsOfAll (scope : Scope) (resolution : Resolution) :
    List Element → Except Failure (List Item)
  | [] => return []
  | node :: rest => do
      let first ← items scope resolution node
      return first ++ (← itemsOfAll scope resolution rest)

end

def Item.toArgument (scope : Scope) : Item → Except Failure Argument
  | fragment text => .ok (.constant text)
  | argument value => .ok value
  | inherit _ => .error (scope.unexpected "inherit")
  | parameter .. => .error (scope.unexpected "parameter")

def argumentsOf (scope : Scope) (resolution : Resolution) :
    List Element → Except Failure (List Argument)
  | [] => return []
  | node :: rest => do
      let first ← (← items scope resolution node).mapM (Item.toArgument scope)
      return first ++ (← argumentsOf scope resolution rest)

end CommandReference
