import CommandReference.Database
import CommandReference.Encoding

namespace CommandReference

/-! Commands. One element may document many commands: its instances are put into
a template for names, and an environment has a name that opens it and one that
closes it. -/

open Markup (Element)

inductive CommandType where
  | normal
  | environment
  deriving DecidableEq, Repr

structure CommandNode where
  name : String
  /-- The source file that documents the command. -/
  file? : Option String
  type : CommandType
  /-- The words that begin the names of an environment's two commands. -/
  opening : String
  closing : String
  instances? : Option Element
  sequence? : Option Element
  arguments? : Option Element
  deriving DecidableEq, Repr

inductive NamePart where
  | literal (text : String)
  | instance_
  deriving DecidableEq, Repr

/-- How the body of an environment shows between its commands. -/
def environmentBody : String := "..."

namespace CommandNode

def ofElement (element : Element) (file : String) : Except Failure CommandNode :=
  let name := element.attributeOrEmpty "name"
  if name = "" then .error (.unsupported file name "name" "")
  else
    let node type : CommandNode :=
      { name
        file? := element.attribute? "file"
        type
        opening := (element.attribute? "begin").getD "start"
        closing := (element.attribute? "end").getD "stop"
        instances? := element.child? "instances"
        sequence? := element.child? "sequence"
        arguments? := element.child? "arguments" }
    match element.attribute? "type" with
    | none | some "normal" => .ok (node .normal)
    | some "environment" => .ok (node .environment)
    | some other => .error (.unsupported file name "type" other)

/-! ## Names -/

def namePart (scope : Scope) (element : Element) : Except Failure NamePart :=
  match element.name with
  | "string" | "constant" | "variable" =>
      .ok (.literal (element.attributeOrEmpty "value"))
  | "instance" => .ok .instance_
  | other => .error (scope.unexpected other)

def template (scope : Scope) (node : CommandNode) : Except Failure (List NamePart) :=
  match node.sequence? with
  | none => .ok []
  | some sequence => sequence.children.mapM (namePart scope)

def itemInstances (scope : Scope) (reference : String) : Item → Except Failure (List String)
  | .fragment text => .ok [text]
  | .argument ⟨.keywords items, _, _, _⟩ => .ok items
  | _ => .error (scope.unsupported "resolve" reference)

def childInstances (scope : Scope) (definitions : DefinitionTable) (element : Element) :
    Except Failure (List String) :=
  match element.name with
  | "constant" => .ok [element.attributeOrEmpty "value"]
  | "resolve" =>
      let reference := element.attributeOrEmpty "name"
      match definitions.get? reference with
      | none => .error (scope.unresolved reference)
      | some items => (items.mapM (itemInstances scope reference)).map List.flatten
  | other => .error (scope.unexpected other)

/-- The instances of a command; without a list of them, its name is the only
one. -/
def instances (scope : Scope) (definitions : DefinitionTable) (node : CommandNode) :
    Except Failure (List String) :=
  match node.instances? with
  | none => .ok [node.name]
  | some list => (list.children.mapM (childInstances scope definitions)).map List.flatten

/-- The name that a template makes of an instance. A name that only says the
instance twice is the instance itself. -/
def concreteName (template : List NamePart) (key : String) : String :=
  if template.isEmpty then key
  else
    let name := String.join (template.map fun
      | .literal text => text
      | .instance_ => key)
    if name = key ++ key then key else name

/-! ## Expansion -/

def instanceCommands (node : CommandNode) (arguments : List Argument) (name : String) :
    List (String × Signature) :=
  match node.type with
  | .normal => [(name, ⟨arguments, node.file?⟩)]
  | .environment =>
      let closing := node.closing ++ name
      [(node.opening ++ name,
          ⟨arguments ++ [.delimiter environmentBody, .delimiter ("\\" ++ closing)],
            node.file?⟩),
        (closing, ⟨[], node.file?⟩)]

def expand (node : CommandNode) (file : String) (definitions : DefinitionTable) :
    Except Failure (List (String × Signature)) := do
  let scope : Scope := ⟨file, node.name⟩
  let arguments ←
    match node.arguments? with
    | none => pure []
    | some list => argumentsOf scope (.table definitions) list.children
  let template ← node.template scope
  let instances ← node.instances scope definitions
  return instances.flatMap fun key =>
    node.instanceCommands arguments (concreteName template key)

example : concreteName [.instance_, .literal "foo"] "foo" = "foo" := by decide

example : concreteName [.literal "a", .instance_] "foo" = "afoo" := by decide

end CommandNode

end CommandReference
