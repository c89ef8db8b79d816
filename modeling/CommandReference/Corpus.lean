import CommandReference.Command

namespace CommandReference

/-! What a corpus of parsed interface files documents. Definitions are read in
two rounds, so that a definition may refer to one declared later: the first
round leaves references open, and the second one fills them in from the results
of the first. -/

open Markup (Element)

/-- A parsed interface file, under the name it has in diagnostics. -/
structure InterfaceFile where
  name : String
  root : Element
  deriving DecidableEq, Repr

namespace InterfaceFile

def elementsNamed (files : List InterfaceFile) (name : String) : List (String × Element) :=
  files.flatMap fun file => (file.root.named name).map fun element => (file.name, element)

end InterfaceFile

namespace DefinitionTable

def declarations (files : List InterfaceFile) : List (Scope × Element) :=
  (InterfaceFile.elementsNamed files "define").map fun (file, element) =>
    (⟨file, element.attributeOrEmpty "name"⟩, element)

def declaredItems (resolution : Resolution) (declaration : Scope × Element) :
    Except Failure (List Item) :=
  itemsOfAll declaration.1 resolution declaration.2.children

/-- The first round. What cannot be encoded is left out; the second round meets
it again. -/
def ofDeferred (files : List InterfaceFile) : DefinitionTable :=
  (declarations files).foldl
    (fun table declaration =>
      match declaredItems .deferred declaration with
      | .ok items => table.insert declaration.1.name items
      | .error _ => table) .empty

/-- The second round: references are looked up among `known` definitions, and
of two definitions with one name the later one counts. -/
def ofKnown (policy : Policy) (known : DefinitionTable) (files : List InterfaceFile) :
    Outcome DefinitionTable :=
  (declarations files).foldlM
    (fun table declaration =>
      match declaredItems (.table known) declaration with
      | .ok items => pure (table.insert declaration.1.name items)
      | .error failure => do
          policy.handle failure
          return table) .empty

def ofFiles (policy : Policy) (files : List InterfaceFile) : Outcome DefinitionTable :=
  ofKnown policy (ofDeferred files) files

end DefinitionTable

namespace Entry

/-- Add one expanded command to the entries. A command without a name is
noted and left out. -/
def record (file : String) (entries : SortedMap String Entry)
    (command : String × Signature) : Outcome (SortedMap String Entry) :=
  if command.1 = "" then do
    Outcome.warn (.unnamedCommand file)
    return entries
  else pure (entries.alter command.1 fun present =>
    (present.getD .empty).push command.2)

def expandElement (definitions : DefinitionTable) (file : String) (element : Element) :
    Except Failure (List (String × Signature)) := do
  (← CommandNode.ofElement element file).expand file definitions

/-- The entries of a corpus. An element that fails contributes to none. -/
def ofFiles (policy : Policy) (definitions : DefinitionTable)
    (files : List InterfaceFile) : Outcome (SortedMap String Entry) :=
  (InterfaceFile.elementsNamed files "command").foldlM
    (fun entries (file, element) =>
      match expandElement definitions file element with
      | .ok commands => commands.foldlM (record file) entries
      | .error failure => do
          policy.handle failure
          return entries) .empty

end Entry

end CommandReference
