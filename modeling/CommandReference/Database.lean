import CommandReference.Json.Value
import CommandReference.Simplification

namespace CommandReference

/-! The compiled reference: what is known about every command name, with the
forms in which it is published. -/

/-! ## Entries -/

structure Entry where
  signatures : List Signature
  /-- The source files that document the command. -/
  files : NameSet
  deriving DecidableEq, Repr

namespace Entry

def empty : Entry := ⟨[], .empty⟩

instance : Inhabited Entry := ⟨empty⟩

/-- Add a signature unless one with the same arguments is there. Its source file
is recorded either way. -/
def push (entry : Entry) (signature : Signature) : Entry where
  signatures :=
    if entry.signatures.any (·.sameArguments signature) then entry.signatures
    else entry.signatures ++ [signature]
  files :=
    match signature.file? with
    | some file => entry.files.insertName file
    | none => entry.files

def argumentCount (entry : Entry) : Nat :=
  (entry.signatures.map Signature.argumentCount).foldl max 0

/-- Signatures in the order of their rendered text. Equal texts keep their
order. -/
def sortSignatures (signatures : List Signature) : List Signature :=
  signatures.mergeSort fun left right => decide (left.render ≤ right.render)

def sorted (entry : Entry) : Entry :=
  { entry with signatures := sortSignatures entry.signatures }

def simplified (entry : Entry) : Entry :=
  sorted { entry with signatures := Signature.simplify entry.signatures }

end Entry

/-! ## Published form -/

open Json (Value)

def Content.toJson : Content → Value
  | .constant text => .text text
  | .keywords items => .ofTexts items
  | .assignments values => .ofMap (values.mapValues fun _ items => .ofTexts items)
  | .delimiter => .text ""
  | .placeholder kind => .text kind.label

def Argument.toJson (argument : Argument) : Value :=
  .ofFields
    [("content", argument.content.toJson),
      ("inherits", .ofTexts argument.inherits),
      ("optional", .boolean argument.optional),
      ("rendering", .text argument.rendering)]

def Signature.toJson (signature : Signature) : Value :=
  .array (signature.arguments.map Argument.toJson)

def Entry.toJson (entry : Entry) : Value :=
  .ofFields
    [("files", .ofTexts entry.files.keys),
      ("syntax_variants", .array (entry.signatures.map Signature.toJson))]

/-! ## Databases -/

/-- The entries of a reference by name, together with the argument count that is
published for each name. -/
structure Database where
  entries : SortedMap String Entry
  argumentCounts : SortedMap String Nat
  deriving DecidableEq, Repr

namespace Database

def empty : Database := ⟨.empty, .empty⟩

/-- The reference of collected entries. Argument counts are taken here, before
anything is simplified. -/
def ofEntries (entries : SortedMap String Entry) : Database where
  entries := entries.mapValues fun _ entry => entry.sorted
  argumentCounts := entries.mapValues fun _ entry => entry.argumentCount

def simplified (database : Database) : Database :=
  { database with entries := database.entries.mapValues fun _ entry => entry.simplified }

def get? (database : Database) (name : String) : Option Entry :=
  database.entries.get? name

def argumentCount? (database : Database) (name : String) : Option Nat :=
  database.argumentCounts.get? name

def names (database : Database) : List String := database.entries.keys

def size (database : Database) : Nat := database.entries.size

def records (database : Database) : SortedMap String Value :=
  database.entries.mapValues fun _ entry => entry.toJson

def toJson (database : Database) : Value := .ofMap database.records

def indexLine (name : String) (count : Nat) : String :=
  toString count ++ ":" ++ name

def index (database : Database) : List String :=
  let counted := database.argumentCounts.filterKeys database.entries.contains
  (counted.entries.map fun (name, count) => indexLine name count).mergeSort
    fun left right => decide (left ≤ right)

end Database

end CommandReference
