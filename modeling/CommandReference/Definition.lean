import CommandReference.Argument

namespace CommandReference

/-! What definitions contribute. A definition is a list of items; where it is
referred to, its items take the place of the reference. -/

inductive Item where
  /-- A piece of a list of keywords or values. -/
  | fragment (text : String)
  /-- The name of a command whose settings are taken over. -/
  | inherit (name : String)
  /-- A key of an assignment with the values it may have. -/
  | parameter (name : String) (values inherits : List String)
  | argument (argument : Argument)
  deriving DecidableEq, Repr

namespace Item

/-- The texts that an item adds to a list of keywords or values. Arguments add
theirs: a list within a list is flattened, and what has no list of its own adds
the way it shows. -/
def fragments : Item → List String
  | fragment text => [text]
  | inherit _ | parameter .. => []
  | argument value =>
      match value.content with
      | .constant text => [text]
      | .keywords items => items
      | .assignments _ => []
      | .delimiter | .placeholder _ => [value.rendering]

def inherits : Item → List String
  | fragment _ => []
  | inherit name => [name]
  | parameter _ _ inherits => inherits
  | argument value => value.inherits

def parameters : Item → List (String × List String)
  | fragment _ | inherit _ => []
  | parameter name values _ => [(name, values)]
  | argument value =>
      match value.content with
      | .assignments values => values.entries
      | _ => []

/-- The keys of several items; the values of a key that occurs more than once
are joined in order. -/
def mergeParameters (items : List Item) : SortedMap String (List String) :=
  (items.flatMap parameters).foldl
    (fun merged entry => merged.alter entry.1 fun present => present.getD [] ++ entry.2)
    .empty

example : (mergeParameters [.parameter "b" ["1"] [], .parameter "a" [] [],
    .parameter "b" ["2"] []]).entries = [("a", []), ("b", ["1", "2"])] := by decide

end Item

abbrev DefinitionTable := SortedMap String (List Item)

end CommandReference
