import CommandReference.Loading

namespace CommandReference

/-! From a corpus to a reference. -/

namespace Database

def ofFiles (configuration : Configuration) (files : List InterfaceFile) :
    Outcome Database := do
  let definitions ← DefinitionTable.ofFiles configuration.policy files
  let entries ← Entry.ofFiles configuration.policy definitions files
  let database := ofEntries entries
  return if configuration.simplify then database.simplified else database

end Database

namespace Configuration

/-- Compile the corpus under a root directory. There is no outcome when loading
needs more than the given number of steps. -/
def compile (configuration : Configuration) (source : Source) (root : Path)
    (steps : Nat) : Option (Outcome Database) :=
  (configuration.load source root steps).map fun loaded =>
    loaded >>= Database.ofFiles configuration

end Configuration

end CommandReference
