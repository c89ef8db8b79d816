import CommandReference.Path
import CommandReference.SortedMap

namespace CommandReference

/-! Which corpora are being rebuilt. A rebuild reserves the root of a corpus, and
a slot holds the reservation; while it is held, the same root cannot be reserved
again. -/

structure RebuildRegistry where
  /-- The reserved roots, as their components. -/
  inFlight : List (List String)
  /-- The root that each slot has reserved. -/
  slots : SortedMap String (List String)
  deriving DecidableEq, Repr

namespace RebuildRegistry

def empty : RebuildRegistry := ⟨[], .empty⟩

def release (registry : RebuildRegistry) (slot : String) : Bool × RebuildRegistry :=
  match registry.slots.get? slot with
  | none => (false, registry)
  | some root =>
      (true,
        { inFlight := registry.inFlight.erase root
          slots := registry.slots.filterKeys (· != slot) })

/-- Reserve a root for a slot. A root that is reserved already is refused. The
reservation that the slot held before is given up once the new one is made. -/
def begin? (registry : RebuildRegistry) (slot : String) (root : Path) :
    Bool × RebuildRegistry :=
  if registry.inFlight.contains root.components then (false, registry)
  else
    let reserved := root.components :: registry.inFlight
    (true,
      { inFlight :=
          match registry.slots.get? slot with
          | none => reserved
          | some replaced => reserved.erase replaced
        slots := registry.slots.insert slot root.components })

end RebuildRegistry

end CommandReference
