import CommandReference.Argument

namespace CommandReference

/-! Fewer signatures that say the same. A signature covers another one if it
turns into it when some of its mandatory arguments are made optional and some
optional ones are then left out. Signatures that others cover are dropped, as
long as there are any. -/

/-! ## Covering -/

inductive Freedom where
  | fixed
  | relaxed
  | undecided
  deriving DecidableEq, Repr

structure Position where
  argument : Argument
  freedom : Freedom
  deriving DecidableEq, Repr

namespace Position

/-- A position of a signature that nothing has been decided about. An argument
that is optional already stays so. -/
def ofArgument (argument : Argument) : Position :=
  ⟨argument, if argument.optional then .fixed else .undecided⟩

def forms (position : Position) : List Argument :=
  match position.freedom with
  | .fixed => [position.argument]
  | .relaxed => [position.argument.withOptional true]
  | .undecided => [position.argument, position.argument.withOptional true]

def mayBeDropped (position : Position) : Bool :=
  position.forms.any (·.optional)

def mayBe (position : Position) (argument : Argument) : Bool :=
  position.forms.contains argument

def settled (position : Position) : Argument :=
  match position.freedom with
  | .relaxed => position.argument.withOptional true
  | .fixed | .undecided => position.argument

/-- Which suffixes of the target can be reached with one position more in front.
The flags given and returned belong to the suffixes of the target, from the
whole of it down to the empty one. -/
def extendReach (position : Position) : List Argument → List Bool → List Bool
  | target :: targets, here :: next :: flags =>
      (position.mayBeDropped && here || position.mayBe target && next) ::
        position.extendReach targets (next :: flags)
  | _, here :: _ => [position.mayBeDropped && here]
  | _, [] => []

def reach (target : List Argument) : List Position → List Bool
  | [] => target.map (fun _ => false) ++ [true]
  | position :: rest => position.extendReach target (reach target rest)

def cover (positions : List Position) (target : List Argument) : Bool :=
  (reach target positions).head?.getD false

/-- Decide every undecided position, from the last one to the first: it stays
mandatory if the target can still be reached then. `reversed` holds the positions
yet to be decided, the last one first. -/
def settle (target : List Argument) : (reversed settled : List Position) → List Position
  | [], settled => settled
  | position :: reversed, settled =>
      match position.freedom with
      | .undecided =>
          let kept : Position := { position with freedom := .fixed }
          if cover (reversed.reverse ++ kept :: settled) target then
            settle target reversed (kept :: settled)
          else settle target reversed ({ position with freedom := .relaxed } :: settled)
      | _ => settle target reversed (position :: settled)

end Position

namespace Signature

/-- The signature with as few arguments made optional as it takes to cover
`other`, if it can be made to. -/
def generalize? (signature other : Signature) : Option Signature :=
  let positions := signature.arguments.map Position.ofArgument
  if signature.arguments.length < other.arguments.length then none
  else if Position.cover positions other.arguments then
    let settled := Position.settle other.arguments positions.reverse []
    some ⟨settled.map Position.settled, signature.file?⟩
  else none

/-! ## Reduction to a fixed point -/

def dropRepeated (signatures : List Signature) : List Signature :=
  signatures.foldl
    (fun kept signature =>
      if kept.any (·.sameArguments signature) then kept else kept ++ [signature]) []

/-- One merge: the signature at `master` becomes `merged`, and the one at `other`
goes. -/
structure Merge where
  master : Nat
  other : Nat
  merged : Signature
  deriving DecidableEq, Repr

/-- The first merge in the order of masters, and for each master in the order of
the others. -/
def firstMerge? (signatures : List Signature) : Option Merge :=
  let indexed := signatures.zipIdx
  indexed.findSome? fun (master, masterIndex) =>
    indexed.findSome? fun (other, otherIndex) =>
      if masterIndex = otherIndex then none
      else (master.generalize? other).map fun merged => ⟨masterIndex, otherIndex, merged⟩

def Merge.apply (merge : Merge) (signatures : List Signature) : List Signature :=
  (signatures.set merge.master merge.merged).eraseIdx merge.other

theorem firstMerge?_other_lt {signatures : List Signature} {merge : Merge}
    (found : firstMerge? signatures = some merge) : merge.other < signatures.length := by
  obtain ⟨⟨master, masterIndex⟩, -, found⟩ := List.exists_of_findSome?_eq_some found
  obtain ⟨⟨other, otherIndex⟩, member, found⟩ := List.exists_of_findSome?_eq_some found
  dsimp only at found
  split at found
  · cases found
  · obtain ⟨merged, -, rfl⟩ := Option.map_eq_some_iff.mp found
    simpa using (List.mem_zipIdx member).2.1

def mergeAll (signatures : List Signature) : List Signature :=
  match _found : firstMerge? signatures with
  | none => signatures
  | some merge => mergeAll (merge.apply signatures)
termination_by signatures.length
decreasing_by
  have bound := firstMerge?_other_lt _found
  simp [Merge.apply, List.length_eraseIdx, bound]
  omega

def simplify (signatures : List Signature) : List Signature :=
  mergeAll (dropRepeated signatures)

private def letters (text : List (String × Bool)) : Signature :=
  ⟨text.map fun letter => (Argument.constant letter.1).withOptional letter.2, none⟩

/-- Of two arguments alike, the one in front becomes optional. -/
example : (letters [("A", false), ("A", false)]).generalize? (letters [("A", false)]) =
    some (letters [("A", true), ("A", false)]) := by decide

/-- An optional argument is left out or met by an optional one, never by a
mandatory one. -/
example : (letters [("A", true)]).generalize? (letters [("A", false)]) = none := by decide

end Signature

end CommandReference
