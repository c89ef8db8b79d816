import CommandReference.FileTree
import CommandReference.Proofs.SortedMap

namespace CommandReference.FileTree

/-! Trees that grow. A path that leads to a place in a tree leads to the same place as
long as directories stay directories and nothing that exists goes away. -/

variable {tree later : FileTree} {place : Place} {node : Node}

/-! ## Adding a node -/

def adding (tree : FileTree) (place : Place) (node : Node) : FileTree :=
  { tree with nodes := tree.nodes.insert place node }

theorem node?_adding_self (tree : FileTree) (nonempty : place ≠ []) (node : Node) :
    (tree.adding place node).node? place = some node := by
  rw [node?, if_neg (by rw [List.isEmpty_iff]; exact nonempty)]
  exact tree.nodes.get?_insert_self place node

theorem node?_adding_ne (tree : FileTree) {other : Place} (different : other ≠ place)
    (node : Node) : (tree.adding place node).node? other = tree.node? other := by
  rw [node?, node?]
  split
  case isTrue => rfl
  case isFalse => exact tree.nodes.get?_insert_ne different node

/-! ## Extensions -/

/-- What there is in one tree, there is in the other, with all its directories. -/
structure Extends (tree later : FileTree) : Prop where
  current : later.current = tree.current
  directory {place : Place} :
    tree.node? place = some .directory → later.node? place = some .directory
  present {place : Place} : (tree.node? place).isSome → (later.node? place).isSome

namespace Extends

theorem refl (tree : FileTree) : Extends tree tree := ⟨rfl, id, id⟩

theorem trans {last : FileTree} (first : Extends tree later) (second : Extends later last) :
    Extends tree last :=
  ⟨second.current.trans first.current, fun held => second.directory (first.directory held),
    fun held => second.present (first.present held)⟩

theorem adding (nonempty : place ≠ []) (free : tree.node? place ≠ some .directory)
    (node : Node) : Extends tree (tree.adding place node) := by
  refine ⟨rfl, ?_, ?_⟩
  · intro other held
    have different : other ≠ place := fun equal => free (equal ▸ held)
    rw [tree.node?_adding_ne different]
    exact held
  · intro other held
    by_cases same : other = place
    · rw [same, tree.node?_adding_self nonempty]
      rfl
    · rw [tree.node?_adding_ne same]
      exact held

end Extends

/-! ## Following -/

theorem follow_append (tree : FileTree) (place : Place) (first second : List String) :
    tree.follow place (first ++ second) =
      (tree.follow place first).bind fun reached => tree.follow reached second := by
  induction first generalizing place with
  | nil => rfl
  | cons segment first induction =>
      rw [List.cons_append, follow, follow]
      split
      · rfl
      split
      · exact induction place
      split
      · exact induction place.dropLast
      split
      · rfl
      split
      · rfl
      · exact induction (place ++ [segment])

def IsName (segment : String) : Prop :=
  Path.isRedundant segment = false ∧ segment ≠ ".."

theorem isName_iff {segment : String} :
    IsName segment ↔ segment ≠ "" ∧ segment ≠ "." ∧ segment ≠ ".." := by
  simp [IsName, Path.isRedundant, and_assoc]

/-- Where one segment can lead from a directory. -/
inductive Enters (tree : FileTree) (place : Place) : String → Place → Prop
  | stay {segment : String} (redundant : Path.isRedundant segment = true) :
      Enters tree place segment place
  | up : Enters tree place ".." place.dropLast
  | down {name : String} (isName : IsName name) (short : name.utf8ByteSize ≤ nameLimit)
      (present : (tree.node? (place ++ [name])).isSome) :
      Enters tree place name (place ++ [name])

theorem follow_cons_eq_ok {segment : String} {rest : List String} {reached : Place} :
    tree.follow place (segment :: rest) = .ok reached ↔
      tree.node? place = some .directory ∧
        ∃ next, Enters tree place segment next ∧ tree.follow next rest = .ok reached := by
  constructor
  · intro follows
    rw [follow] at follows
    split at follows
    case isTrue => cases follows
    case isFalse held =>
      refine ⟨Decidable.not_not.mp held, ?_⟩
      split at follows
      case isTrue redundant => exact ⟨place, .stay redundant, follows⟩
      case isFalse notRedundant =>
        split at follows
        case isTrue parent => exact ⟨place.dropLast, parent ▸ .up, follows⟩
        case isFalse notParent =>
          split at follows
          case isTrue => cases follows
          case isFalse short =>
            split at follows
            case isTrue => cases follows
            case isFalse present =>
              rw [← Option.not_isSome, Bool.not_eq_true', Bool.not_eq_false] at present
              exact ⟨place ++ [segment], .down ⟨Bool.not_eq_true _ ▸ notRedundant, notParent⟩
                (Nat.le_of_not_lt short) present, follows⟩
  · rintro ⟨held, next, enters, follows⟩
    rw [follow, if_neg (Decidable.not_not.mpr held)]
    cases enters with
    | stay redundant => rw [if_pos redundant, follows]
    | up => rw [if_neg (by decide), if_pos rfl, follows]
    | down isName short present =>
        have exist : ¬ (tree.node? (place ++ [segment])).isNone = true := by
          rw [← Option.not_isSome, present]
          exact Bool.false_ne_true
        rw [if_neg (by rw [isName.1]; exact Bool.false_ne_true), if_neg isName.2,
          if_neg (Nat.not_lt.mpr short), if_neg exist, follows]

theorem Enters.eq_of_redundant {segment : String} {next : Place}
    (enters : Enters tree place segment next) (redundant : Path.isRedundant segment = true) :
    next = place := by
  cases enters with
  | stay => rfl
  | up => exact absurd redundant (by decide)
  | down isName =>
      rw [isName.1] at redundant
      cases redundant

theorem Enters.eq_of_isName {segment : String} {next : Place}
    (enters : Enters tree place segment next) (isName : IsName segment) :
    next = place ++ [segment] := by
  cases enters with
  | stay redundant =>
      rw [isName.1] at redundant
      cases redundant
  | up => exact absurd rfl isName.2
  | down => rfl

theorem Enters.extends {segment : String} {next : Place} (grows : Extends tree later)
    (enters : Enters tree place segment next) : Enters later place segment next := by
  cases enters with
  | stay redundant => exact .stay redundant
  | up => exact .up
  | down isName short present => exact .down isName short (grows.present present)

theorem follow_extends (grows : Extends tree later) {reached : Place}
    {segments : List String} (follows : tree.follow place segments = .ok reached) :
    later.follow place segments = .ok reached := by
  induction segments generalizing place with
  | nil => exact follows
  | cons segment rest induction =>
      rcases follow_cons_eq_ok.mp follows with ⟨held, next, enters, further⟩
      exact follow_cons_eq_ok.mpr
        ⟨grows.directory held, next, enters.extends grows, induction further⟩

theorem start_extends (grows : Extends tree later) (path : Path) :
    later.start path = tree.start path := by
  rw [start, start, grows.current]

theorem resolve_extends (grows : Extends tree later) {path : Path}
    (resolved : tree.resolve path = .ok place) : later.resolve path = .ok place := by
  rw [resolve] at resolved ⊢
  rw [start_extends grows]
  cases started : tree.start path with
  | error reason =>
      rw [started] at resolved
      cases resolved
  | ok origin =>
      rw [started] at resolved
      exact follow_extends grows resolved

end CommandReference.FileTree
