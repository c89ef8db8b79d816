import CommandReference.Proofs.FileTree.Extension
import CommandReference.Proofs.Path
import Mathlib.Data.List.Basic

namespace CommandReference

/-! Files and directories made in a directory that exists. A name is joined to the path
of the directory, whatever that path looks like, and the operation succeeds only if it
reaches the place with this name. -/

namespace FileTree

variable {tree later : FileTree} {directory path : Path} {place : Place} {name : String}

/-- A name that stays in one piece when it is joined to a path. -/
structure IsComponent (name : String) : Prop where
  isName : IsName name
  noSlash : '/' ∉ name.toList

theorem IsComponent.components_ofText (component : IsComponent name) :
    (Path.ofText name).components = [name] := by
  have nonempty : (⟨name, []⟩ : Path) ≠ Path.empty := fun equal =>
    (isName_iff.mp component.isName).1 (congrArg Path.first equal)
  rw [Path.ofText_plain component.noSlash, Path.components_of_ne_empty nonempty]
  rfl

theorem IsComponent.components_joinText (component : IsComponent name) (directory : Path) :
    (directory.joinText name).components = directory.components ++ [name] := by
  have relative : (Path.ofText name).isAbsolute = false := by
    rw [Path.ofText_plain component.noSlash]
    exact Bool.and_false _
  rw [Path.joinText, Path.components_join, component.components_ofText, relative]
  split
  case isTrue alone =>
    rw [alone.resolve_left Bool.false_ne_true]
    rfl
  case isFalse =>
    have kept : [name].filter (!Path.isRedundant ·) = [name] :=
      List.filter_cons_of_pos (by rw [component.isName.1]; rfl)
    rw [Path.ofText_plain component.noSlash, Path.segments, kept]

theorem IsComponent.location_joinText (component : IsComponent name) (directory : Path) :
    (directory.joinText name).location = directory.location ++ [name] := by
  obtain ⟨_, stays, up⟩ := isName_iff.mp component.isName
  rw [Path.location, component.components_joinText, List.foldl_append, List.foldl_cons,
    List.foldl_nil, Path.enter, if_neg stays, if_neg up, List.reverse_cons, Path.location]

/-- A path leads to a directory. -/
structure Opens (tree : FileTree) (directory : Path) (place : Place) : Prop where
  resolved : tree.resolve directory = .ok place
  held : tree.node? place = some .directory

theorem Opens.extends (opens : tree.Opens directory place) (grows : Extends tree later) :
    later.Opens directory place :=
  ⟨resolve_extends grows opens.resolved, grows.directory opens.held⟩

/-! ## Starting -/

/-- Where a path that may be followed starts from, and its segments from there. -/
def origin (tree : FileTree) (path : Path) : Place × List String :=
  if path.isAbsolute then ([], path.rest) else (tree.current, path.first :: path.rest)

theorem of_start_eq_ok {origin : Place × List String} (started : tree.start path = .ok origin) :
    path ≠ Path.empty ∧ origin = tree.origin path := by
  rw [start] at started
  split at started
  · cases started
  split at started
  · cases started
  case isFalse nonempty =>
    split at started
    · cases started
    refine ⟨nonempty, ?_⟩
    rw [FileTree.origin]
    split at started
    case isTrue absolute =>
      cases started
      rw [if_pos absolute]
    case isFalse relative =>
      cases started
      rw [if_neg relative]

theorem start_ne_notFound (nonempty : path ≠ Path.empty) :
    tree.start path ≠ .error .notFound := by
  intro missing
  rw [start, if_neg nonempty] at missing
  split at missing
  · cases missing
  split at missing
  · cases missing
  split at missing <;> cases missing

/-! ## The path of a child -/

theorem follow_of_trailing {segments : List String} {reached : Place}
    (follows : tree.follow place (segments ++ [""]) = .ok reached) :
    tree.follow place segments = .ok reached := by
  rw [follow_append] at follows
  cases inner : tree.follow place segments with
  | error reason =>
      rw [inner] at follows
      cases follows
  | ok stop =>
      rw [inner] at follows
      rcases follow_cons_eq_ok.mp follows with ⟨_, next, enters, ended⟩
      exact enters.eq_of_redundant rfl ▸ ended

theorem origin_joinText (tree : FileTree) (nonempty : directory ≠ Path.empty)
    (component : IsComponent name) :
    ∃ inner, ((tree.origin directory).2 = inner ∨ (tree.origin directory).2 = inner ++ [""]) ∧
      tree.origin (directory.joinText name) = ((tree.origin directory).1, inner ++ [name]) := by
  rcases Path.joinText_plain nonempty component.noSlash with ⟨inner, rest, joined⟩
  have joinedNonempty := joined ▸ Path.joinText_ne_empty nonempty component.noSlash
  rw [FileTree.origin, FileTree.origin, joined, Path.isAbsolute_of_ne_empty nonempty,
    Path.isAbsolute_of_ne_empty joinedNonempty]
  split
  case isTrue absolute => exact ⟨inner, rest, rfl⟩
  case isFalse relative =>
    refine ⟨directory.first :: inner, ?_, rfl⟩
    simpa using rest

theorem of_resolve_eq_ok (resolved : tree.resolve path = .ok place) :
    path ≠ Path.empty ∧ tree.start path = .ok (tree.origin path) ∧
      tree.follow (tree.origin path).1 (tree.origin path).2 = .ok place := by
  rw [resolve] at resolved
  cases started : tree.start path with
  | error reason =>
      rw [started] at resolved
      cases resolved
  | ok origin =>
      rw [started] at resolved
      rcases of_start_eq_ok started with ⟨nonempty, rfl⟩
      exact ⟨nonempty, rfl, resolved⟩

theorem Opens.origin_joinText (opens : tree.Opens directory place)
    (component : IsComponent name) :
    ∃ inner, tree.follow (tree.origin (directory.joinText name)).1 inner = .ok place ∧
      (tree.origin (directory.joinText name)).2 = inner ++ [name] := by
  rcases of_resolve_eq_ok opens.resolved with ⟨nonempty, _, follows⟩
  rcases FileTree.origin_joinText tree nonempty component with ⟨inner, segments, joined⟩
  rw [joined]
  refine ⟨inner, ?_, rfl⟩
  rcases segments with segments | segments
  · rwa [segments] at follows
  · rw [segments] at follows
    exact follow_of_trailing follows

theorem Opens.joinText_ne_empty (opens : tree.Opens directory place)
    (component : IsComponent name) : directory.joinText name ≠ Path.empty := by
  intro empty
  rcases opens.origin_joinText component with ⟨inner, _, segments⟩
  rw [empty] at segments
  have last := congrArg List.getLast? segments
  rw [List.getLast?_concat] at last
  exact (isName_iff.mp component.isName).1 (Option.some.inj last).symm

theorem Opens.resolveParent_joinText (opens : tree.Opens directory place)
    (component : IsComponent name) :
    tree.resolveParent (directory.joinText name) =
      (tree.start (directory.joinText name)).bind fun _ =>
        if nameLimit < name.utf8ByteSize then .error .nameTooLong
        else .ok (place, some name) := by
  rcases opens.origin_joinText component with ⟨inner, follows, segments⟩
  rw [resolveParent]
  cases started : tree.start (directory.joinText name) with
  | error reason => rfl
  | ok origin =>
      rcases of_start_eq_ok started with ⟨_, rfl⟩
      obtain ⟨notEmpty, notDot, notParent⟩ := isName_iff.mp component.isName
      have reversed : (inner ++ [name]).reverse.dropWhile (· = "") = name :: inner.reverse := by
        rw [List.reverse_concat, List.dropWhile_cons_of_neg (by simpa using notEmpty)]
      simp only [bind, Except.bind, segments, reversed, List.reverse_reverse, follows,
        opens.held, notDot, notParent]
      simp
      rfl

theorem Opens.resolveParent_ne_notFound (opens : tree.Opens directory place)
    (component : IsComponent name) :
    tree.resolveParent (directory.joinText name) ≠ .error .notFound := by
  have starts : tree.start (directory.joinText name) ≠ .error .notFound :=
    start_ne_notFound (opens.joinText_ne_empty component)
  rw [opens.resolveParent_joinText component]
  cases started : tree.start (directory.joinText name) with
  | error reason =>
      rw [started] at starts
      exact fun equal => starts (congrArg Except.error (Except.error.inj equal))
  | ok origin =>
      rw [Except.bind]
      split <;> exact nofun

theorem Opens.resolve_joinText (opens : tree.Opens directory place)
    (component : IsComponent name) (present : (tree.node? (place ++ [name])).isSome) :
    tree.resolve (directory.joinText name) =
      (tree.start (directory.joinText name)).bind fun _ =>
        if nameLimit < name.utf8ByteSize then .error .nameTooLong
        else .ok (place ++ [name]) := by
  rcases opens.origin_joinText component with ⟨inner, follows, segments⟩
  rw [resolve]
  cases started : tree.start (directory.joinText name) with
  | error reason => rfl
  | ok origin =>
      rcases of_start_eq_ok started with ⟨_, rfl⟩
      have isName := component.isName
      have absent : (tree.node? (place ++ [name])).isNone = false := by
        rw [← Option.not_isSome, present]
        rfl
      simp only [Except.bind, segments, follow_append, follows, follow, opens.held, isName.1,
        isName.2, absent]
      simp

theorem Opens.of_resolve_joinText_eq_ok (opens : tree.Opens directory place)
    (component : IsComponent name) {reached : Place}
    (resolved : tree.resolve (directory.joinText name) = .ok reached) :
    reached = place ++ [name] := by
  rcases opens.origin_joinText component with ⟨inner, follows, segments⟩
  rw [resolve] at resolved
  cases started : tree.start (directory.joinText name) with
  | error reason =>
      rw [started] at resolved
      cases resolved
  | ok origin =>
      rcases of_start_eq_ok started with ⟨_, rfl⟩
      simp only [started, Except.bind, segments, follow_append, follows] at resolved
      rcases follow_cons_eq_ok.mp resolved with ⟨_, next, enters, ended⟩
      rw [← Except.ok.inj ended]
      exact enters.eq_of_isName component.isName

/-- A place that an operation is about to change is the one that the path leads to once
there is something. -/
theorem Opens.of_resolveParent_eq_ok (opens : tree.Opens directory place)
    (component : IsComponent name) {result : Place × Option String}
    (found : tree.resolveParent (directory.joinText name) = .ok result) :
    result = (place, some name) ∧
      ∀ later, Extends tree later → (later.node? (place ++ [name])).isSome →
        later.resolve (directory.joinText name) = .ok (place ++ [name]) := by
  rw [opens.resolveParent_joinText component] at found
  cases started : tree.start (directory.joinText name) with
  | error reason =>
      rw [started] at found
      cases found
  | ok origin =>
      rw [started, Except.bind] at found
      split at found
      case isTrue => cases found
      case isFalse short =>
        cases found
        refine ⟨rfl, fun later grows present => ?_⟩
        rw [(opens.extends grows).resolve_joinText component present, start_extends grows,
          started, Except.bind, if_neg short]

/-! ## Listing -/

theorem mem_keys_iff {inner : Place} (nonempty : inner ≠ []) :
    inner ∈ tree.nodes.keys ↔ (tree.node? inner).isSome := by
  rw [node?, if_neg (by rw [List.isEmpty_iff]; exact nonempty), Option.isSome_iff_ne_none]
  exact tree.nodes.mem_keys_iff inner

theorem Opens.list_eq_ok (opens : tree.Opens directory place) :
    ∃ names, tree.list directory = .ok names ∧
      ∀ name, name ∈ names ↔ (tree.node? (place ++ [name])).isSome := by
  rw [list, opens.resolved, Except.bind, if_pos opens.held]
  refine ⟨_, rfl, fun name => ?_⟩
  rw [← mem_keys_iff (by simp), List.mem_filterMap]
  constructor
  · rintro ⟨inner, member, last⟩
    split at last
    case isTrue outer =>
      rw [← outer, List.dropLast_append_getLast? name last]
      exact member
    case isFalse => cases last
  · intro member
    refine ⟨place ++ [name], member, ?_⟩
    rw [if_pos List.dropLast_concat, List.getLast?_concat]

end FileTree

end CommandReference
