import CommandReference.Proofs.FileTree.Action
import Mathlib.Data.List.Infix
import Mathlib.Data.List.Induction

namespace CommandReference

/-! What comes into being when a directory is made with all missing ones around it:
directories that the path or an outer one leads to, and nothing else. -/

namespace FileTree

variable {tree later : FileTree} {directory path outer : Path} {place reached : Place}
  {name : String}

/-! ## Paths of children -/

theorem start_of_text_append {more : String} (nonempty : directory ≠ Path.empty)
    (longer : path.text = directory.text ++ more) {origin : Place × List String}
    (started : tree.start path = .ok origin) :
    tree.start directory = .ok (tree.origin directory) := by
  rw [start] at started
  split at started
  · cases started
  case isFalse noNul =>
    split at started
    · cases started
    split at started
    · cases started
    case isFalse short =>
      have noNul : ¬ directory.text.toList.contains '\x00' = true := by
        rw [longer] at noNul
        simp_all
      have short : ¬ pathLimit < directory.text.utf8ByteSize := by
        rw [longer, String.utf8ByteSize_append] at short
        omega
      rw [start, if_neg noNul, if_neg nonempty, if_neg short, FileTree.origin]
      split <;> rfl

/-- Where a path leads to a directory, the path without its last name leads to the one
around it. -/
theorem Opens.of_joinText (opens : tree.Opens (directory.joinText name) reached)
    (nonempty : directory ≠ Path.empty) (component : IsComponent name) :
    ∃ place, tree.Opens directory place ∧ reached = place ++ [name] := by
  rcases of_resolve_eq_ok opens.resolved with ⟨_, started, follows⟩
  rcases FileTree.origin_joinText tree nonempty component with ⟨inner, segments, joined⟩
  have starts : tree.start directory = .ok (tree.origin directory) := by
    rcases Path.joinText_plain nonempty component.noSlash with ⟨rest, isRest, written⟩
    have text : (directory.joinText name).text =
        (⟨directory.first, rest⟩ : Path).text ++ "/" ++ name := by
      rw [written, Path.text_concat]
    cases isRest with
    | inl plain =>
        rw [← plain, String.append_assoc] at text
        exact start_of_text_append nonempty text started
    | inr trailing =>
        have slash := Path.text_concat directory.first rest ""
        rw [← trailing, String.append_empty] at slash
        rw [← slash] at text
        exact start_of_text_append nonempty text started
  rw [joined, follow_append] at follows
  cases around : tree.follow (tree.origin directory).1 inner with
  | error reason =>
      rw [around] at follows
      cases follows
  | ok place =>
      rw [around] at follows
      rcases follow_cons_eq_ok.mp follows with ⟨held, next, enters, ended⟩
      have isChild := enters.eq_of_isName component.isName
      refine ⟨place, ⟨?_, held⟩, (Except.ok.inj ended).symm.trans isChild⟩
      rw [resolve, starts]
      dsimp only [Except.bind]
      cases segments with
      | inl plain => rw [plain, around]
      | inr trailing =>
          rw [trailing, follow_append, around]
          exact follow_cons_eq_ok.mpr ⟨held, place, .stay rfl, rfl⟩

/-! ## What is made -/

theorem follow_redundant {segments : List String} (held : tree.node? place = some .directory)
    (redundant : ∀ segment ∈ segments, Path.isRedundant segment = true) :
    tree.follow place segments = .ok place := by
  induction segments with
  | nil => rfl
  | cons segment rest induction =>
      rcases List.forall_mem_cons.mp redundant with ⟨here, below⟩
      exact follow_cons_eq_ok.mpr ⟨held, place, .stay here, induction below⟩

theorem segments_of_dropWhile {segments outer : List String} {last : String}
    (reversed : segments.reverse.dropWhile (· = "") = last :: outer) :
    last ≠ "" ∧ ∃ slashes, segments = outer.reverse ++ last :: slashes ∧
      ∀ segment ∈ slashes, segment = "" := by
  have whole : segments.reverse = segments.reverse.takeWhile (· = "") ++ last :: outer := by
    rw [← reversed, List.takeWhile_append_dropWhile]
  have named := List.head?_dropWhile_not (fun segment => decide (segment = "")) segments.reverse
  rw [reversed] at named
  refine ⟨by simpa using named, (segments.reverse.takeWhile (· = "")).reverse, ?_, ?_⟩
  · have turned := congrArg List.reverse whole
    simpa using turned
  · intro segment member
    have slash := List.all_eq_true.mp List.all_takeWhile _ (List.mem_reverse.mp member)
    exact of_decide_eq_true slash

/-- The place that a directory is about to be made at is the one that its path leads to
afterwards. -/
theorem of_resolveParent_eq_ok {parent : Place} {last : String}
    (found : tree.resolveParent path = .ok (parent, some last)) (grows : Extends tree later)
    (held : later.node? (parent ++ [last]) = some .directory) :
    later.resolve path = .ok (parent ++ [last]) := by
  rw [resolveParent] at found
  cases started : tree.start path with
  | error reason =>
      rw [started] at found
      cases found
  | ok origin =>
      rcases origin with ⟨start, segments⟩
      rw [started] at found
      simp only [bind, Except.bind] at found
      split at found
      case h_1 => cases found
      case h_2 final outer reversed =>
        split at found
        case h_1 => cases found
        case h_2 around followed =>
          split at found
          · cases found
          split at found
          · cases found
          split at found
          · cases found
          case isFalse inDirectory notDots short =>
            cases found
            rcases segments_of_dropWhile reversed with ⟨notEmpty, slashes, rfl, areEmpty⟩
            have isName : IsName last := by
              simp only [Bool.or_eq_true, decide_eq_true_eq, not_or] at notDots
              exact isName_iff.mpr ⟨notEmpty, notDots⟩
            have enters : Enters later parent last (parent ++ [last]) :=
              .down isName (Nat.le_of_not_lt short) (held ▸ rfl)
            have ended : later.follow (parent ++ [last]) slashes = .ok (parent ++ [last]) :=
              follow_redundant held fun segment member => by rw [areEmpty segment member]; rfl
            rw [resolve, start_extends grows, started]
            dsimp only [Except.bind]
            rw [follow_append, follow_extends grows followed]
            exact follow_cons_eq_ok.mpr
              ⟨grows.directory (Decidable.not_not.mp inDirectory), _, enters, ended⟩

end FileTree

namespace FileAction

open FileTree

variable {tree later : FileTree} {path : Path} {outcome : Except FileError Unit}

theorem makeDirectory_effect (made : (makeDirectory path).run tree = (outcome, later)) :
    match outcome with
    | .ok () => ∃ place, place ≠ [] ∧ tree.node? place = none ∧
        later = tree.adding place .directory ∧ later.Opens path place
    | .error _ => later = tree := by
  rw [makeDirectory, run_ask_bind] at made
  cases found : tree.resolveParent path with
  | error reason =>
      rw [found] at made
      cases made
      rfl
  | ok result =>
      rcases result with ⟨parent, last?⟩
      rw [found] at made
      cases last? with
      | none =>
          cases made
          rfl
      | some last =>
          dsimp only at made
          rw [run_ask_bind] at made
          dsimp only at made
          split at made
          case h_1 =>
            cases made
            rfl
          case h_2 free =>
            cases made
            have nonempty : parent ++ [last] ≠ [] := by simp
            have held := tree.node?_adding_self nonempty .directory
            have grows : Extends tree (tree.adding (parent ++ [last]) .directory) :=
              .adding nonempty (by simp [free]) _
            exact ⟨_, nonempty, free, rfl, of_resolveParent_eq_ok found grows held, held⟩

end FileAction

/-! ## What is made on the way -/

namespace FileTree

/-- A tree has grown by directories that a path or an outer one leads to. -/
structure GrowsToward (tree later : FileTree) (path : Path) : Prop where
  grows : Extends tree later
  new (place : Place) : later.node? place = tree.node? place ∨
    tree.node? place = none ∧
      ∃ outer : Path, outer.components <+: path.components ∧ later.resolve outer = .ok place

namespace GrowsToward

variable {tree middle later : FileTree} {path outer : Path} {place : Place}

theorem refl (tree : FileTree) (path : Path) : GrowsToward tree tree path :=
  ⟨.refl tree, fun _ => .inl rfl⟩

theorem adding (nonempty : place ≠ []) (free : tree.node? place = none)
    (opens : (tree.adding place .directory).Opens path place) :
    GrowsToward tree (tree.adding place .directory) path := by
  refine ⟨.adding nonempty (by simp [free]) _, fun other => ?_⟩
  by_cases same : other = place
  · exact .inr ⟨same ▸ free, path, List.prefix_refl _, same ▸ opens.resolved⟩
  · exact .inl (tree.node?_adding_ne same _)

theorem mono (grown : GrowsToward tree later outer)
    (inside : outer.components <+: path.components) : GrowsToward tree later path := by
  refine ⟨grown.grows, fun place => (grown.new place).imp_right ?_⟩
  rintro ⟨free, other, within, resolved⟩
  exact ⟨free, other, within.trans inside, resolved⟩

theorem trans (first : GrowsToward tree middle path) (second : GrowsToward middle later path) :
    GrowsToward tree later path := by
  refine ⟨first.grows.trans second.grows, fun place => ?_⟩
  rcases second.new place with same | ⟨free, other, within, resolved⟩
  · rw [same]
    refine (first.new place).imp_right ?_
    rintro ⟨free, other, within, resolved⟩
    exact ⟨free, other, within, resolve_extends second.grows resolved⟩
  · have unmade : tree.node? place = none := by
      have absent := mt (@first.grows.present place)
      simpa [free] using absent
    exact .inr ⟨unmade, other, within, resolved⟩

end GrowsToward

end FileTree

namespace FileAction

open FileTree

variable {tree later : FileTree} {path : Path} {outcome : Except FileError Unit}

theorem makeDirectory_growsToward (made : (makeDirectory path).run tree = (outcome, later)) :
    GrowsToward tree later path := by
  have effect := makeDirectory_effect made
  cases outcome with
  | error reason => exact effect ▸ .refl tree path
  | ok =>
      rcases effect with ⟨place, nonempty, free, rfl, opens⟩
      exact .adding nonempty free opens

theorem unlessDirectory_unchanged (path : Path) (reason : FileError) (tree : FileTree) :
    ((unlessDirectory path reason).run tree).2 = tree := by
  rw [unlessDirectory, run_ask_bind]
  dsimp only
  split <;> rfl

theorem unlessDirectory_growsToward (path : Path) (reason : FileError) (tree : FileTree) :
    GrowsToward tree ((unlessDirectory path reason).run tree).2 path := by
  rw [unlessDirectory_unchanged]
  exact .refl tree path

theorem orDirectory_growsToward (path : Path) (tree : FileTree) :
    GrowsToward tree
      ((tryCatch (makeDirectory path) (unlessDirectory path) : FileAction Unit).run tree).2
      path := by
  rw [run_tryCatch]
  cases made : (makeDirectory path).run tree with
  | mk outcome middle =>
      have own := makeDirectory_growsToward made
      cases outcome with
      | ok => exact own
      | error reason => exact own.trans (unlessDirectory_growsToward path reason middle)

/-- Whether or not it succeeds, making directories only adds some on the way. -/
theorem makeDirectoriesWithin_growsToward (depth : Nat) (path : Path) (tree : FileTree) :
    GrowsToward tree ((makeDirectoriesWithin depth path).run tree).2 path := by
  induction depth generalizing path tree with
  | zero => exact .refl tree path
  | succ depth induction =>
      rw [makeDirectoriesWithin]
      split
      · exact .refl tree path
      rw [run_tryCatch]
      cases made : (makeDirectory path).run tree with
      | mk outcome middle =>
          have own := makeDirectory_growsToward made
          cases outcome with
          | ok => exact own
          | error reason =>
              dsimp only
              split
              case h_1 => exact own
              case h_2 outer inside =>
                have within : outer.components <+: path.components := by
                  rw [Path.components_of_parent? inside]
                  exact List.dropLast_prefix _
                have around := own.trans ((induction outer middle).mono within)
                rw [run_bind]
                split
                case h_1 after ran =>
                  rw [ran] at around
                  exact around.trans (orDirectory_growsToward path after)
                case h_2 after ran =>
                  rw [ran] at around
                  exact around
              case h_3 => exact own.trans (unlessDirectory_growsToward path _ middle)

theorem unlessDirectory_opens {reason : FileError}
    (ran : (unlessDirectory path reason).run tree = (.ok (), later)) :
    ∃ place, later.Opens path place := by
  rcases of_unlessDirectory ran with ⟨rfl, holds⟩
  exact opens_of_isDirectory holds

theorem orDirectory_opens
    (ran : (tryCatch (makeDirectory path) (unlessDirectory path) : FileAction Unit).run tree =
      (.ok (), later)) : ∃ place, later.Opens path place := by
  rw [run_tryCatch] at ran
  split at ran
  case h_1 made =>
    cases ran
    rcases makeDirectory_effect made with ⟨place, _, _, _, opens⟩
    exact ⟨place, opens⟩
  case h_2 => exact unlessDirectory_opens ran

theorem makeDirectories_opens (nonempty : path ≠ Path.empty)
    (ran : (makeDirectories path).run tree = (.ok (), later)) :
    ∃ place, later.Opens path place := by
  rw [makeDirectories, makeDirectoriesWithin, if_neg nonempty, run_tryCatch] at ran
  split at ran
  case h_1 made =>
    cases ran
    rcases makeDirectory_effect made with ⟨place, _, _, _, opens⟩
    exact ⟨place, opens⟩
  case h_2 =>
    split at ran
    case h_1 => cases ran
    case h_2 =>
      rcases of_run_bind_eq_ok ran with ⟨_, middle, _, last⟩
      exact orDirectory_opens last
    case h_3 => exact unlessDirectory_opens ran

end FileAction

/-! ## Where paths lead -/

namespace FileTree

variable {tree later : FileTree} {directory path outer : Path} {place reached : Place}
  {name : String}

/-- Whatever there is, is in a directory. -/
def IsGrounded (tree : FileTree) : Prop :=
  ∀ place, (tree.node? place).isSome → tree.node? place.dropLast = some .directory

theorem isGrounded_of_keys
    (each : ∀ place ∈ tree.nodes.keys, tree.node? place.dropLast = some .directory) :
    tree.IsGrounded := by
  intro place present
  by_cases outermost : place = []
  · rw [outermost]
    rfl
  · exact each place ((mem_keys_iff outermost).mpr present)

theorem IsGrounded.of_prefix (grounded : tree.IsGrounded) {inner : Place}
    (within : place <+: inner) (present : (tree.node? inner).isSome) (different : place ≠ inner) :
    tree.node? place = some .directory := by
  rcases within with ⟨suffix, rfl⟩
  induction suffix using List.reverseRecOn with
  | nil => simp at different
  | append_singleton suffix last induction =>
      have around := grounded _ present
      rw [← List.append_assoc, List.dropLast_concat] at around
      by_cases same : place = place ++ suffix
      · rwa [← same] at around
      · exact induction (around ▸ rfl) same

/-- The segments of a path that matter, from where it starts. -/
def steps (tree : FileTree) (path : Path) : List String :=
  (tree.origin path).2.filter (!Path.isRedundant ·)

/-- Where steps lead from a place if all that they need is there. -/
def walk (place : Place) (steps : List String) : Place :=
  steps.foldl (fun place step => if step = ".." then place.dropLast else place ++ [step]) place

/-- The place that a path names, whether or not anything is there. -/
def destination (tree : FileTree) (path : Path) : Place :=
  walk (tree.origin path).1 (tree.steps path)

theorem walk_append (place : Place) (first more : List String) :
    walk place (first ++ more) = walk (walk place first) more :=
  List.foldl_append

theorem walk_name (isName : IsName name) (place : Place) :
    walk place [name] = place ++ [name] :=
  if_neg isName.2

theorem walk_names {names : List String} (plain : ".." ∉ names) (place : Place) :
    walk place names = place ++ names := by
  induction names generalizing place with
  | nil => exact (List.append_nil place).symm
  | cons name rest induction =>
      have parts := List.ne_and_not_mem_of_not_mem_cons plain
      rw [walk, List.foldl_cons, if_neg parts.1.symm, ← walk, induction parts.2,
        List.append_assoc]
      rfl

theorem eq_walk_of_follow {segments : List String}
    (follows : tree.follow place segments = .ok reached) :
    reached = walk place (segments.filter (!Path.isRedundant ·)) := by
  induction segments generalizing place with
  | nil =>
      cases follows
      rfl
  | cons segment rest induction =>
      rcases follow_cons_eq_ok.mp follows with ⟨_, next, enters, further⟩
      rw [induction further]
      cases enters with
      | stay redundant => rw [List.filter_cons_of_neg (by simp [redundant])]
      | up => rw [List.filter_cons_of_pos (by decide), walk, walk, List.foldl_cons, if_pos rfl]
      | down isName =>
          rw [List.filter_cons_of_pos (by simp [isName.1]), walk, walk, List.foldl_cons,
            if_neg isName.2]

theorem origin_extends (grows : Extends tree later) (path : Path) :
    later.origin path = tree.origin path := by
  rw [FileTree.origin, FileTree.origin, grows.current]

theorem eq_destination_of_resolve (grows : Extends tree later)
    (resolved : later.resolve path = .ok reached) : reached = tree.destination path := by
  have follows := (of_resolve_eq_ok resolved).2.2
  rw [origin_extends grows] at follows
  exact eq_walk_of_follow follows

theorem steps_prefix (tree : FileTree) (outerNonempty : outer ≠ Path.empty)
    (nonempty : path ≠ Path.empty) (within : outer.components <+: path.components) :
    (tree.origin outer).1 = (tree.origin path).1 ∧ tree.steps outer <+: tree.steps path := by
  rw [Path.components_of_ne_empty outerNonempty, Path.components_of_ne_empty nonempty,
    List.cons_prefix_cons] at within
  rcases within with ⟨sameFirst, within⟩
  rw [steps, steps, FileTree.origin, FileTree.origin,
    Path.isAbsolute_of_ne_empty outerNonempty, Path.isAbsolute_of_ne_empty nonempty, sameFirst]
  split
  · exact ⟨rfl, within⟩
  · refine ⟨rfl, ?_⟩
    rw [List.filter_cons, List.filter_cons]
    split
    · exact List.cons_prefix_cons.mpr ⟨rfl, within⟩
    · exact within

theorem steps_joinText (tree : FileTree) (nonempty : directory ≠ Path.empty)
    (component : IsComponent name) :
    (tree.origin (directory.joinText name)).1 = (tree.origin directory).1 ∧
      tree.steps (directory.joinText name) = tree.steps directory ++ [name] := by
  rcases FileTree.origin_joinText tree nonempty component with ⟨inner, segments, joined⟩
  have own : tree.steps directory = inner.filter (!Path.isRedundant ·) := by
    rw [steps]
    rcases segments with segments | segments
    · rw [segments]
    · rw [segments, List.filter_append]
      exact List.append_nil _
  rw [own, steps, joined, List.filter_append]
  simp [component.isName.1]

end FileTree

end CommandReference
