import CommandReference.Proofs.FileTree.Child

namespace CommandReference.FileAction

/-! What operations on a child of an existing directory do when they succeed: a file is
at its place afterwards, or a directory is, and nothing else has changed. -/

open FileTree

variable {α β : Type} {tree later : FileTree} {directory path : Path} {place : Place}
  {name : String} {contents : Bytes}

/-! ## Running -/

theorem run_bind (first : FileAction α) (next : α → FileAction β) (tree : FileTree) :
    (first >>= next).run tree =
      match first.run tree with
      | (.ok value, middle) => (next value).run middle
      | (.error reason, middle) => (.error reason, middle) := by
  show (match first.run tree with
    | (outcome, middle) => ExceptT.bindCont next outcome middle) = _
  rcases first.run tree with ⟨_ | value, middle⟩ <;> rfl

theorem run_bind_cases {first : FileAction α} {next : α → FileAction β}
    {outcome : Except FileError β} (ran : (first >>= next).run tree = (outcome, later)) :
    (∃ value middle, first.run tree = (.ok value, middle) ∧
      (next value).run middle = (outcome, later)) ∨
    ∃ reason, first.run tree = (.error reason, later) ∧ outcome = .error reason := by
  rw [run_bind] at ran
  split at ran
  case h_1 value middle firstRan => exact .inl ⟨value, middle, firstRan, ran⟩
  case h_2 reason middle firstRan =>
    cases ran
    exact .inr ⟨reason, firstRan, rfl⟩

theorem of_run_bind_eq_ok {first : FileAction α} {next : α → FileAction β} {result : β}
    (ran : (first >>= next).run tree = (.ok result, later)) :
    ∃ value middle, first.run tree = (.ok value, middle) ∧
      (next value).run middle = (.ok result, later) := by
  rcases run_bind_cases ran with both | ⟨reason, _, failed⟩
  · exact both
  · cases failed

theorem run_ask_bind (question : FileTree → Except FileError α) (next : α → FileAction β)
    (tree : FileTree) :
    (ask question >>= next).run tree =
      match question tree with
      | .ok value => (next value).run tree
      | .error reason => (.error reason, tree) := by
  rw [run_bind]
  show (match (question tree, tree) with
    | (.ok value, middle) => (next value).run middle
    | (.error reason, middle) => (.error reason, middle)) = _
  cases question tree <;> rfl

theorem run_tryCatch (first : FileAction α) (handler : FileError → FileAction α)
    (tree : FileTree) :
    (tryCatch first handler).run tree =
      match first.run tree with
      | (.ok value, middle) => (.ok value, middle)
      | (.error reason, middle) => (handler reason).run middle := by
  simp only [tryCatch, tryCatchThe, MonadExceptOf.tryCatch, ExceptT.tryCatch, ExceptT.run,
    ExceptT.mk, bind, StateT.bind]
  rcases first tree with ⟨_ | value, middle⟩ <;> rfl

theorem run_of_succeeds {action : FileAction Unit} (succeeds : (action.run tree).1 = .ok ()) :
    action.run tree = (.ok (), tree.after action) :=
  Prod.ext succeeds rfl

/-! ## Files -/

theorem writeFile_child (opens : tree.Opens directory place) (component : IsComponent name)
    (written : (writeFile (directory.joinText name) contents).run tree = (.ok (), later)) :
    tree.node? (place ++ [name]) ≠ some .directory ∧
      later = tree.adding (place ++ [name]) (.file contents) ∧
      later.resolve (directory.joinText name) = .ok (place ++ [name]) := by
  rw [writeFile, run_ask_bind] at written
  cases found : tree.resolveParent (directory.joinText name) with
  | error reason =>
      rw [found] at written
      cases written
  | ok result =>
      rcases opens.of_resolveParent_eq_ok component found with ⟨rfl, reaches⟩
      rw [found] at written
      dsimp only at written
      rw [run_ask_bind] at written
      dsimp only at written
      split at written
      case isTrue => cases written
      case isFalse allowed =>
        have free : tree.node? (place ++ [name]) ≠ some .directory := fun held =>
          allowed (by rw [decide_eq_true held, Bool.true_or])
        have added : later = tree.adding (place ++ [name]) (.file contents) :=
          (congrArg Prod.snd written).symm
        have nonempty : place ++ [name] ≠ [] := by simp
        refine ⟨free, added, reaches later ?_ ?_⟩
        · exact added ▸ .adding nonempty free _
        · rw [added, tree.node?_adding_self nonempty]
          rfl

theorem of_writeFile_eq_error {reason : FileError}
    (failed : (writeFile path contents).run tree = (.error reason, later)) : later = tree := by
  rw [writeFile, run_ask_bind] at failed
  split at failed
  case h_2 =>
    cases failed
    rfl
  case h_1 found =>
    split at failed
    case h_1 =>
      cases failed
      rfl
    case h_2 =>
      rw [run_ask_bind] at failed
      dsimp only at failed
      split at failed <;> cases failed
      rfl

/-! ## Directories -/

theorem makeDirectory_child (opens : tree.Opens directory place)
    (component : IsComponent name) {outcome : Except FileError Unit}
    (made : (makeDirectory (directory.joinText name)).run tree = (outcome, later)) :
    match outcome with
    | .ok () => tree.node? (place ++ [name]) = none ∧
        later = tree.adding (place ++ [name]) .directory ∧
        later.Opens (directory.joinText name) (place ++ [name])
    | .error reason => reason ≠ .notFound ∧ later = tree := by
  rw [makeDirectory, run_ask_bind] at made
  cases found : tree.resolveParent (directory.joinText name) with
  | error reason =>
      rw [found] at made
      cases made
      exact ⟨fun equal => opens.resolveParent_ne_notFound component (equal ▸ found), rfl⟩
  | ok result =>
      rcases opens.of_resolveParent_eq_ok component found with ⟨rfl, reaches⟩
      rw [found] at made
      dsimp only at made
      rw [run_ask_bind] at made
      dsimp only at made
      split at made
      case h_1 present =>
        cases made
        exact ⟨nofun, rfl⟩
      case h_2 free =>
        cases made
        have nonempty : place ++ [name] ≠ [] := by simp
        have held := tree.node?_adding_self nonempty .directory
        refine ⟨free, rfl, reaches _ (.adding nonempty ?_ _) ?_, held⟩
        · rw [free]
          exact nofun
        · exact held ▸ rfl

theorem of_unlessDirectory {reason : FileError}
    (ran : (unlessDirectory path reason).run tree = (.ok (), later)) :
    later = tree ∧ tree.isDirectory path = true := by
  rw [unlessDirectory, run_ask_bind] at ran
  dsimp only at ran
  split at ran
  case isTrue holds =>
    cases ran
    exact ⟨rfl, holds⟩
  case isFalse => cases ran

theorem opens_of_isDirectory (holds : tree.isDirectory path = true) :
    ∃ place, tree.Opens path place := by
  rw [FileTree.isDirectory] at holds
  split at holds
  case h_1 place resolved => exact ⟨place, resolved, of_decide_eq_true holds⟩
  case h_2 => cases holds

theorem makeDirectories_child (opens : tree.Opens directory place)
    (component : IsComponent name)
    (made : (makeDirectories (directory.joinText name)).run tree = (.ok (), later)) :
    later.Opens (directory.joinText name) (place ++ [name]) ∧
      (later = tree ∨ tree.node? (place ++ [name]) = none ∧
        later = tree.adding (place ++ [name]) .directory) := by
  have nonempty := opens.joinText_ne_empty component
  rw [makeDirectories, makeDirectoriesWithin, if_neg nonempty, run_tryCatch] at made
  rcases ran : (makeDirectory (directory.joinText name)).run tree with ⟨outcome, middle⟩
  have child := makeDirectory_child opens component ran
  rw [ran] at made
  cases outcome with
  | ok =>
      cases made
      exact ⟨child.2.2, .inr ⟨child.1, child.2.1⟩⟩
  | error reason =>
      rcases child with ⟨found, rfl⟩
      have checked : (unlessDirectory (directory.joinText name) reason).run middle =
          (.ok (), later) := by
        cases reason with
        | notFound => exact absurd rfl found
        | _ => exact made
      rcases of_unlessDirectory checked with ⟨rfl, holds⟩
      rcases opens_of_isDirectory holds with ⟨reached, there⟩
      have same := opens.of_resolve_joinText_eq_ok component there.resolved
      exact ⟨same ▸ there, .inl rfl⟩

end CommandReference.FileAction
