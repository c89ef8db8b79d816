import CommandReference.Proofs.Compilation.Policies
import CommandReference.Proofs.FileTree.Child
import CommandReference.Proofs.Loading.Ending
import CommandReference.Proofs.Results

namespace CommandReference

/-! Loading from a file tree always ends. A file that includes itself under ever longer
paths is not found any more once a path is too long to be followed. -/

namespace FileTree

def documents (tree : FileTree) : List Bytes :=
  tree.nodes.entries.filterMap fun entry =>
    match entry.2 with
    | .file contents => some contents
    | .directory => none

theorem readsAmong (tree : FileTree) : tree.toSource.ReadsAmong tree.documents := by
  intro path contents found
  have found : (tree.read path).toOption = some contents := found
  rcases of_bind_eq_ok (of_toOption_eq_some found) with ⟨place, _, held⟩
  split at held
  case h_1 node isFile =>
    cases held
    rw [node?] at isFile
    split at isFile
    · cases isFile
    · exact List.mem_filterMap.mpr
        ⟨(place, .file contents), SortedMap.mem_of_find?_eq_some isFile, rfl⟩
  case h_2 => cases held
  case h_3 => cases held

theorem utf8ByteSize_le_of_start {tree : FileTree} {path : Path} {origin : Place × List String}
    (started : tree.start path = .ok origin) : path.text.utf8ByteSize ≤ pathLimit := by
  rw [start] at started
  split at started
  · cases started
  split at started
  · cases started
  split at started
  · cases started
  case isFalse short => exact Nat.le_of_not_lt short

theorem length_components_le_of_isFile {tree : FileTree} {path : Path}
    (present : tree.isFile path = true) : path.components.length ≤ pathLimit + 1 := by
  rw [isFile] at present
  split at present
  case h_1 place resolved =>
    have short := utf8ByteSize_le_of_start (of_resolve_eq_ok resolved).2.1
    have spread := path.length_components_le_text
    omega
  case h_2 => cases present

end FileTree

namespace Configuration

theorem load_ends_on_tree (configuration : Configuration) (tree : FileTree) (root : Path) :
    ∃ steps, (configuration.load tree.toSource root steps).isSome := by
  rw [load_isSome_iff]
  intro loader _
  have places : ∃ places : List Path.Identity, ∀ path,
      Reached (configuration.loaderSettings tree.toSource root) loader.queue path →
        path.identity ∈ places :=
    exists_places_of_length_le tree.readsAmong fun path _ present =>
      FileTree.length_components_le_of_isFile present
  rcases places with ⟨places, complete⟩
  exact Loader.ends_of_places complete fun request member => .first member

theorem compile_ends_on_tree (configuration : Configuration) (tree : FileTree) (root : Path) :
    ∃ enough outcome, ∀ steps, enough ≤ steps →
      configuration.compile tree.toSource root steps = some outcome := by
  rcases configuration.load_ends_on_tree tree root with ⟨enough, ends⟩
  rcases Option.isSome_iff_exists.mp ends with ⟨loaded, load⟩
  refine ⟨enough, loaded >>= Database.ofFiles configuration, fun steps more => ?_⟩
  rw [compile, load_mono more load]
  rfl

end Configuration

end CommandReference
