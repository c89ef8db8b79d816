import CommandReference.Proofs.FileTree.Making
import CommandReference.Proofs.Shard.Store

namespace CommandReference

open Json (Value)

/-! References in new directories. A directory that is missing can be made, and there are
no shards in it then. The index that is written beside the shards stays. -/

namespace FileTree

variable {tree later : FileTree} {directory : Path}

/-- There is nothing where a path leads, and making it makes no shard there: a path may
lead into a directory that it leaves again with a parent step, and that directory is made
as well. It must not be one in the directory of shards that is named like the file of a
shard. -/
structure IsMissing (tree : FileTree) (directory : Path) : Prop where
  free : tree.node? (tree.destination directory) = none
  apart {first more : List String} (steps : tree.steps directory = first ++ more)
      {name key : String} (spells : Shard.keyOfFileName? name = some key) :
    walk (tree.origin directory).1 first ≠
      tree.destination directory ++ [Shard.directoryName] ++ [name]

theorem IsMissing.of_names (plain : ".." ∉ tree.steps directory)
    (free : tree.node? (tree.destination directory) = none) : tree.IsMissing directory := by
  refine ⟨free, ?_⟩
  intro first more steps name key _ inside
  have firstPlain : ".." ∉ first := fun member =>
    plain (steps ▸ List.mem_append_left more member)
  have lengths := congrArg List.length inside
  rw [destination, walk_names plain, walk_names firstPlain, steps] at lengths
  simp only [List.length_append, List.length_singleton] at lengths
  omega

theorem IsMissing.destination_ne (missing : tree.IsMissing directory)
    (nonempty : directory ≠ Path.empty) {outer : Path} (outerNonempty : outer ≠ Path.empty)
    (within : outer.components <+: (directory.joinText Shard.directoryName).components)
    {name key : String} (spells : Shard.keyOfFileName? name = some key) :
    tree.destination outer ≠ tree.destination directory ++ [Shard.directoryName] ++ [name] := by
  intro inside
  have component := Shard.isComponent_directoryName
  have child := tree.steps_joinText nonempty component
  have parts := tree.steps_prefix outerNonempty
    (Path.joinText_ne_empty nonempty component.noSlash) within
  rw [child.1, child.2, List.prefix_concat_iff] at parts
  rcases parts with ⟨sameStart, whole | ⟨more, steps⟩⟩
  · rw [destination, sameStart, whole, walk_append, walk_name component.isName] at inside
    have lengths := congrArg List.length inside
    simp [destination] at lengths
  · apply missing.apart steps.symm spells
    rw [← sameStart]
    exact inside

/-- No shards are in a new directory once the directory for them has been made. -/
theorem IsMissing.holdsShards (missing : tree.IsMissing directory)
    (grounded : tree.IsGrounded) (nonempty : directory ≠ Path.empty)
    (made : (FileAction.makeDirectories (directory.joinText Shard.directoryName)).run tree =
      (.ok (), later)) :
    HoldsShards later directory (tree.destination directory) [] := by
  have grown := FileAction.makeDirectoriesWithin_growsToward
    ((directory.joinText Shard.directoryName).components.length + 1)
    (directory.joinText Shard.directoryName) tree
  rw [← FileAction.makeDirectories, made] at grown
  rcases FileAction.makeDirectories_opens
    (Path.joinText_ne_empty nonempty Shard.isComponent_directoryName.noSlash) made with
    ⟨reached, opens⟩
  rcases opens.of_joinText nonempty Shard.isComponent_directoryName with ⟨place, around, _⟩
  rw [eq_destination_of_resolve grown.grows around.resolved] at around
  refine ⟨around, ?_, fun none => absurd none List.not_mem_nil,
    fun none => absurd none List.not_mem_nil⟩
  intro name key node spells found
  exfalso
  rcases grown.new _ with same | ⟨_, outer, within, resolved⟩
  · have outer : tree.destination directory <+:
        tree.destination directory ++ [Shard.directoryName] ++ [name] := by
      rw [List.append_assoc]
      exact List.prefix_append _ _
    have present : (tree.node? (tree.destination directory ++
        [Shard.directoryName] ++ [name])).isSome := by
      rw [← same, found]
      rfl
    have isOld := grounded.of_prefix outer present (by simp)
    rw [missing.free] at isOld
    cases isOld
  · exact missing.destination_ne nonempty (of_resolve_eq_ok resolved).1 within spells
      (eq_destination_of_resolve grown.grows resolved).symm

end FileTree

/-! ## Writing -/

/-- After a reference has been written into a new directory, its index can be read there,
and every name is answered as by the reference itself. -/
theorem Database.write_new {tree later : FileTree} {directory : Path} {database : Database}
    {threshold : Nat} (grounded : tree.IsGrounded) (missing : tree.IsMissing directory)
    (nonempty : directory ≠ Path.empty)
    (ran : (database.write directory threshold).run tree = (.ok (), later)) :
    later.readText (directory.joinText Shard.indexFile) =
        .ok (Value.ofTexts database.index).ascii ∧
      ∃ reader, ShardReader.ofDirectory later directory = .ok reader ∧
        ∀ name, reader.lookup later name = .ok ((database.get? name).map Entry.toJson) := by
  rcases FileAction.of_run_bind_eq_ok ran with ⟨_, made, directories, ran⟩
  rcases FileAction.of_run_bind_eq_ok ran with ⟨_, indexed, index, shards⟩
  have holds := missing.holdsShards grounded nonempty directories
  rcases FileAction.makeDirectories_opens
    (Path.joinText_ne_empty nonempty Shard.isComponent_directoryName.noSlash) directories with
    ⟨reached, opens⟩
  have isShards := holds.opens.of_resolve_joinText_eq_ok Shard.isComponent_directoryName
    opens.resolved
  subst isShards
  rcases FileAction.writeFile_child holds.opens Shard.isComponent_indexFile index with
    ⟨_, added, reaches⟩
  rcases holds.writeIndex opens index with ⟨holds, opens⟩
  rcases Shard.writeAll_keeps opens shards with ⟨grows, keeps⟩
  rcases holds.writeShards opens shards with ⟨holds, opens⟩
  constructor
  · have held : later.node? (tree.destination directory ++ [Shard.indexFile]) =
        some (.file (Utf8.encode (Value.ofTexts database.index).ascii)) := by
      have outside (name : String) : tree.destination directory ++ [Shard.indexFile] ≠
          tree.destination directory ++ [Shard.directoryName] ++ [name] :=
        fun equal => child_ne_grandchild _ _ _ _ equal.symm
      rw [keeps _ fun shard _ => outside (Shard.fileName shard.key), added]
      exact FileTree.node?_adding_self _ (by simp) _
    rw [FileTree.readText, FileTree.read, FileTree.resolve_extends grows reaches]
    simp only [Except.bind, held, Utf8.decode_encode]
  · apply lookup_of_holdsShards (List.cons_ne_nil threshold []) _ opens
    simpa using holds

end CommandReference
