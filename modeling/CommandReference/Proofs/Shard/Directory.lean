import CommandReference.Proofs.FileTree.Action
import CommandReference.Proofs.Shard.FileName
import CommandReference.Proofs.Text.Order
import CommandReference.Shard.Store
import Mathlib.Data.List.Nodup

namespace CommandReference

/-! Files in the directory of shards. A key and the name of its file determine each other,
and the name leads into the directory and no further. So each key has a file of its own:
shards that are written change their files and nothing else, whether or not all of them can
be written, and a reader finds the keys of the files that are there. -/

namespace Shard

/-! ## Names -/

theorem isComponent_directoryName : FileTree.IsComponent directoryName :=
  ⟨⟨by decide, by decide⟩, by decide⟩

theorem isComponent_indexFile : FileTree.IsComponent indexFile :=
  ⟨⟨by decide, by decide⟩, by decide⟩

theorem fileName_ne (key : String) {other : String} (short : other.toList.length < 5) :
    fileName key ≠ other := by
  intro equal
  rw [← equal, fileName, String.toList_append, List.length_append] at short
  have ending : fileEnding.toList.length = 5 := rfl
  omega

theorem isComponent_fileName (key : String) : FileTree.IsComponent (fileName key) := by
  constructor
  · rw [FileTree.isName_iff]
    exact ⟨fileName_ne key (by decide), fileName_ne key (by decide),
      fileName_ne key (by decide)⟩
  · intro slash
    exact absurd (isPlain_of_mem_fileName slash) (by decide)

theorem fileName_inj {key other : String} : fileName key = fileName other ↔ key = other :=
  ⟨fileName_injective, congrArg fileName⟩

theorem child_inj {place : Place} {name other : String} :
    place ++ [name] = place ++ [other] ↔ name = other := by simp

/-! ## Writing -/

variable {tree later : FileTree} {directory : Path} {place : Place} {shard : Shard}
  {shards : List Shard} {outcome : Except FileError Unit}

/-- The file of a shard's key holds the shard, and its path leads there. -/
structure IsStored (shard : Shard) (tree : FileTree) (directory : Path) (place : Place) :
    Prop where
  held : tree.node? (place ++ [fileName shard.key]) =
    some (.file (Utf8.encode shard.toJson.ascii))
  reached : tree.resolve (directory.joinText (fileName shard.key)) =
    .ok (place ++ [fileName shard.key])

theorem IsStored.present (stored : shard.IsStored tree directory place) :
    (tree.node? (place ++ [fileName shard.key])).isSome := by
  rw [stored.held]
  rfl

theorem IsStored.readText (stored : shard.IsStored tree directory place) :
    tree.readText (directory.joinText (fileName shard.key)) = .ok shard.toJson.ascii := by
  rw [FileTree.readText, FileTree.read, stored.reached]
  simp only [Except.bind, stored.held, Utf8.decode_encode]

theorem IsStored.extends (stored : shard.IsStored tree directory place)
    (grows : tree.Extends later)
    (unchanged : later.node? (place ++ [fileName shard.key]) =
      tree.node? (place ++ [fileName shard.key])) :
    shard.IsStored later directory place :=
  ⟨unchanged.trans stored.held, FileTree.resolve_extends grows stored.reached⟩

/-- Writing a shard puts it into the file of its key, or does nothing at all. -/
theorem write_effect (opens : tree.Opens directory place)
    (ran : (shard.write directory).run tree = (outcome, later)) :
    match outcome with
    | .ok () => tree.Extends later ∧ shard.IsStored later directory place ∧
        ∀ other, other ≠ place ++ [fileName shard.key] → later.node? other = tree.node? other
    | .error _ => later = tree := by
  cases outcome with
  | error reason => exact FileAction.of_writeFile_eq_error ran
  | ok =>
      rcases FileAction.writeFile_child opens (isComponent_fileName shard.key) ran with
        ⟨free, rfl, reached⟩
      have nonempty : place ++ [fileName shard.key] ≠ [] := by simp
      exact ⟨.adding nonempty free _, ⟨tree.node?_adding_self nonempty _, reached⟩,
        fun other different => tree.node?_adding_ne different _⟩

theorem writeAll_keeps (opens : tree.Opens directory place)
    (ran : (shards.forM fun shard => shard.write directory).run tree = (outcome, later)) :
    tree.Extends later ∧
      ∀ other, (∀ shard ∈ shards, other ≠ place ++ [fileName shard.key]) →
        later.node? other = tree.node? other := by
  induction shards generalizing tree with
  | nil =>
      cases ran
      exact ⟨.refl _, fun _ _ => rfl⟩
  | cons shard shards induction =>
      rw [List.forM] at ran
      rcases FileAction.run_bind_cases ran with
        ⟨_, middle, first, others⟩ | ⟨reason, failed, _⟩
      · rcases write_effect opens first with ⟨grows, _, keeps⟩
        rcases induction (opens.extends grows) others with ⟨growsOn, keepsOn⟩
        refine ⟨grows.trans growsOn, fun other outside => ?_⟩
        have apart := List.forall_mem_cons.mp outside
        rw [keepsOn other apart.2, keeps other apart.1]
      · -- The first shard that cannot be written ends the run and leaves no trace.
        have unchanged : later = tree := write_effect opens failed
        subst unchanged
        exact ⟨.refl _, fun _ _ => rfl⟩

theorem writeAll_stores (opens : tree.Opens directory place)
    (ran : (shards.forM fun shard => shard.write directory).run tree = (.ok (), later))
    (member : shard ∈ shards) :
    ∃ stored ∈ shards, stored.key = shard.key ∧ stored.IsStored later directory place := by
  induction shards generalizing tree shard with
  | nil => cases member
  | cons first shards induction =>
      rw [List.forM] at ran
      rcases FileAction.of_run_bind_eq_ok ran with ⟨_, middle, own, others⟩
      rcases write_effect opens own with ⟨grows, firstStored, _⟩
      have opens := opens.extends grows
      -- A later shard with the same key takes the place of the first one.
      by_cases again : ∃ other ∈ shards, other.key = shard.key
      · rcases again with ⟨other, otherMember, sameKey⟩
        rcases induction opens others otherMember with ⟨stored, storedMember, key, isStored⟩
        exact ⟨stored, List.mem_cons_of_mem first storedMember, key.trans sameKey, isStored⟩
      · rcases List.mem_cons.mp member with rfl | isLater
        · rcases writeAll_keeps opens others with ⟨growsOn, keepsOn⟩
          refine ⟨shard, List.mem_cons_self, rfl, firstStored.extends growsOn ?_⟩
          apply keepsOn
          intro other otherMember same
          exact again ⟨other, otherMember, (fileName_inj.mp (child_inj.mp same)).symm⟩
        · exact absurd ⟨shard, isLater, rfl⟩ again

theorem node?_writeAll_cases (opens : tree.Opens directory place)
    (ran : (shards.forM fun shard => shard.write directory).run tree = (.ok (), later))
    (name : String) :
    (∃ shard ∈ shards, fileName shard.key = name ∧ shard.IsStored later directory place) ∨
      later.node? (place ++ [name]) = tree.node? (place ++ [name]) := by
  by_cases written : ∃ shard ∈ shards, fileName shard.key = name
  · rcases written with ⟨shard, member, rfl⟩
    rcases writeAll_stores opens ran member with ⟨stored, storedMember, sameKey, isStored⟩
    exact .inl ⟨stored, storedMember, congrArg fileName sameKey, isStored⟩
  · right
    apply (writeAll_keeps opens ran).2
    intro shard member same
    exact written ⟨shard, member, (child_inj.mp same).symm⟩

/-! ## Reading -/

theorem ofDirectory_eq_ok (opens : tree.Opens (directory.joinText directoryName) place) :
    ∃ reader, ShardReader.ofDirectory tree directory = .ok reader ∧
      reader.directory = directory.joinText directoryName ∧
      reader.keys.Pairwise (· ≤ ·) ∧
      ∀ key, key ∈ reader.keys ↔
        ∃ name, (tree.node? (place ++ [name])).isSome ∧ keyOfFileName? name = some key := by
  rcases opens.list_eq_ok with ⟨names, listed, mem_names⟩
  rw [ShardReader.ofDirectory, listed]
  refine ⟨_, rfl, rfl, pairwise_mergeSort_text (fun key => key) _, fun key => ?_⟩
  simp only [List.mem_mergeSort, List.mem_filterMap, mem_names]

theorem isSome_writeAll_iff (opens : tree.Opens directory place)
    (ran : (shards.forM fun shard => shard.write directory).run tree = (.ok (), later))
    (name : String) :
    (later.node? (place ++ [name])).isSome ↔
      (tree.node? (place ++ [name])).isSome ∨ ∃ shard ∈ shards, fileName shard.key = name := by
  constructor
  · intro present
    rcases node?_writeAll_cases opens ran name with ⟨shard, member, named, _⟩ | unchanged
    · exact .inr ⟨shard, member, named⟩
    · exact .inl (unchanged ▸ present)
  · rintro (present | ⟨shard, member, rfl⟩)
    · exact (writeAll_keeps opens ran).1.present present
    · rcases writeAll_stores opens ran member with ⟨stored, _, sameKey, isStored⟩
      exact sameKey ▸ isStored.present

theorem mem_keys_writeAll (opens : tree.Opens (directory.joinText directoryName) place)
    (ran : (shards.forM fun shard => shard.write (directory.joinText directoryName)).run tree =
      (.ok (), later)) :
    ∃ before after, ShardReader.ofDirectory tree directory = .ok before ∧
      ShardReader.ofDirectory later directory = .ok after ∧
      ∀ key, key ∈ after.keys ↔ key ∈ before.keys ∨ ∃ shard ∈ shards, shard.key = key := by
  rcases ofDirectory_eq_ok opens with ⟨before, openedBefore, _, _, mem_before⟩
  rcases ofDirectory_eq_ok (opens.extends (writeAll_keeps opens ran).1) with
    ⟨after, openedAfter, _, _, mem_after⟩
  refine ⟨before, after, openedBefore, openedAfter, fun key => ?_⟩
  rw [mem_after, mem_before]
  constructor
  · rintro ⟨name, present, spells⟩
    rcases (isSome_writeAll_iff opens ran name).mp present with present | ⟨shard, member, rfl⟩
    · exact .inl ⟨name, present, spells⟩
    · rw [keyOfFileName?_fileName] at spells
      exact .inr ⟨shard, member, Option.some.inj spells⟩
  · rintro (⟨name, present, spells⟩ | ⟨shard, member, rfl⟩)
    · exact ⟨name, (isSome_writeAll_iff opens ran name).mpr (.inl present), spells⟩
    · exact ⟨fileName shard.key,
        (isSome_writeAll_iff opens ran _).mpr (.inr ⟨shard, member, rfl⟩),
        keyOfFileName?_fileName shard.key⟩

theorem readText_writeAll (opens : tree.Opens directory place)
    (ran : (shards.forM fun shard => shard.write directory).run tree = (.ok (), later))
    (distinct : (shards.map key).Nodup) (member : shard ∈ shards) :
    later.readText (directory.joinText (fileName shard.key)) = .ok shard.toJson.ascii := by
  rcases writeAll_stores opens ran member with ⟨stored, storedMember, sameKey, isStored⟩
  have same : stored = shard := List.inj_on_of_nodup_map distinct storedMember member sameKey
  exact same ▸ isStored.readText

/-! ## Keys and files -/

/-- Every text is the key of a file of its own. The name of the file is one component of a
path, of letters, digits and a few marks, from which the key is read back, so that two keys
never share a name; and in any directory it leads to something directly in it. Shards that
are written into a directory therefore change the files of their keys and nothing else, even
if not all of them can be written. Once they have been, shards with different keys are all
there, and a reader finds their keys besides those that it would have found before. -/
theorem keys_have_own_files :
    (∀ key : String,
      ((Path.ofText (fileName key)).components = [fileName key] ∧
        fileName key ≠ "." ∧ fileName key ≠ "..") ∧
      (∀ character ∈ (fileName key).toList,
        character.isAlphanum = true ∨ character ∈ ['-', '_', '.', '~', '%']) ∧
      keyOfFileName? (fileName key) = some key ∧
      (∀ other, fileName other = fileName key → other = key) ∧
      ∀ directory : Path,
        (directory.joinText (fileName key)).components =
          directory.components ++ [fileName key] ∧
        (directory.joinText (fileName key)).location =
          directory.location ++ [fileName key]) ∧
    ∀ (tree later : FileTree) (directory : Path) (place : Place) (shards : List Shard)
      (outcome : Except FileError Unit),
      tree.Opens (directory.joinText directoryName) place →
      (shards.forM fun shard => shard.write (directory.joinText directoryName)).run tree =
        (outcome, later) →
      (∀ other, (∀ shard ∈ shards, other ≠ place ++ [fileName shard.key]) →
        later.node? other = tree.node? other) ∧
      (outcome = .ok () →
        ((shards.map key).Nodup → ∀ shard ∈ shards,
          later.readText ((directory.joinText directoryName).joinText (fileName shard.key)) =
            .ok shard.toJson.ascii) ∧
        ∃ before after, ShardReader.ofDirectory tree directory = .ok before ∧
          ShardReader.ofDirectory later directory = .ok after ∧
          ∀ key, key ∈ after.keys ↔ key ∈ before.keys ∨ ∃ shard ∈ shards, shard.key = key) := by
  constructor
  · intro key
    have component := isComponent_fileName key
    rcases FileTree.isName_iff.mp component.isName with ⟨_, notDot, notParent⟩
    refine ⟨⟨component.components_ofText, notDot, notParent⟩, ?_, keyOfFileName?_fileName key,
      fun other => fileName_injective, fun directory => ?_⟩
    · intro character member
      have plain := isPlain_of_mem_fileName member
      rwa [PercentEncoding.isPlain, Bool.or_eq_true, List.contains_iff_mem] at plain
    · exact ⟨component.components_joinText directory, component.location_joinText directory⟩
  · intro tree later directory place shards outcome opens ran
    refine ⟨(writeAll_keeps opens ran).2, ?_⟩
    rintro rfl
    constructor
    · intro distinct shard member
      exact readText_writeAll opens ran distinct member
    · exact mem_keys_writeAll opens ran

private def usedDirectory : FileTree :=
  ((FileTree.atPlace ["out", "shards"]).adding ["out", "index.json"] (.file [])).adding
    ["out", "shards", "a.json"] (.file [])

private def shardDirectory : Path := (Path.ofText "/out").joinText directoryName

private def awkwardShards : List Shard :=
  [⟨"..", []⟩, ⟨"../index", [("../index", .null)]⟩, ⟨"%2E\xe9\x00", []⟩]

private def writeAwkward : FileAction Unit :=
  awkwardShards.forM fun shard => shard.write shardDirectory

theorem keys_have_own_files_like_paths :
    usedDirectory.Opens shardDirectory ["out", "shards"] ∧
      writeAwkward.run usedDirectory = (.ok (), usedDirectory.after writeAwkward) ∧
      (awkwardShards.map key).Nodup ∧
      awkwardShards.map (fileName ·.key) =
        ["...json", "..%2Findex.json", "%252E%C3%A9%00.json"] ∧
      (usedDirectory.after writeAwkward).node? ["out", "index.json"] =
        usedDirectory.node? ["out", "index.json"] ∧
      (∀ shard ∈ awkwardShards,
        (usedDirectory.after writeAwkward).readText
          (shardDirectory.joinText (fileName shard.key)) = .ok shard.toJson.ascii) ∧
      ∃ before after,
        ShardReader.ofDirectory usedDirectory (.ofText "/out") = .ok before ∧
        ShardReader.ofDirectory (usedDirectory.after writeAwkward) (.ofText "/out") =
          .ok after ∧
        ∀ key, key ∈ after.keys ↔
          key ∈ before.keys ∨ ∃ shard ∈ awkwardShards, shard.key = key := by
  have opens : usedDirectory.Opens shardDirectory ["out", "shards"] :=
    ⟨by decide +kernel, by decide +kernel⟩
  have ran : writeAwkward.run usedDirectory = (.ok (), usedDirectory.after writeAwkward) :=
    FileAction.run_of_succeeds (by decide +kernel)
  have distinct : (awkwardShards.map key).Nodup := by decide
  rcases keys_have_own_files.2 usedDirectory (usedDirectory.after writeAwkward)
    (.ofText "/out") ["out", "shards"] awkwardShards (.ok ()) opens ran with ⟨keeps, stores⟩
  rcases stores rfl with ⟨texts, keys⟩
  exact ⟨opens, ran, distinct, by decide +kernel, keeps _ (by decide +kernel), texts distinct,
    keys⟩

end Shard

end CommandReference
