import CommandReference.Proofs.Published
import CommandReference.Proofs.Shard.Cut
import CommandReference.Proofs.Shard.Directory

namespace CommandReference

/-! What is written is what is looked up. References may be written into a directory
several times, with shards of different sizes, and no shard is ever removed. Every
shard file still answers for the whole reference: the keys that one cut has left behind
only make the search stop earlier, and it never stops before a key of the cut that the
file comes from. -/

open Json (Value)

namespace Shard

/-! ## Locating -/

theorem locate?_eq_some {keys : List String} (sorted : keys.Pairwise (· ≤ ·))
    {name key : String} (located : locate? keys name = some key) :
    key ∈ keys ∧ name ≤ key ∧ ∀ other ∈ keys, name ≤ other → key ≤ other := by
  refine ⟨List.mem_of_find?_eq_some located, ?_, ?_⟩
  · have accepted := List.find?_some (p := fun key => decide (name ≤ key)) located
    exact of_decide_eq_true accepted
  · intro other member notBefore
    rcases List.find?_eq_some_iff_append.mp located with ⟨_, before, after, rfl, earlier⟩
    rcases List.mem_append.mp member with early | late
    · have refused := earlier other early
      rw [decide_eq_true notBefore] at refused
      cases refused
    · rcases List.mem_cons.mp late with rfl | late
      · exact Std.le_refl other
      · have ordered := (List.pairwise_append.mp sorted).2.1
        exact (List.pairwise_cons.mp ordered).1 other late

theorem locate?_eq_none {keys : List String} {name : String}
    (missed : locate? keys name = none) : ∀ key ∈ keys, ¬ name ≤ key := by
  intro key member
  have refused := List.find?_eq_none.mp missed key member
  simpa using refused

end Shard

/-! ## Directories of shards -/

section
variable {tree later : FileTree} {directory : Path} {place : Place} {written : List Shard}

/-- What is named like a shard in the directory of shards is a file of the given shards. Of
several shards with one key, the file may hold any. -/
structure HoldsShards (tree : FileTree) (directory : Path) (place : Place)
    (written : List Shard) : Prop where
  opens : tree.Opens directory place
  named {name key : String} {node : Node} (spells : Shard.keyOfFileName? name = some key) :
    tree.node? (place ++ [Shard.directoryName] ++ [name]) = some node →
      ∃ shard ∈ written, name = Shard.fileName shard.key ∧
        node = .file (Utf8.encode shard.toJson.ascii)
  present {shard : Shard} (member : shard ∈ written) :
    (tree.node? (place ++ [Shard.directoryName] ++ [Shard.fileName shard.key])).isSome
  reached {shard : Shard} (member : shard ∈ written) :
    tree.resolve ((directory.joinText Shard.directoryName).joinText
        (Shard.fileName shard.key)) =
      .ok (place ++ [Shard.directoryName] ++ [Shard.fileName shard.key])

theorem child_ne_grandchild (place : Place) (child other inner : String) :
    place ++ [other] ++ [inner] ≠ place ++ [child] := by
  intro equal
  have lengths := congrArg List.length equal
  simp at lengths

namespace HoldsShards

theorem adding_child (holds : HoldsShards tree directory place written) {name : String}
    (free : tree.node? (place ++ [name]) ≠ some .directory) (node : Node) :
    HoldsShards (tree.adding (place ++ [name]) node) directory place written := by
  have grows : tree.Extends (tree.adding (place ++ [name]) node) :=
    .adding (by simp) free node
  refine ⟨holds.opens.extends grows, ?_, ?_, ?_⟩
  · intro inner key innerNode spells found
    rw [tree.node?_adding_ne (child_ne_grandchild place name _ inner)] at found
    exact holds.named spells found
  · intro shard member
    exact grows.present (holds.present member)
  · intro shard member
    exact FileTree.resolve_extends grows (holds.reached member)

theorem makeDirectories (holds : HoldsShards tree directory place written)
    (made : (FileAction.makeDirectories (directory.joinText Shard.directoryName)).run tree =
      (.ok (), later)) :
    HoldsShards later directory place written ∧
      later.Opens (directory.joinText Shard.directoryName) (place ++ [Shard.directoryName]) := by
  rcases FileAction.makeDirectories_child holds.opens Shard.isComponent_directoryName made with
    ⟨opens, same | ⟨free, added⟩⟩
  · exact ⟨same ▸ holds, opens⟩
  · refine ⟨added ▸ holds.adding_child ?_ _, opens⟩
    rw [free]
    exact nofun

theorem writeIndex (holds : HoldsShards tree directory place written)
    (opens : tree.Opens (directory.joinText Shard.directoryName)
      (place ++ [Shard.directoryName])) {text : String}
    (ran : (FileAction.writeText (directory.joinText Shard.indexFile) text).run tree =
      (.ok (), later)) :
    HoldsShards later directory place written ∧
      later.Opens (directory.joinText Shard.directoryName) (place ++ [Shard.directoryName]) := by
  rcases FileAction.writeFile_child holds.opens Shard.isComponent_indexFile ran with
    ⟨free, added, _⟩
  have grows : tree.Extends later := added ▸ .adding (by simp) free _
  exact ⟨added ▸ holds.adding_child free _, opens.extends grows⟩

theorem writeShards (holds : HoldsShards tree directory place written)
    (opens : tree.Opens (directory.joinText Shard.directoryName)
      (place ++ [Shard.directoryName])) {shards : List Shard}
    (ran : (shards.forM fun shard =>
      shard.write (directory.joinText Shard.directoryName)).run tree = (.ok (), later)) :
    HoldsShards later directory place (written ++ shards) ∧
      later.Opens (directory.joinText Shard.directoryName) (place ++ [Shard.directoryName]) := by
  have grows := (Shard.writeAll_keeps opens ran).1
  refine ⟨⟨holds.opens.extends grows, ?_, ?_, ?_⟩, opens.extends grows⟩
  · intro name key node spells found
    rcases Shard.node?_writeAll_cases opens ran name with
      ⟨shard, member, rfl, isStored⟩ | unchanged
    · rw [isStored.held] at found
      exact ⟨shard, List.mem_append_right _ member, rfl, (Option.some.inj found).symm⟩
    · rw [unchanged] at found
      rcases holds.named spells found with ⟨shard, member, isOf⟩
      exact ⟨shard, List.mem_append_left _ member, isOf⟩
  · intro shard member
    rcases List.mem_append.mp member with earlier | isNew
    · exact grows.present (holds.present earlier)
    · rcases Shard.writeAll_stores opens ran isNew with ⟨_, _, sameKey, isStored⟩
      exact sameKey ▸ isStored.present
  · intro shard member
    rcases List.mem_append.mp member with earlier | isNew
    · exact FileTree.resolve_extends grows (holds.reached earlier)
    · rcases Shard.writeAll_stores opens ran isNew with ⟨_, _, sameKey, isStored⟩
      exact sameKey ▸ isStored.reached

theorem write (holds : HoldsShards tree directory place written) {database : Database}
    {threshold : Nat}
    (ran : (database.write directory threshold).run tree = (.ok (), later)) :
    HoldsShards later directory place (written ++ database.shards threshold) ∧
      later.Opens (directory.joinText Shard.directoryName) (place ++ [Shard.directoryName]) := by
  rcases FileAction.of_run_bind_eq_ok ran with ⟨_, made, directories, ran⟩
  rcases FileAction.of_run_bind_eq_ok ran with ⟨_, indexed, index, shards⟩
  rcases holds.makeDirectories directories with ⟨holds, opens⟩
  rcases holds.writeIndex opens index with ⟨holds, opens⟩
  exact holds.writeShards opens shards

theorem writeAll (holds : HoldsShards tree directory place written) {database : Database}
    {thresholds : List Nat}
    (ran : (thresholds.forM (database.write directory)).run tree = (.ok (), later)) :
    HoldsShards later directory place (written ++ thresholds.flatMap database.shards) ∧
      (thresholds ≠ [] → later.Opens (directory.joinText Shard.directoryName)
        (place ++ [Shard.directoryName])) := by
  induction thresholds generalizing tree written with
  | nil =>
      cases ran
      rw [List.flatMap_nil, List.append_nil]
      exact ⟨holds, fun nonempty => absurd rfl nonempty⟩
  | cons threshold thresholds induction =>
      rw [List.forM] at ran
      rcases FileAction.of_run_bind_eq_ok ran with ⟨_, middle, first, others⟩
      rcases holds.write first with ⟨holds, opens⟩
      rcases induction holds others with ⟨holdsAll, opensLater⟩
      rw [List.flatMap_cons, ← List.append_assoc]
      refine ⟨holdsAll, fun _ => ?_⟩
      cases thresholds with
      | nil =>
          cases others
          exact opens
      | cons next thresholds => exact opensLater (List.cons_ne_nil next thresholds)

end HoldsShards

/-! ## Reading -/

namespace HoldsShards

variable (holds : HoldsShards tree directory place written)
  (opens : tree.Opens (directory.joinText Shard.directoryName)
    (place ++ [Shard.directoryName]))
include holds

theorem readText_fileName {shard : Shard} (member : shard ∈ written) :
    ∃ held ∈ written, held.key = shard.key ∧
      tree.readText ((directory.joinText Shard.directoryName).joinText
        (Shard.fileName shard.key)) = .ok held.toJson.ascii := by
  rcases Option.isSome_iff_exists.mp (holds.present member) with ⟨node, found⟩
  rcases holds.named (Shard.keyOfFileName?_fileName shard.key) found with
    ⟨held, heldMember, sameName, rfl⟩
  have sameKey := Shard.fileName_inj.mp sameName
  have isStored : held.IsStored tree (directory.joinText Shard.directoryName)
      (place ++ [Shard.directoryName]) :=
    ⟨sameKey ▸ found, sameKey ▸ holds.reached member⟩
  exact ⟨held, heldMember, sameKey.symm, sameKey ▸ isStored.readText⟩

include opens

theorem ofDirectory :
    ∃ reader, ShardReader.ofDirectory tree directory = .ok reader ∧
      reader.directory = directory.joinText Shard.directoryName ∧
      reader.keys.Pairwise (· ≤ ·) ∧
      ∀ key, key ∈ reader.keys ↔ ∃ shard ∈ written, shard.key = key := by
  rcases Shard.ofDirectory_eq_ok opens with ⟨reader, opened, sameDirectory, sorted, mem_keys⟩
  refine ⟨reader, opened, sameDirectory, sorted, fun key => (mem_keys key).trans ⟨?_, ?_⟩⟩
  · rintro ⟨name, present, spells⟩
    rcases Option.isSome_iff_exists.mp present with ⟨node, found⟩
    rcases holds.named spells found with ⟨shard, member, rfl, _⟩
    rw [Shard.keyOfFileName?_fileName] at spells
    exact ⟨shard, member, Option.some.inj spells⟩
  · rintro ⟨shard, member, rfl⟩
    exact ⟨Shard.fileName shard.key, holds.present member,
      Shard.keyOfFileName?_fileName shard.key⟩

end HoldsShards

theorem readObject_shard {database : Database} {threshold : Nat} {shard : Shard}
    (member : shard ∈ database.shards threshold) :
    ∃ map, Json.readObject shard.toJson.ascii = .ok map ∧ map.entries = shard.records := by
  let map : SortedMap String Value := ⟨shard.records, Database.shards_sorted member⟩
  have object : shard.toJson = .ofMap map := rfl
  refine ⟨map, ?_, rfl⟩
  rw [object]
  apply Json.readObject_ascii
  intro record recordMember
  have published : record ∈ database.records.entries :=
    Database.mem_records_iff.mpr ⟨shard, member, recordMember⟩
  exact (database.records_readable record published).mono (by decide)

namespace ShardReader

variable {reader : ShardReader} {database : Database} {threshold : Nat} {name key : String}

theorem lookup_of_located (located : Shard.locate? reader.keys name = some key)
    {held : Shard} (member : held ∈ database.shards threshold) (sameKey : held.key = key)
    (text : tree.readText (reader.directory.joinText (Shard.fileName key)) =
      .ok held.toJson.ascii)
    (notBefore : name ≤ key)
    (least : ∀ other ∈ database.shards threshold, name ≤ other.key → key ≤ other.key) :
    reader.lookup tree name = .ok ((database.get? name).map Entry.toJson) := by
  rcases readObject_shard member with ⟨map, read, entries⟩
  have answers : SortedMap.find? name held.records = database.records.get? name :=
    Database.find?_of_located member (sameKey ▸ notBefore) fun other otherMember beyond =>
      sameKey ▸ least other otherMember beyond
  rw [lookup, located, ← database.get?_records, ← answers, ← entries]
  simp only [text, read, Except.mapError, bind, Except.bind]
  rfl

theorem lookup_of_beyond (missed : Shard.locate? reader.keys name = none)
    (present : ∀ shard ∈ database.shards threshold, shard.key ∈ reader.keys) :
    reader.lookup tree name = .ok ((database.get? name).map Entry.toJson) := by
  have beyond := Shard.locate?_eq_none missed
  rw [lookup, missed, ← database.get?_records]
  cases found : database.records.get? name with
  | none => rfl
  | some value =>
      have record := (SortedMap.get?_eq_some_iff _ name value).mp found
      rcases Database.mem_records_iff.mp record with ⟨shard, member, held⟩
      exact absurd (Database.name_le_key member held)
        (beyond shard.key (present shard member))

end ShardReader

/-- A reader of the shards of one reference, cut in several ways, answers for the
reference. -/
theorem lookup_of_holdsShards {database : Database} {thresholds : List Nat}
    (nonempty : thresholds ≠ [])
    (holds : HoldsShards tree directory place (thresholds.flatMap database.shards))
    (opens : tree.Opens (directory.joinText Shard.directoryName)
      (place ++ [Shard.directoryName])) :
    ∃ reader, ShardReader.ofDirectory tree directory = .ok reader ∧
      ∀ name, reader.lookup tree name = .ok ((database.get? name).map Entry.toJson) := by
  rcases holds.ofDirectory opens with ⟨reader, opened, sameDirectory, sorted, mem_keys⟩
  refine ⟨reader, opened, fun name => ?_⟩
  have key_mem : ∀ threshold ∈ thresholds, ∀ shard ∈ database.shards threshold,
      shard.key ∈ reader.keys := by
    intro threshold thresholdMember shard member
    exact (mem_keys shard.key).mpr
      ⟨shard, List.mem_flatMap.mpr ⟨threshold, thresholdMember, member⟩, rfl⟩
  cases located : Shard.locate? reader.keys name with
  | none =>
      rcases List.exists_mem_of_ne_nil thresholds nonempty with ⟨threshold, thresholdMember⟩
      exact ShardReader.lookup_of_beyond located (key_mem threshold thresholdMember)
  | some key =>
      rcases Shard.locate?_eq_some sorted located with ⟨member, notBefore, least⟩
      rcases (mem_keys key).mp member with ⟨shard, written, rfl⟩
      rcases holds.readText_fileName written with ⟨held, heldWritten, sameKey, text⟩
      rcases List.mem_flatMap.mp heldWritten with ⟨threshold, thresholdMember, heldMember⟩
      rw [← sameDirectory] at text
      -- The keys of the cut that the file comes from are among those that are searched.
      exact ShardReader.lookup_of_located located heldMember sameKey text notBefore
        fun other otherMember => least other.key (key_mem threshold thresholdMember other
          otherMember)

end

/-! ## Writing and reading -/

/-- There is a directory at a path, and nothing in it. -/
def FileTree.IsEmptyDirectory (tree : FileTree) (path : Path) : Prop :=
  ∃ place, tree.resolve path = .ok place ∧ tree.node? place = some .directory ∧
    ∀ inner ∈ tree.nodes.keys, place <+: inner → inner = place

theorem holdsShards_of_isEmptyDirectory {tree : FileTree} {directory : Path}
    (empty : tree.IsEmptyDirectory directory) :
    ∃ place, HoldsShards tree directory place [] := by
  rcases empty with ⟨place, resolved, held, nothing⟩
  refine ⟨place, ⟨resolved, held⟩, ?_, nofun, nofun⟩
  intro name key node spells found
  have member : place ++ [Shard.directoryName] ++ [name] ∈ tree.nodes.keys :=
    (FileTree.mem_keys_iff (by simp)).mpr (found ▸ rfl)
  have same := nothing _ member ((List.prefix_append _ _).trans (List.prefix_append _ _))
  have lengths := congrArg List.length same
  simp at lengths

/-- After a reference has been written into an empty directory, once or several times
with shards of any sizes, every name is answered as by the reference itself. -/
theorem ShardReader.lookup_written (database : Database) (directory : Path)
    (thresholds : List Nat) (nonempty : thresholds ≠ []) (tree : FileTree)
    (empty : tree.IsEmptyDirectory directory)
    (succeeds : ((thresholds.forM (database.write directory)).run tree).1 = .ok ()) :
    ∃ reader,
      ShardReader.ofDirectory (tree.after (thresholds.forM (database.write directory)))
        directory = .ok reader ∧
      ∀ name, reader.lookup (tree.after (thresholds.forM (database.write directory))) name =
        .ok ((database.get? name).map Entry.toJson) := by
  rcases holdsShards_of_isEmptyDirectory empty with ⟨place, holds⟩
  have ran : (thresholds.forM (database.write directory)).run tree =
      (.ok (), tree.after (thresholds.forM (database.write directory))) :=
    Prod.ext succeeds rfl
  rcases holds.writeAll ran with ⟨holdsAll, opens⟩
  rw [List.nil_append] at holdsAll
  exact lookup_of_holdsShards nonempty holdsAll (opens nonempty)

private def emptyOut : FileTree := .atPlace ["out"]

private def twoNames : Database := .ofEntries (.ofList [("..", .empty), ("a/\xe9", .empty)])

theorem ShardReader.lookup_written_twice :
    ∃ reader,
      ShardReader.ofDirectory
        (emptyOut.after ([1000, 0].forM (twoNames.write (.ofText "/out"))))
        (.ofText "/out") = .ok reader ∧
      ∀ name, reader.lookup
        (emptyOut.after ([1000, 0].forM (twoNames.write (.ofText "/out")))) name =
          .ok ((twoNames.get? name).map Entry.toJson) := by
  have empty : emptyOut.IsEmptyDirectory (.ofText "/out") :=
    ⟨["out"], by decide, by decide, by decide⟩
  exact ShardReader.lookup_written twoNames (.ofText "/out") [1000, 0]
    (List.cons_ne_nil 1000 [0]) emptyOut empty (by decide +kernel)

end CommandReference
