import CommandReference.Proofs.Shard.Store

namespace CommandReference

/-! One reference written over another one. The shards of the older one stay, unless the
newer one has a shard of the same key. A name is looked up in the shard with the next key,
whichever reference that one belongs to, so it is answered by the newer reference only
where the keys of the older one are not in between. -/

/-! ## Keys of two references -/

/-- Whether the next key from a name on is one of the later shards. -/
def Shard.NextIsLater (earlier later : List Shard) (name : String) : Prop :=
  ∃ shard ∈ later, name ≤ shard.key ∧
    ∀ other ∈ earlier, name ≤ other.key → shard.key ≤ other.key

instance (earlier later : List Shard) (name : String) :
    Decidable (Shard.NextIsLater earlier later name) :=
  inferInstanceAs (Decidable (∃ shard ∈ later, name ≤ shard.key ∧
    ∀ other ∈ earlier, name ≤ other.key → shard.key ≤ other.key))

section
variable {earlier later : List Shard} {keys : List String} {name key : String}
  (mem_keys : ∀ key, key ∈ keys ↔ ∃ shard ∈ earlier ++ later, shard.key = key)
include mem_keys

theorem Shard.not_nextIsLater_of_beyond (missed : Shard.locate? keys name = none) :
    ¬ Shard.NextIsLater earlier later name := by
  rintro ⟨shard, member, notBefore, _⟩
  have present : shard.key ∈ keys :=
    (mem_keys shard.key).mpr ⟨shard, List.mem_append_right _ member, rfl⟩
  exact Shard.locate?_eq_none missed shard.key present notBefore

theorem Shard.nextIsLater_iff_of_located (sorted : keys.Pairwise (· ≤ ·))
    (located : Shard.locate? keys name = some key) :
    Shard.NextIsLater earlier later name ↔ ∃ shard ∈ later, shard.key = key := by
  rcases Shard.locate?_eq_some sorted located with ⟨member, notBefore, least⟩
  have laterKey {shard : Shard} (shardMember : shard ∈ later) : shard.key ∈ keys :=
    (mem_keys shard.key).mpr ⟨shard, List.mem_append_right _ shardMember, rfl⟩
  constructor
  · rintro ⟨shard, shardMember, shardNotBefore, shardLeast⟩
    rcases (mem_keys key).mp member with ⟨other, otherMember, rfl⟩
    rcases List.mem_append.mp otherMember with isEarlier | isLater
    · exact ⟨shard, shardMember, Std.le_antisymm (shardLeast other isEarlier notBefore)
        (least shard.key (laterKey shardMember) shardNotBefore)⟩
    · exact ⟨other, isLater, rfl⟩
  · rintro ⟨shard, shardMember, rfl⟩
    refine ⟨shard, shardMember, notBefore, fun other otherMember otherNotBefore => ?_⟩
    exact least other.key ((mem_keys other.key).mpr
      ⟨other, List.mem_append_left _ otherMember, rfl⟩) otherNotBefore

end

/-- Write a reference, and then a newer one into the same directory. -/
def Database.writeOver (older newer : Database) (directory : Path)
    (olderThreshold newerThreshold : Nat) : FileAction Unit := do
  older.write directory olderThreshold
  newer.write directory newerThreshold

/-! ## Files of the newest shards -/

section
variable {tree later : FileTree} {directory : Path} {place : Place}
  {written newest : List Shard}

/-- The files of some shards hold shards with the same keys that are among the newest. -/
def HoldsNewest (tree : FileTree) (place : Place) (newest shards : List Shard) : Prop :=
  ∀ shard ∈ shards, ∃ held ∈ newest, held.key = shard.key ∧
    tree.node? (place ++ [Shard.directoryName] ++ [Shard.fileName shard.key]) =
      some (.file (Utf8.encode held.toJson.ascii))

theorem HoldsShards.write_newest (holds : HoldsShards tree directory place written)
    {database : Database} {threshold : Nat}
    (ran : (database.write directory threshold).run tree = (.ok (), later)) :
    HoldsNewest later place (database.shards threshold) (database.shards threshold) := by
  rcases FileAction.of_run_bind_eq_ok ran with ⟨_, made, directories, ran⟩
  rcases FileAction.of_run_bind_eq_ok ran with ⟨_, indexed, index, shards⟩
  rcases holds.makeDirectories directories with ⟨holds, opens⟩
  rcases holds.writeIndex opens index with ⟨holds, opens⟩
  intro shard member
  rcases Shard.writeAll_stores opens shards member with ⟨held, heldMember, sameKey, isStored⟩
  exact ⟨held, heldMember, sameKey, sameKey ▸ isStored.held⟩

/-! ## Reading -/

theorem HoldsNewest.readText_fileName (present : HoldsNewest tree place newest newest)
    (holds : HoldsShards tree directory place written) {shard : Shard}
    (isNew : shard ∈ newest) (member : shard ∈ written) :
    ∃ held ∈ newest, held.key = shard.key ∧
      tree.readText ((directory.joinText Shard.directoryName).joinText
        (Shard.fileName shard.key)) = .ok held.toJson.ascii := by
  rcases present shard isNew with ⟨held, heldMember, sameKey, found⟩
  have isStored : held.IsStored tree (directory.joinText Shard.directoryName)
      (place ++ [Shard.directoryName]) :=
    ⟨sameKey ▸ found, sameKey ▸ holds.reached member⟩
  exact ⟨held, heldMember, sameKey, sameKey ▸ isStored.readText⟩

variable {older newer : Database} {olderThreshold newerThreshold : Nat}

theorem lookup_of_holdsNewest
    (holds : HoldsShards tree directory place
      (older.shards olderThreshold ++ newer.shards newerThreshold))
    (present : HoldsNewest tree place (newer.shards newerThreshold)
      (newer.shards newerThreshold))
    (opens : tree.Opens (directory.joinText Shard.directoryName)
      (place ++ [Shard.directoryName])) :
    ∃ reader, ShardReader.ofDirectory tree directory = .ok reader ∧
      ∀ name, reader.lookup tree name = .ok
        (((if Shard.NextIsLater (older.shards olderThreshold)
            (newer.shards newerThreshold) name then newer else older).get? name).map
          Entry.toJson) := by
  rcases holds.ofDirectory opens with ⟨reader, opened, sameDirectory, sorted, mem_keys⟩
  refine ⟨reader, opened, fun name => ?_⟩
  have olderKey {shard : Shard} (member : shard ∈ older.shards olderThreshold) :
      shard.key ∈ reader.keys :=
    (mem_keys shard.key).mpr ⟨shard, List.mem_append_left _ member, rfl⟩
  have newerKey {shard : Shard} (member : shard ∈ newer.shards newerThreshold) :
      shard.key ∈ reader.keys :=
    (mem_keys shard.key).mpr ⟨shard, List.mem_append_right _ member, rfl⟩
  cases located : Shard.locate? reader.keys name with
  | none =>
      rw [if_neg (Shard.not_nextIsLater_of_beyond mem_keys located)]
      exact ShardReader.lookup_of_beyond located fun _ => olderKey
  | some key =>
      rcases Shard.locate?_eq_some sorted located with ⟨member, notBefore, least⟩
      simp only [Shard.nextIsLater_iff_of_located mem_keys sorted located]
      split
      case isTrue isNewer =>
        rcases isNewer with ⟨shard, shardMember, rfl⟩
        rcases present.readText_fileName holds shardMember
          (List.mem_append_right _ shardMember) with ⟨held, heldMember, heldKey, text⟩
        rw [← sameDirectory] at text
        exact ShardReader.lookup_of_located located heldMember heldKey text notBefore
          fun other otherMember => least other.key (newerKey otherMember)
      case isFalse notNewer =>
        rcases (mem_keys key).mp member with ⟨shard, shardMember, rfl⟩
        rcases holds.readText_fileName shardMember with ⟨held, heldMember, heldKey, text⟩
        rw [← sameDirectory] at text
        rcases List.mem_append.mp heldMember with isOlder | isNewer
        · exact ShardReader.lookup_of_located located isOlder heldKey text notBefore
            fun other otherMember => least other.key (olderKey otherMember)
        · exact absurd ⟨held, isNewer, heldKey⟩ notNewer

end

/-! ## Writing over a reference -/

theorem Database.writeOver_holds {older newer : Database} {directory : Path}
    {olderThreshold newerThreshold : Nat} {tree : FileTree}
    (empty : tree.IsEmptyDirectory directory)
    (succeeds : ((older.writeOver newer directory olderThreshold newerThreshold).run
      tree).1 = .ok ()) :
    ∃ place,
      HoldsShards
          (tree.after (older.writeOver newer directory olderThreshold newerThreshold))
          directory place (older.shards olderThreshold ++ newer.shards newerThreshold) ∧
        HoldsNewest
          (tree.after (older.writeOver newer directory olderThreshold newerThreshold))
          place (newer.shards newerThreshold) (newer.shards newerThreshold) ∧
        (tree.after (older.writeOver newer directory olderThreshold newerThreshold)).Opens
          (directory.joinText Shard.directoryName) (place ++ [Shard.directoryName]) := by
  rcases holdsShards_of_isEmptyDirectory empty with ⟨place, holds⟩
  rcases FileAction.of_run_bind_eq_ok (FileAction.run_of_succeeds succeeds) with
    ⟨_, middle, first, second⟩
  rcases holds.write first with ⟨holdsOlder, _⟩
  rcases holdsOlder.write second with ⟨holdsBoth, opens⟩
  exact ⟨place, holdsBoth, holdsOlder.write_newest second, opens⟩

/-- After one reference has been written over another one in an empty directory, every
name is answered without an error: by the newer reference if the next key from the name
on is one of its keys, and by the older one otherwise. -/
theorem ShardReader.lookup_rewritten (older newer : Database) (directory : Path)
    (olderThreshold newerThreshold : Nat) (tree : FileTree)
    (empty : tree.IsEmptyDirectory directory)
    (succeeds : ((older.writeOver newer directory olderThreshold newerThreshold).run
      tree).1 = .ok ()) :
    ∃ reader,
      ShardReader.ofDirectory
        (tree.after (older.writeOver newer directory olderThreshold newerThreshold))
        directory = .ok reader ∧
      ∀ name, reader.lookup
        (tree.after (older.writeOver newer directory olderThreshold newerThreshold)) name =
          .ok (((if Shard.NextIsLater (older.shards olderThreshold)
            (newer.shards newerThreshold) name then newer else older).get? name).map
              Entry.toJson) := by
  rcases Database.writeOver_holds empty succeeds with ⟨place, holds, present, opens⟩
  exact lookup_of_holdsNewest holds present opens

/-! ## A key in between -/

private def newDirectory : FileTree := .atPlace ["out"]

private def documentedBy (arguments : List Argument) : Entry :=
  Entry.empty.push ⟨arguments, none⟩

private def oneName : Database := .ofEntries (.ofList [("b", documentedBy [])])

private def threeNames : Database := .ofEntries (.ofList
  [("a", documentedBy []), ("b", documentedBy [.constant "x"]), ("c", documentedBy [])])

private theorem newDirectory_isEmptyDirectory :
    newDirectory.IsEmptyDirectory (.ofText "/out") :=
  ⟨["out"], by decide, by decide, by decide⟩

private theorem oneName_writeOver_threeNames :
    ((oneName.writeOver threeNames (.ofText "/out") 1000 1000).run newDirectory).1 =
      .ok () := by decide +kernel

theorem ShardReader.lookup_rewritten_key_between :
    newDirectory.IsEmptyDirectory (.ofText "/out") ∧
      ((oneName.writeOver threeNames (.ofText "/out") 1000 1000).run newDirectory).1 =
        .ok () ∧
      ∃ reader,
        ShardReader.ofDirectory
          (newDirectory.after (oneName.writeOver threeNames (.ofText "/out") 1000 1000))
          (.ofText "/out") = .ok reader ∧
        ∀ name, reader.lookup
          (newDirectory.after (oneName.writeOver threeNames (.ofText "/out") 1000 1000))
            name =
          .ok (((if Shard.NextIsLater (oneName.shards 1000) (threeNames.shards 1000) name
            then threeNames else oneName).get? name).map Entry.toJson) :=
  ⟨newDirectory_isEmptyDirectory, oneName_writeOver_threeNames,
    ShardReader.lookup_rewritten oneName threeNames (.ofText "/out") 1000 1000 newDirectory
      newDirectory_isEmptyDirectory oneName_writeOver_threeNames⟩

/-- The newer reference knows `a` and keeps it in the shard with key `c`, but the older
one has a shard with key `b`, which does not hold it. -/
theorem ShardReader.rewriting_loses_record :
    newDirectory.IsEmptyDirectory (.ofText "/out") ∧
      ((oneName.writeOver threeNames (.ofText "/out") 1000 1000).run newDirectory).1 =
        .ok () ∧
      ¬ ∃ reader,
        ShardReader.ofDirectory
          (newDirectory.after (oneName.writeOver threeNames (.ofText "/out") 1000 1000))
          (.ofText "/out") = .ok reader ∧
        ∀ name, reader.lookup
          (newDirectory.after (oneName.writeOver threeNames (.ofText "/out") 1000 1000))
            name = .ok ((threeNames.get? name).map Entry.toJson) := by
  refine ⟨newDirectory_isEmptyDirectory, oneName_writeOver_threeNames, ?_⟩
  rintro ⟨reader, opened, answers⟩
  rcases Database.writeOver_holds newDirectory_isEmptyDirectory oneName_writeOver_threeNames
    with ⟨place, holds, present, opens⟩
  rcases lookup_of_holdsNewest holds present opens with ⟨same, openedAgain, lookups⟩
  cases opened.symm.trans openedAgain
  have notNext : ¬ Shard.NextIsLater (oneName.shards 1000) (threeNames.shards 1000) "a" := by
    decide +kernel
  have answer := Except.ok.inj ((answers "a").symm.trans (lookups "a"))
  rw [if_neg notNext] at answer
  have known : ((threeNames.get? "a").map Entry.toJson).isSome = true := by decide +kernel
  have unknown : ((oneName.get? "a").map Entry.toJson).isSome = false := by decide +kernel
  rw [answer, unknown] at known
  cases known

end CommandReference
