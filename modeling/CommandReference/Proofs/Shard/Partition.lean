import CommandReference.Proofs.Shard.Store
import Mathlib.Algebra.GroupWithZero.Nat

namespace CommandReference

/-! Where shards are cut. The records of a reference are cut behind the first ones that
reach the threshold together, and so on with the others: every shard but the last one
reaches the threshold, and none does without its last record. The keys are then the
bounds between which a name may be, and a search among them leads to the only shard whose
bounds a name is in. -/

open Json (Value)

namespace Shard

variable {threshold size : Nat} {reversed records front back : List (String × Value)}
  {shard : Shard}

/-! ## Sizes -/

def runSize (records : List (String × Value)) : Nat :=
  (records.map fun record => recordSize record.1 record.2).sum

theorem runSize_append (first second : List (String × Value)) :
    runSize (first ++ second) = runSize first + runSize second := by
  rw [runSize, List.map_append, List.sum_append]
  rfl

/-- Records that wait for a shard to be completed: they do not reach the threshold. -/
structure IsPending (threshold : Nat) (reversed : List (String × Value)) (size : Nat) :
    Prop where
  size_eq : size = runSize reversed.reverse
  below : reversed ≠ [] → size < threshold

theorem IsPending.nil (threshold : Nat) : IsPending threshold [] 0 := ⟨rfl, absurd rfl⟩

theorem IsPending.runSize_reverse_cons (pending : IsPending threshold reversed size)
    (record : String × Value) :
    runSize (record :: reversed).reverse = size + recordSize record.1 record.2 := by
  rw [List.reverse_cons, runSize_append, ← pending.size_eq]
  rfl

theorem IsPending.cons (pending : IsPending threshold reversed size)
    {record : String × Value} (below : ¬ threshold ≤ size + recordSize record.1 record.2) :
    IsPending threshold (record :: reversed) (size + recordSize record.1 record.2) where
  size_eq := (pending.runSize_reverse_cons record).symm
  below := fun _ => Nat.lt_of_not_le below

theorem IsPending.front_lt (pending : IsPending threshold reversed size)
    (split : reversed.reverse = front ++ back) (something : front ≠ []) :
    runSize front < threshold := by
  have waiting : reversed ≠ [] := by
    rintro rfl
    exact something (List.append_eq_nil_iff.mp split.symm).1
  calc runSize front
      ≤ runSize front + runSize back := Nat.le_add_right _ _
    _ = size := by rw [pending.size_eq, split, runSize_append]
    _ < threshold := pending.below waiting

/-! ## Cuts -/

theorem front_lt_of_mem_cut (pending : IsPending threshold reversed size)
    (member : shard ∈ cut threshold reversed size records)
    (split : shard.records = front ++ back) (something : front ≠ []) (more : back ≠ []) :
    runSize front < threshold := by
  induction records generalizing reversed size with
  | nil =>
      cases reversed with
      | nil => cases member
      | cons last others =>
          rw [List.mem_singleton.mp member] at split
          exact pending.front_lt split something
  | cons record rest induction =>
      rw [cut] at member
      split at member
      case isTrue =>
        rcases List.mem_cons.mp member with rfl | later
        · rcases (List.eq_nil_or_concat back).resolve_left more with ⟨others, last, rfl⟩
          rw [List.concat_eq_append] at split
          rw [List.reverse_cons, ← List.append_assoc] at split
          exact pending.front_lt (List.append_inj_left' split rfl) something
        · exact induction (.nil threshold) later
      case isFalse below => exact induction (pending.cons below) member

theorem le_runSize_of_mem_cut (pending : IsPending threshold reversed size)
    (member : shard ∈ (cut threshold reversed size records).dropLast) :
    threshold ≤ runSize shard.records := by
  induction records generalizing reversed size with
  | nil =>
      cases reversed with
      | nil => cases member
      | cons last others => cases member
  | cons record rest induction =>
      rw [cut] at member
      split at member
      case isTrue reached =>
        cases further : cut threshold [] 0 rest with
        | nil =>
            rw [further] at member
            cases member
        | cons next others =>
            rw [further, List.dropLast_cons_cons, ← further] at member
            rcases List.mem_cons.mp member with rfl | later
            · rw [pending.runSize_reverse_cons record]
              exact reached
            · exact induction (.nil threshold) later
      case isFalse below => exact induction (pending.cons below) member

/-! ## Searching -/

theorem locate?_eq_getElem? {keys : List String} (sorted : keys.Pairwise (· ≤ ·))
    (name : String) : locate? keys name = keys[keys.countP (· < name)]? := by
  induction keys with
  | nil => rfl
  | cons key rest induction =>
      rcases List.pairwise_cons.mp sorted with ⟨above, restSorted⟩
      by_cases below : key < name
      · have notAtMost : ¬ decide (name ≤ key) = true := by
          rw [decide_eq_true_eq]
          exact Std.not_le.mpr below
        rw [locate?, List.find?_cons_of_neg (by exact notAtMost),
          List.countP_cons_of_pos (by exact decide_eq_true below), List.getElem?_cons_succ]
        exact induction restSorted
      · have atMost : name ≤ key := Std.not_lt.mp below
        have notBelow : ∀ other ∈ key :: rest, ¬ decide (other < name) = true := by
          intro other member
          rw [decide_eq_true_eq]
          rcases List.mem_cons.mp member with rfl | later
          · exact below
          · exact fun otherBelow => below (Std.lt_of_le_of_lt (above other later) otherBelow)
        rw [locate?, List.find?_cons_of_pos (by exact decide_eq_true atMost),
          List.countP_eq_zero.mpr notBelow]
        rfl

end Shard

namespace Database

variable {database : Database} {threshold : Nat} {shard other : Shard} {name key : String}

def shardKeys (database : Database) (threshold : Nat) : List String :=
  (database.shards threshold).map Shard.key

theorem shardKeys_sorted (database : Database) (threshold : Nat) :
    (database.shardKeys threshold).Pairwise (· < ·) := by
  refine List.pairwise_map.mpr ((shards_before database threshold).imp_of_mem ?_)
  intro earlier later earlierMember laterMember before
  rcases exists_key_record earlierMember with ⟨first, firstRecord⟩
  rcases exists_key_record laterMember with ⟨second, secondRecord⟩
  exact before _ firstRecord _ secondRecord

theorem mem_names_iff (database : Database) (threshold : Nat) (name : String) :
    name ∈ database.names ↔
      ∃ shard ∈ database.shards threshold, ∃ value, (name, value) ∈ shard.records := by
  have named : name ∈ database.names ↔ ∃ value, (name, value) ∈ database.records.entries := by
    rw [names, ← SortedMap.keys_mapValues fun _ entry => Entry.toJson entry, SortedMap.keys,
      List.mem_map, Prod.exists]
    simp only [exists_and_right, exists_eq_right]
    rfl
  simp only [named, @mem_records_iff database threshold]
  constructor
  · rintro ⟨value, shard, member, record⟩
    exact ⟨shard, member, value, record⟩
  · rintro ⟨shard, member, value, record⟩
    exact ⟨value, shard, member, record⟩

theorem locate?_shards_eq_none_iff (database : Database) (threshold : Nat) (name : String) :
    Shard.locate? (database.shardKeys threshold) name = none ↔
      ∀ other ∈ database.names, other < name := by
  rw [Shard.locate?, shardKeys, List.find?_eq_none]
  constructor
  · intro missed other present
    rcases (mem_names_iff database threshold other).mp present with
      ⟨shard, member, value, record⟩
    have below := missed shard.key (List.mem_map_of_mem member)
    rw [decide_eq_true_eq] at below
    exact Std.lt_of_le_of_lt (name_le_key member record) (Std.not_le.mp below)
  · intro beyond key located
    rcases List.mem_map.mp located with ⟨shard, member, rfl⟩
    rcases exists_key_record member with ⟨value, record⟩
    rw [decide_eq_true_eq]
    have present : shard.key ∈ database.names :=
      (mem_names_iff database threshold shard.key).mpr ⟨shard, member, value, record⟩
    exact Std.not_le.mpr (beyond shard.key present)

theorem beside_of_located
    (located : Shard.locate? (database.shardKeys threshold) name = some shard.key)
    (member : shard ∈ database.shards threshold)
    (otherMember : other ∈ database.shards threshold) (different : other ≠ shard) :
    (∀ record ∈ other.records, record.1 < name) ∨ ∀ record ∈ other.records, name < record.1 := by
  have ordered := (shardKeys_sorted database threshold).imp Std.le_of_lt
  rcases Shard.locate?_eq_some ordered located with ⟨_, notBefore, least⟩
  rcases exists_key_record member with ⟨value, keyRecord⟩
  rcases (eq_or_before member otherMember).resolve_left different with before | after
  · refine .inr fun record held => ?_
    exact Std.lt_of_le_of_lt notBefore (before _ keyRecord record held)
  · refine .inl fun record held => ?_
    rcases exists_key_record otherMember with ⟨otherValue, otherRecord⟩
    have keysBefore : other.key < shard.key := after _ otherRecord _ keyRecord
    have otherBelow : ¬ name ≤ other.key := fun atMost =>
      Std.not_le.mpr keysBefore (least other.key (List.mem_map_of_mem otherMember) atMost)
    exact Std.lt_of_le_of_lt (name_le_key otherMember held) (Std.not_le.mp otherBelow)

theorem exists_record_of_located
    (located : Shard.locate? (database.shardKeys threshold) name = some shard.key)
    (member : shard ∈ database.shards threshold) (present : name ∈ database.names) :
    ∃ value, (name, value) ∈ shard.records := by
  rcases (mem_names_iff database threshold name).mp present with
    ⟨holder, holderMember, value, record⟩
  by_cases same : holder = shard
  · exact ⟨value, same ▸ record⟩
  · rcases beside_of_located located member holderMember same with below | beyond
    · exact absurd (below _ record) Std.lt_irrefl
    · exact absurd (beyond _ record) Std.lt_irrefl

/-- Shards are the records of a reference in their order, cut where the threshold is first
reached. Keys are the last names of their shards and increase, and a search among them finds
the only shard that a name can belong to, or none exactly if all names are below it. -/
theorem shards_partition (database : Database) (threshold : Nat) :
    (database.shards threshold).flatMap Shard.records =
        database.entries.entries.map (fun entry => (entry.1, entry.2.toJson)) ∧
      ((database.shards threshold).flatMap Shard.records).Pairwise (·.1 < ·.1) ∧
      (∀ shard ∈ database.shards threshold,
        (∃ value, (shard.key, value) ∈ shard.records) ∧
          (∀ record ∈ shard.records, record.1 ≤ shard.key) ∧
          ∀ front back, shard.records = front ++ back → front ≠ [] → back ≠ [] →
            Shard.runSize front < threshold) ∧
      (∀ shard ∈ (database.shards threshold).dropLast,
        threshold ≤ Shard.runSize shard.records) ∧
      (database.shardKeys threshold).Pairwise (· < ·) ∧
      ∀ name,
        Shard.locate? (database.shardKeys threshold) name =
            (database.shardKeys threshold)[
              (database.shardKeys threshold).countP (· < name)]? ∧
          (Shard.locate? (database.shardKeys threshold) name = none ↔
            ∀ other ∈ database.names, other < name) ∧
          ∀ key, Shard.locate? (database.shardKeys threshold) name = some key →
            ∃ shard ∈ database.shards threshold, shard.key = key ∧ name ≤ key ∧
              (name ∈ database.names → ∃ value, (name, value) ∈ shard.records) ∧
              ∀ other ∈ database.shards threshold, other ≠ shard →
                (∀ record ∈ other.records, record.1 < name) ∨
                  ∀ record ∈ other.records, name < record.1 := by
  have ordered := (shardKeys_sorted database threshold).imp Std.le_of_lt
  refine ⟨flatMap_shards database threshold, ?_, ?_, ?_, shardKeys_sorted database threshold, ?_⟩
  · rw [flatMap_shards]
    exact database.records.sorted
  · intro shard member
    refine ⟨exists_key_record member, fun record held => name_le_key member held, ?_⟩
    intro front back split something more
    exact Shard.front_lt_of_mem_cut (.nil threshold) member split something more
  · intro shard member
    exact Shard.le_runSize_of_mem_cut (.nil threshold) member
  · intro name
    refine ⟨Shard.locate?_eq_getElem? ordered name,
      locate?_shards_eq_none_iff database threshold name, fun key located => ?_⟩
    rcases Shard.locate?_eq_some ordered located with ⟨present, notBefore, _⟩
    rcases List.mem_map.mp present with ⟨shard, member, rfl⟩
    exact ⟨shard, member, rfl, notBefore, exists_record_of_located located member,
      fun other otherMember different =>
        beside_of_located located member otherMember different⟩

private def threeNames : Database :=
  .ofEntries (.ofList [("a", .empty), ("b", .empty), ("c", .empty)])

private def firstOfThree : Shard :=
  ⟨"b", [("a", Entry.empty.toJson), ("b", Entry.empty.toJson)]⟩

/-- Three records of 34 bytes each are cut behind the second one, and `aa` can only be in
front of the cut. -/
theorem shards_partition_three_names :
    firstOfThree ∈ (threeNames.shards 40).dropLast ∧
      Shard.runSize [("a", Entry.empty.toJson)] < 40 ∧
      40 ≤ Shard.runSize firstOfThree.records ∧
      Shard.locate? (threeNames.shardKeys 40) "aa" = some "b" ∧
      ∃ shard ∈ threeNames.shards 40, shard.key = "b" ∧ "aa" ≤ "b" ∧
        ("aa" ∈ threeNames.names → ∃ value, ("aa", value) ∈ shard.records) ∧
        ∀ other ∈ threeNames.shards 40, other ≠ shard →
          (∀ record ∈ other.records, record.1 < "aa") ∨
            ∀ record ∈ other.records, "aa" < record.1 := by
  have early : firstOfThree ∈ (threeNames.shards 40).dropLast := by decide +kernel
  have located : Shard.locate? (threeNames.shardKeys 40) "aa" = some "b" := by decide +kernel
  rcases shards_partition threeNames 40 with ⟨_, _, each, full, _, search⟩
  rcases each firstOfThree ((List.dropLast_sublist _).subset early) with ⟨_, _, cut⟩
  have short := cut [("a", Entry.empty.toJson)] [("b", Entry.empty.toJson)] rfl
    (List.cons_ne_nil _ _) (List.cons_ne_nil _ _)
  exact ⟨early, short, full firstOfThree early, located, (search "aa").2.2 "b" located⟩

end Database

end CommandReference
