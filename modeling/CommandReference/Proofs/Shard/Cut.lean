import CommandReference.Proofs.SortedMap
import CommandReference.Shard.Basic

namespace CommandReference

/-! Shards as pieces of the ordered records. No record is lost or moved, each key is the
last name of its shard, and so the first key that is not before a name belongs to the
only shard that can hold the name. -/

open Json (Value)

namespace Shard

variable {threshold : Nat} {shard : Shard} {name : String} {value : Value}

def Before (earlier later : Shard) : Prop :=
  ∀ left ∈ earlier.records, ∀ right ∈ later.records, left.1 < right.1

/-! ## Pieces -/

theorem flatMap_cut (threshold : Nat) (reversed : List (String × Value)) (size : Nat)
    (records : List (String × Value)) :
    (cut threshold reversed size records).flatMap Shard.records =
      reversed.reverse ++ records := by
  induction records generalizing reversed size with
  | nil =>
      rw [List.append_nil]
      cases reversed with
      | nil => rfl
      | cons last others =>
          rw [cut, List.flatMap_singleton]
  | cons record rest induction =>
      rw [cut]
      split
      case isTrue =>
        rw [List.flatMap_cons, induction, List.reverse_cons, List.append_assoc]
        rfl
      case isFalse =>
        rw [induction, List.reverse_cons, List.append_assoc]
        rfl

theorem records_of_mem_cut {reversed : List (String × Value)} {size : Nat}
    {records : List (String × Value)} (member : shard ∈ cut threshold reversed size records) :
    ∃ others value, shard.records = others ++ [(shard.key, value)] := by
  induction records generalizing reversed size with
  | nil =>
      cases reversed with
      | nil => cases member
      | cons last others =>
          rw [List.mem_singleton.mp member, List.reverse_cons]
          exact ⟨_, _, rfl⟩
  | cons record rest induction =>
      rw [cut] at member
      split at member
      case isTrue =>
        rcases List.mem_cons.mp member with equal | later
        · rw [equal, List.reverse_cons]
          exact ⟨_, _, rfl⟩
        · exact induction later
      case isFalse => exact induction member

end Shard

/-! ## Shards of a reference -/

namespace Database

variable {database : Database} {threshold : Nat} {shard : Shard} {name : String}
  {value : Value}

theorem flatMap_shards (database : Database) (threshold : Nat) :
    (database.shards threshold).flatMap Shard.records = database.records.entries :=
  Shard.flatMap_cut threshold [] 0 database.records.entries

theorem exists_key_record (member : shard ∈ database.shards threshold) :
    ∃ value, (shard.key, value) ∈ shard.records := by
  rcases Shard.records_of_mem_cut member with ⟨others, value, records⟩
  exact ⟨value, records ▸ List.mem_append_right others (List.mem_singleton_self _)⟩

theorem shards_sorted (member : shard ∈ database.shards threshold) :
    shard.records.Pairwise fun left right => left.1 < right.1 := by
  have sorted := database.records.sorted
  rw [← flatMap_shards database threshold] at sorted
  exact (List.pairwise_flatMap.mp sorted).1 shard member

theorem shards_before (database : Database) (threshold : Nat) :
    (database.shards threshold).Pairwise Shard.Before := by
  have sorted := database.records.sorted
  rw [← flatMap_shards database threshold] at sorted
  exact (List.pairwise_flatMap.mp sorted).2

theorem eq_or_before {other : Shard} (member : shard ∈ database.shards threshold)
    (otherMember : other ∈ database.shards threshold) :
    other = shard ∨ shard.Before other ∨ other.Before shard := by
  have ordered := shards_before database threshold
  refine List.Pairwise.forall_of_forall_of_flip (R := fun left right : Shard =>
    right = left ∨ left.Before right ∨ right.Before left) ?_ ?_ ?_ member otherMember
  · exact fun shard _ => .inl rfl
  · exact ordered.imp fun before => .inr (.inl before)
  · exact ordered.imp fun before => .inr (.inr before)

theorem name_le_key (member : shard ∈ database.shards threshold)
    (record : (name, value) ∈ shard.records) : name ≤ shard.key := by
  have sorted := shards_sorted member
  rcases Shard.records_of_mem_cut member with ⟨others, last, records⟩
  rw [records] at sorted record
  rcases List.mem_append.mp record with earlier | equal
  · exact Std.le_of_lt ((List.pairwise_append.mp sorted).2.2 (name, value) earlier
      (shard.key, last) (List.mem_singleton_self _))
  · cases List.mem_singleton.mp equal
    exact Std.le_refl shard.key

theorem mem_records_iff :
    (name, value) ∈ database.records.entries ↔
      ∃ shard ∈ database.shards threshold, (name, value) ∈ shard.records := by
  rw [← flatMap_shards database threshold]
  exact List.mem_flatMap

theorem mem_shard_iff_of_located (member : shard ∈ database.shards threshold)
    (atMost : name ≤ shard.key)
    (least : ∀ other ∈ database.shards threshold, name ≤ other.key → shard.key ≤ other.key) :
    (name, value) ∈ shard.records ↔ (name, value) ∈ database.records.entries := by
  constructor
  · intro record
    exact mem_records_iff.mpr ⟨shard, member, record⟩
  · intro record
    rcases mem_records_iff.mp record with ⟨holder, holderMember, held⟩
    rcases exists_key_record member with ⟨keyValue, keyRecord⟩
    rcases exists_key_record holderMember with ⟨holderValue, holderRecord⟩
    have notBefore := least holder holderMember (name_le_key holderMember held)
    rcases eq_or_before member holderMember with same | before | after
    · exact same ▸ held
    · have below := before (shard.key, keyValue) keyRecord (name, value) held
      exact absurd atMost (Std.not_le.mpr below)
    · have below := after (holder.key, holderValue) holderRecord (shard.key, keyValue) keyRecord
      exact absurd notBefore (Std.not_le.mpr below)

/-- The shard at the first key that is not before a name answers for the whole
reference. -/
theorem find?_of_located (member : shard ∈ database.shards threshold)
    (atMost : name ≤ shard.key)
    (least : ∀ other ∈ database.shards threshold, name ≤ other.key → shard.key ≤ other.key) :
    SortedMap.find? name shard.records = database.records.get? name := by
  have sorted := shards_sorted member
  have located : ∀ value, (name, value) ∈ shard.records ↔
      (name, value) ∈ database.records.entries :=
    fun _ => mem_shard_iff_of_located member atMost least
  cases found : SortedMap.find? name shard.records with
  | some value =>
      have record := (located value).mp (SortedMap.mem_of_find?_eq_some found)
      exact ((SortedMap.get?_eq_some_iff database.records name value).mpr record).symm
  | none =>
      cases present : database.records.get? name with
      | none => rfl
      | some value =>
          have record := (located value).mpr (SortedMap.mem_of_find?_eq_some present)
          rw [SortedMap.find?_eq_some_of_mem sorted record] at found
          cases found

end Database

end CommandReference
