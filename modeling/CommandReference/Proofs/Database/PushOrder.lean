import CommandReference.Proofs.Database.Invariant
import CommandReference.Proofs.Published
import CommandReference.Proofs.Simplification.Attribution
import CommandReference.Shard.Basic
import Mathlib.Data.List.Perm.Basic

namespace CommandReference

/-! What is published does not tell in which order signatures were collected. The order
decides which source file stays with a signature that has several, but signatures are
published without their files. Without them, entries are the same as soon as they are
sorted, and simplification does not look at them. -/

theorem NameSet.eq_of_mem_keys_iff {left right : NameSet}
    (same : ∀ name, name ∈ left.keys ↔ name ∈ right.keys) : left = right := by
  apply SortedMap.eq_of_get?_eq
  intro name
  have agree := same name
  rw [left.mem_keys_iff, right.mem_keys_iff] at agree
  cases inLeft : left.get? name with
  | none =>
      cases inRight : right.get? name with
      | none => rfl
      | some => simp [inLeft, inRight] at agree
  | some =>
      cases inRight : right.get? name with
      | none => simp [inLeft, inRight] at agree
      | some => rfl

/-! ## Signatures -/

namespace Signature

variable {first second : List Signature}

/-- Signatures whose text tells their arguments. -/
def ToldByText (signatures : List Signature) : Prop :=
  ∀ left ∈ signatures, ∀ right ∈ signatures,
    left.render = right.render → left.arguments = right.arguments

theorem mem_dropRepeated_unattributed {signatures : List Signature} {signature : Signature} :
    signature ∈ (dropRepeated signatures).map unattributed ↔
      signature ∈ signatures.map unattributed := by
  rw [List.mem_map, List.mem_map]
  constructor
  · rintro ⟨kept, member, rfl⟩
    exact ⟨kept, (dropRepeated_sublist signatures).subset member, rfl⟩
  · rintro ⟨given, member, rfl⟩
    rcases exists_mem_dropRepeated member with ⟨kept, keptMember, same⟩
    exact ⟨kept, keptMember, unattributed_eq_iff.mpr same⟩

/-- The order decides which of several signatures is kept, and no more than that. -/
theorem dropRepeated_perm (perm : first.Perm second) :
    ((dropRepeated first).map unattributed).Perm ((dropRepeated second).map unattributed) := by
  have nodup (signatures : List Signature) :
      ((dropRepeated signatures).map unattributed).Nodup := by
    apply List.pairwise_map.mpr
    exact (dropRepeated_distinct signatures).imp fun apart => unattributed_eq_iff.not.mpr apart
  apply (List.perm_ext_iff_of_nodup (nodup first) (nodup second)).mpr
  intro signature
  rw [mem_dropRepeated_unattributed, mem_dropRepeated_unattributed]
  exact (perm.map unattributed).mem_iff

end Signature

/-! ## Entries -/

namespace Entry

def unattributed (entry : Entry) : Entry :=
  { entry with signatures := entry.signatures.map Signature.unattributed }

theorem sortSignatures_unattributed (signatures : List Signature) :
    sortSignatures (signatures.map Signature.unattributed) =
      (sortSignatures signatures).map Signature.unattributed := by
  rw [sortSignatures, sortSignatures, List.map_mergeSort]
  intro _ _ _ _
  rfl

theorem sorted_unattributed (entry : Entry) :
    entry.unattributed.sorted = entry.sorted.unattributed :=
  congrArg (Entry.mk · entry.files) (sortSignatures_unattributed entry.signatures)

theorem simplified_unattributed (entry : Entry) :
    entry.unattributed.simplified = entry.simplified.unattributed := by
  have signatures := Signature.simplify_unattributed entry.signatures
  rw [simplified, simplified, ← sorted_unattributed]
  exact congrArg (fun signatures => sorted ⟨signatures, entry.files⟩) signatures

theorem toJson_unattributed (entry : Entry) : entry.unattributed.toJson = entry.toJson := by
  have signatures : entry.unattributed.signatures.map Signature.toJson =
      entry.signatures.map Signature.toJson := List.map_map
  rw [toJson, toJson, signatures]
  rfl

theorem argumentCount_eq_of_perm {left right : Entry}
    (perm : left.unattributed.signatures.Perm right.unattributed.signatures) :
    left.argumentCount = right.argumentCount := by
  have counts (entry : Entry) : entry.signatures.map Signature.argumentCount =
      entry.unattributed.signatures.map Signature.argumentCount := by
    rw [unattributed, List.map_map]
    rfl
  have commutes : RightCommutative (max : Nat → Nat → Nat) := ⟨Nat.max_right_comm⟩
  rw [argumentCount, argumentCount, counts left, counts right]
  exact (perm.map Signature.argumentCount).foldl_eq (f := max) 0

section
variable {first second : List Signature}

theorem files_ofSignatures_perm (perm : first.Perm second) :
    (ofSignatures first).files = (ofSignatures second).files := by
  apply NameSet.eq_of_mem_keys_iff
  intro file
  rw [mem_files_ofSignatures, mem_files_ofSignatures]
  simp only [perm.mem_iff]

theorem signatures_ofSignatures_perm (perm : first.Perm second) :
    (ofSignatures first).unattributed.signatures.Perm
      (ofSignatures second).unattributed.signatures := by
  rw [unattributed, unattributed, signatures_ofSignatures, signatures_ofSignatures]
  exact Signature.dropRepeated_perm perm

theorem sorted_ofSignatures_perm (told : Signature.ToldByText first)
    (perm : first.Perm second) :
    (ofSignatures first).sorted.unattributed = (ofSignatures second).sorted.unattributed := by
  have sorted : sortSignatures (ofSignatures first).unattributed.signatures =
      sortSignatures (ofSignatures second).unattributed.signatures := by
    have same := (sortSignatures_perm _).trans
      ((signatures_ofSignatures_perm perm).trans (sortSignatures_perm _).symm)
    refine same.eq_of_pairwise ?_ (sortSignatures_ordered _) (sortSignatures_ordered _)
    intro left right leftMember rightMember before after
    have given {signature : Signature}
        (member : signature ∈ sortSignatures (ofSignatures first).unattributed.signatures) :
        signature ∈ first.map Signature.unattributed := by
      have unsorted := (sortSignatures_perm _).mem_iff.mp member
      rw [unattributed, signatures_ofSignatures] at unsorted
      exact Signature.mem_dropRepeated_unattributed.mp unsorted
    rcases List.mem_map.mp (given leftMember) with ⟨one, oneMember, rfl⟩
    rcases List.mem_map.mp (given (same.mem_iff.mpr rightMember)) with ⟨other, otherMember, rfl⟩
    apply Signature.unattributed_eq_iff.mpr
    exact told one oneMember other otherMember (Std.le_antisymm before after)
  rw [← sorted_unattributed, ← sorted_unattributed, Entry.sorted, Entry.sorted, sorted]
  exact congrArg (Entry.mk _) (files_ofSignatures_perm perm)

end

theorem map_get?_collect {pushes others : List (String × Signature)} {name : String}
    {property : Entry → α}
    (reordered : (signaturesFor name pushes).Perm (signaturesFor name others))
    (same : property (ofSignatures (signaturesFor name pushes)) =
      property (ofSignatures (signaturesFor name others))) :
    ((collect pushes).get? name).map property = ((collect others).get? name).map property := by
  rw [get?_collect, get?_collect]
  by_cases nothing : signaturesFor name pushes = []
  · have neither : signaturesFor name others = [] := List.nil_perm.mp (nothing ▸ reordered)
    rw [if_pos nothing, if_pos neither]
  · have both : signaturesFor name others ≠ [] := fun neither =>
      nothing (List.perm_nil.mp (neither ▸ reordered))
    rw [if_neg nothing, if_neg both]
    exact congrArg some same

end Entry

/-! ## References -/

namespace Database

variable {first second : Database}

/-- References of which everything that is published is the same. -/
structure PublishedAlike (first second : Database) : Prop where
  json : first.toJson = second.toJson
  index : first.index = second.index
  shards : ∀ threshold, first.shards threshold = second.shards threshold

def unattributed (database : Database) : Database :=
  { database with entries := database.entries.mapValues fun _ entry => entry.unattributed }

theorem get?_unattributed (database : Database) (name : String) :
    database.unattributed.get? name = (database.get? name).map Entry.unattributed :=
  SortedMap.get?_mapValues (fun _ entry => Entry.unattributed entry) database.entries name

theorem records_unattributed (database : Database) :
    database.unattributed.records = database.records := by
  apply SortedMap.eq_of_get?_eq
  intro name
  rw [get?_records, get?_records, get?_unattributed, Option.map_map]
  congr 1
  funext entry
  exact entry.toJson_unattributed

theorem index_unattributed (database : Database) :
    database.unattributed.index = database.index := by
  have contains : database.unattributed.entries.contains = database.entries.contains :=
    SortedMap.contains_mapValues _ _
  rw [index, index, contains]
  rfl

theorem publishedAlike_of_unattributed (same : first.unattributed = second.unattributed) :
    PublishedAlike first second := by
  have records : first.records = second.records := by
    rw [← records_unattributed, same, records_unattributed]
  refine ⟨congrArg Json.Value.ofMap records, ?_, fun threshold => ?_⟩
  · rw [← index_unattributed, same, index_unattributed]
  · rw [shards, shards, records]

theorem simplified_unattributed (database : Database) :
    database.simplified.unattributed = database.unattributed.simplified := by
  apply eq_of_get?_eq
  · intro name
    rw [get?_unattributed, get?_simplified, get?_simplified, get?_unattributed, Option.map_map,
      Option.map_map]
    congr 1
    funext entry
    exact entry.simplified_unattributed.symm
  · rfl

theorem ofEntries_collect_unattributed {pushes others : List (String × Signature)}
    (reordered : ∀ name,
      (Entry.signaturesFor name pushes).Perm (Entry.signaturesFor name others))
    (told : ∀ name, Signature.ToldByText (Entry.signaturesFor name pushes)) :
    (ofEntries (Entry.collect pushes)).unattributed =
      (ofEntries (Entry.collect others)).unattributed := by
  apply eq_of_get?_eq
  · intro name
    rw [get?_unattributed, get?_unattributed, get?_ofEntries, get?_ofEntries, Option.map_map,
      Option.map_map]
    exact Entry.map_get?_collect (reordered name)
      (Entry.sorted_ofSignatures_perm (told name) (reordered name))
  · apply SortedMap.eq_of_get?_eq
    intro name
    have counts := Entry.argumentCount_eq_of_perm
      (Entry.signatures_ofSignatures_perm (reordered name))
    exact ((ofEntries_describes _).argumentCounts name).trans
      ((Entry.map_get?_collect (reordered name) counts).trans
        ((ofEntries_describes _).argumentCounts name).symm)

/-- The order in which the signatures of a name are collected is not published, neither
before nor after any number of simplifications, if signatures of the name with the same text
have the same arguments. -/
theorem collect_order_not_published {pushes others : List (String × Signature)}
    (reordered : ∀ name,
      (Entry.signaturesFor name pushes).Perm (Entry.signaturesFor name others))
    (told : ∀ name, Signature.ToldByText (Entry.signaturesFor name pushes)) (rounds : Nat) :
    PublishedAlike (simplified^[rounds] (ofEntries (Entry.collect pushes)))
      (simplified^[rounds] (ofEntries (Entry.collect others))) := by
  have commute : Function.Commute unattributed simplified := simplified_unattributed
  apply publishedAlike_of_unattributed
  rw [commute.iterate_right rounds, commute.iterate_right rounds,
    ofEntries_collect_unattributed reordered told]

private def inOneOrder : List (String × Signature) :=
  [("foo", ⟨[.constant "a"], some "x.mkiv"⟩), ("bar", ⟨[.constant "a"], some "x.mkiv"⟩),
    ("foo", ⟨[.constant "a"], some "y.mkiv"⟩), ("foo", ⟨[], some "y.mkiv"⟩)]

private def inAnotherOrder : List (String × Signature) :=
  [("foo", ⟨[], some "y.mkiv"⟩), ("foo", ⟨[.constant "a"], some "y.mkiv"⟩),
    ("bar", ⟨[.constant "a"], some "x.mkiv"⟩), ("foo", ⟨[.constant "a"], some "x.mkiv"⟩)]

theorem collect_order_not_published_two_files :
    (∀ name, (Entry.signaturesFor name inOneOrder).Perm
        (Entry.signaturesFor name inAnotherOrder)) ∧
      (∀ name, Signature.ToldByText (Entry.signaturesFor name inOneOrder)) ∧
      Entry.collect inOneOrder ≠ Entry.collect inAnotherOrder ∧
      ∀ rounds, PublishedAlike (simplified^[rounds] (ofEntries (Entry.collect inOneOrder)))
        (simplified^[rounds] (ofEntries (Entry.collect inAnotherOrder))) := by
  have perm : inOneOrder.Perm inAnotherOrder := by decide
  have reordered (name : String) : (Entry.signaturesFor name inOneOrder).Perm
      (Entry.signaturesFor name inAnotherOrder) := perm.filterMap _
  have told (name : String) : Signature.ToldByText (Entry.signaturesFor name inOneOrder) := by
    have all : ∀ left ∈ inOneOrder, ∀ right ∈ inOneOrder,
        left.2.render = right.2.render → left.2.arguments = right.2.arguments := by decide
    intro left leftMember right rightMember
    exact all _ (Entry.mem_signaturesFor.mp leftMember) _ (Entry.mem_signaturesFor.mp rightMember)
  have different : Entry.collect inOneOrder ≠ Entry.collect inAnotherOrder := by decide
  exact ⟨reordered, told, different, collect_order_not_published reordered told⟩

end Database

end CommandReference
