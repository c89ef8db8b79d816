import CommandReference.Proofs.Database.Invariant
import CommandReference.Proofs.Results
import CommandReference.Proofs.Shard.Cut

namespace CommandReference

/-! The index of a reference loses nothing. It has one line for every name, in the order of
bytes, and a line tells its name and its argument count, as what stands before the first
colon is a number. The names of the index are those of all other views. -/

namespace Database

/-! ## Lines -/

/-- The name and the argument count of a line: a number in decimal up to the first colon,
and the name behind it. -/
def readIndexLine? (line : String) : Option (String × Nat) :=
  match line.toList.span (· != ':') with
  | (_, []) => none
  | (digits, _ :: name) =>
      if digits.isEmpty || !digits.all Char.isDigit then none
      else some (String.ofList name, Nat.ofDigitChars 10 digits 0)

theorem span_indexLine (name : String) (count : Nat) :
    (indexLine name count).toList.span (· != ':') =
      (Nat.toDigits 10 count, ':' :: name.toList) := by
  have written : (indexLine name count).toList =
      Nat.toDigits 10 count ++ ':' :: name.toList := by
    simp [indexLine]
  have noColon : ∀ character ∈ Nat.toDigits 10 count, (character != ':') = true := by
    intro character member
    have digit := Nat.isDigit_of_mem_toDigits (by decide) (by decide) member
    rw [bne_iff_ne]
    rintro rfl
    exact absurd digit (by decide)
  rw [written, List.span_eq_takeWhile_dropWhile, List.takeWhile_append_of_pos noColon,
    List.dropWhile_append_of_pos noColon]
  simp

theorem readIndexLine?_indexLine (name : String) (count : Nat) :
    readIndexLine? (indexLine name count) = some (name, count) := by
  have digits : (Nat.toDigits 10 count).all Char.isDigit = true :=
    List.all_eq_true.mpr fun character =>
      Nat.isDigit_of_mem_toDigits (by decide) (by decide)
  have nonempty : (Nat.toDigits 10 count).isEmpty = false :=
    List.isEmpty_eq_false_iff.mpr Nat.toDigits_ne_nil
  rw [readIndexLine?, span_indexLine]
  simp [digits, nonempty, Nat.ofDigitChars_ten_toDigits]

example : readIndexLine? "2:1:a\n0:b" = some ("1:a\n0:b", 2) := by decide

theorem eq_of_indexLine_eq {name other : String} {count otherCount : Nat}
    (same : indexLine name count = indexLine other otherCount) :
    name = other ∧ count = otherCount := by
  have told := readIndexLine?_indexLine name count
  rw [same, readIndexLine?_indexLine] at told
  cases told
  exact ⟨rfl, rfl⟩

theorem mem_index_iff {database : Database} {line : String} :
    line ∈ database.index ↔ ∃ name count, database.argumentCount? name = some count ∧
      (database.get? name).isSome ∧ indexLine name count = line := by
  have counted (name : String) (count : Nat) :
      (name, count) ∈ (database.argumentCounts.filterKeys database.entries.contains).entries ↔
        database.argumentCount? name = some count ∧ (database.get? name).isSome := by
    rw [← SortedMap.get?_eq_some_iff, SortedMap.get?_filterKeys, SortedMap.contains,
      argumentCount?, get?]
    cases (database.entries.get? name).isSome <;> simp
  rw [index, List.mem_mergeSort, List.mem_map]
  simp only [Prod.exists, counted, and_assoc]

theorem Describes.exists_mem_index_iff {database : Database}
    {entries : SortedMap String Entry} (describes : database.Describes entries)
    (name : String) :
    (∃ count, indexLine name count ∈ database.index) ↔ (database.get? name).isSome := by
  constructor
  · rintro ⟨count, member⟩
    obtain ⟨other, _, _, known, same⟩ := mem_index_iff.mp member
    rwa [(eq_of_indexLine_eq same).1] at known
  · intro known
    have isName : name ∈ database.names :=
      (SortedMap.mem_keys_iff _ name).mpr (Option.isSome_iff_ne_none.mp known)
    rw [describes.names, SortedMap.mem_keys_iff] at isName
    obtain ⟨entry, present⟩ := Option.ne_none_iff_exists'.mp isName
    have count := describes.argumentCounts name
    rw [present, Option.map_some] at count
    exact ⟨_, mem_index_iff.mpr ⟨name, _, count, known, rfl⟩⟩

/-! ## Views -/

/-- The index tells exactly the argument count of each name, and the names are the same in
all that is published. -/
structure IsIndexed (database : Database) : Prop where
  ordered : database.index.Pairwise fun left right => Utf8.encode left < Utf8.encode right
  told : ∃ counts : List (String × Nat), database.index.mapM readIndexLine? = some counts ∧
    (counts.map Prod.fst).Perm database.names ∧
    ∀ name count, (name, count) ∈ counts ↔ database.argumentCount? name = some count
  counted : database.argumentCounts.keys = database.names
  detailed : ∃ fields, database.toJson = .object fields ∧
    fields.map Prod.fst = database.names
  sharded : ∀ threshold,
    ((database.shards threshold).flatMap Shard.records).map Prod.fst = database.names

theorem index_eq_map {database : Database}
    (counted : database.argumentCounts.keys = database.names) :
    ∃ counts : List (String × Nat), counts.Perm database.argumentCounts.entries ∧
      database.index = counts.map fun entry => indexLine entry.1 entry.2 := by
  have known : database.argumentCounts.filterKeys database.entries.contains =
      database.argumentCounts := by
    refine SortedMap.eq_of_entries_eq (List.filter_eq_self.mpr fun entry member => ?_)
    have isName : entry.1 ∈ database.names := counted ▸ List.mem_map_of_mem member
    exact Option.isSome_iff_ne_none.mpr ((SortedMap.mem_keys_iff _ entry.1).mp isName)
  refine ⟨_, List.mergeSort_perm database.argumentCounts.entries fun left right =>
    decide (indexLine left.1 left.2 ≤ indexLine right.1 right.2), ?_⟩
  have commutes := List.map_mergeSort (f := fun entry : String × Nat =>
    indexLine entry.1 entry.2) (s := fun left right => decide (left ≤ right))
    (l := database.argumentCounts.entries) fun _ _ _ _ => rfl
  rw [index, known]
  exact commutes.symm

theorem index_ordered (database : Database) :
    database.index.Pairwise fun left right => left < right := by
  have distinct : database.index.Nodup := by
    refine (List.mergeSort_perm _ _).nodup_iff.mpr ?_
    refine List.Pairwise.map _ ?_ (SortedMap.sorted _)
    intro left right before same
    exact KeyOrder.irrefl right.1 ((eq_of_indexLine_eq same).1 ▸ before)
  have sorted : database.index.Pairwise (· ≤ ·) := pairwise_mergeSort_text (fun line => line) _
  exact (sorted.and distinct).imp fun both => Std.lt_of_le_of_ne both.1 both.2

theorem isIndexed_of_counted {database : Database}
    (counted : database.argumentCounts.keys = database.names) : database.IsIndexed where
  ordered := (index_ordered database).imp Utf8.encode_lt_encode_iff.mpr
  told := by
    rcases index_eq_map counted with ⟨counts, perm, lines⟩
    refine ⟨counts, ?_, ?_, ?_⟩
    · rw [lines]
      exact mapM_map_of_reads fun entry _ => readIndexLine?_indexLine entry.1 entry.2
    · rw [← counted]
      exact perm.map Prod.fst
    · intro name count
      rw [perm.mem_iff]
      exact (SortedMap.get?_eq_some_iff _ name count).symm
  counted := counted
  detailed := ⟨_, rfl, SortedMap.keys_mapValues (fun _ entry => Entry.toJson entry) _⟩
  sharded threshold := by
    rw [flatMap_shards]
    exact SortedMap.keys_mapValues (fun _ entry => Entry.toJson entry) _

theorem Describes.counted {database : Database} {entries : SortedMap String Entry}
    (describes : database.Describes entries) :
    database.argumentCounts.keys = database.names := by
  have counts : database.argumentCounts =
      entries.mapValues fun _ entry => entry.argumentCount := by
    apply SortedMap.eq_of_get?_eq
    intro name
    rw [SortedMap.get?_mapValues]
    exact describes.argumentCounts name
  rw [counts, SortedMap.keys_mapValues, describes.names]

/-- However often the reference of some entries is simplified, its index has one line for
each name, in the order of bytes, from which the name and its argument count can be read,
and all views have the same names. -/
theorem iterate_simplified_isIndexed (entries : SortedMap String Entry) (rounds : Nat) :
    (simplified^[rounds] (ofEntries entries)).IsIndexed :=
  isIndexed_of_counted (iterate_simplified_describes entries rounds).counted

/-! ## Compiled references -/

theorem exists_describes_of_ofFiles {configuration : Configuration}
    {files : List InterfaceFile} {database : Database}
    (built : (ofFiles configuration files).result = .ok database) :
    ∃ entries, database.Describes entries := by
  obtain ⟨definitions, _, collects⟩ := Outcome.of_bind_eq_ok built
  obtain ⟨entries, collected, published⟩ := Outcome.of_bind_eq_ok collects
  obtain rfl := Except.ok.inj published
  refine ⟨entries, ?_⟩
  split
  · exact (ofEntries_describes entries).simplified
  · exact ofEntries_describes entries

end Database

theorem Configuration.exists_describes_of_compile {configuration : Configuration}
    {source : Source} {root : Path} {steps : Nat} {outcome : Outcome Database}
    {database : Database} (compiled : configuration.compile source root steps = some outcome)
    (succeeded : outcome.result = .ok database) :
    ∃ entries, database.Describes entries := by
  obtain ⟨loaded, _, rfl⟩ := Option.map_eq_some_iff.mp compiled
  obtain ⟨files, _, built⟩ := Outcome.of_bind_eq_ok succeeded
  exact Database.exists_describes_of_ofFiles built

end CommandReference
