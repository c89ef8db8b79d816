import CommandReference.Database
import CommandReference.Proofs.Json.RoundTrip

namespace CommandReference

/-! The published form of a reference nests only a few levels deep and holds no
numbers, so every record can be read back from its text. -/

open Json (Value Readable)

namespace Json

theorem Readable.mono {depth deeper : Nat} {value : Value} (readable : Readable depth value)
    (atMost : depth ≤ deeper) : Readable deeper value := by
  induction readable generalizing deeper with
  | null => exact .null
  | boolean value => exact .boolean value
  | integer low high => exact .integer low high
  | text value => exact .text value
  | array readable induction =>
      rcases deeper with _ | deeper
      · cases atMost
      · exact .array fun item member => induction item member (Nat.le_of_succ_le_succ atMost)
  | object sorted readable induction =>
      rcases deeper with _ | deeper
      · cases atMost
      · exact .object sorted fun field member =>
          induction field member (Nat.le_of_succ_le_succ atMost)

theorem readable_ofTexts (depth : Nat) (texts : List String) :
    Readable (depth + 1) (.ofTexts texts) := by
  apply Readable.array
  intro item member
  rcases List.mem_map.mp member with ⟨text, _, rfl⟩
  exact .text text

theorem readable_ofFields {depth : Nat} {fields : List (String × Value)}
    (sorted : (fields.map Prod.fst).Pairwise (· < ·))
    (readable : ∀ field ∈ fields, Readable depth field.2) :
    Readable (depth + 1) (.ofFields fields) := by
  have ordered := List.pairwise_map.mp sorted
  rw [Value.ofFields, SortedMap.entries_ofList ordered]
  exact .object ordered readable

theorem readable_ofMap {depth : Nat} {map : SortedMap String Value}
    (readable : ∀ entry ∈ map.entries, Readable depth entry.2) :
    Readable (depth + 1) (.ofMap map) :=
  .object map.sorted readable

end Json

theorem Content.toJson_readable (content : Content) : Readable 2 content.toJson := by
  cases content with
  | constant text => exact .text text
  | keywords items => exact Json.readable_ofTexts 1 items
  | assignments values =>
      apply Json.readable_ofMap
      intro entry member
      rcases List.mem_map.mp member with ⟨assignment, _, rfl⟩
      exact Json.readable_ofTexts 0 assignment.2
  | delimiter => exact .text ""
  | placeholder kind => exact .text kind.label

theorem Argument.toJson_readable (argument : Argument) : Readable 3 argument.toJson := by
  have keys : ["content", "inherits", "optional", "rendering"].Pairwise (· < ·) := by decide
  refine Json.readable_ofFields keys fun field member => ?_
  simp only [List.mem_cons, List.not_mem_nil, or_false] at member
  rcases member with rfl | rfl | rfl | rfl
  · exact argument.content.toJson_readable
  · exact Json.readable_ofTexts 1 argument.inherits
  · exact .boolean argument.optional
  · exact .text argument.rendering

theorem Signature.toJson_readable (signature : Signature) : Readable 4 signature.toJson := by
  apply Readable.array
  intro item member
  rcases List.mem_map.mp member with ⟨argument, _, rfl⟩
  exact argument.toJson_readable

theorem Entry.toJson_readable (entry : Entry) : Readable 6 entry.toJson := by
  have keys : ["files", "syntax_variants"].Pairwise (· < ·) := by decide
  refine Json.readable_ofFields keys fun field member => ?_
  simp only [List.mem_cons, List.not_mem_nil, or_false] at member
  rcases member with rfl | rfl
  · exact Json.readable_ofTexts 4 entry.files.keys
  · apply Readable.array
    intro item member
    rcases List.mem_map.mp member with ⟨signature, _, rfl⟩
    exact signature.toJson_readable

theorem Database.records_readable (database : Database) :
    ∀ record ∈ database.records.entries, Readable 6 record.2 := by
  intro record member
  rcases List.mem_map.mp member with ⟨entry, _, rfl⟩
  exact entry.2.toJson_readable

theorem Database.get?_records (database : Database) (name : String) :
    database.records.get? name = (database.get? name).map Entry.toJson :=
  SortedMap.get?_mapValues (fun _ entry => Entry.toJson entry) database.entries name

end CommandReference
