import CommandReference.Proofs.Json.RoundTrip

namespace CommandReference.Json

/-! The ASCII form of a value without floating-point numbers stands for this value only. It
is read back unless the value nests too deep for the reader, which then refuses it at the
first bracket that it may not enter. -/

/-! ## Nesting -/

mutual

def Value.nesting : Value → Nat
  | .array items => nestingOfItems items + 1
  | .object fields => nestingOfFields fields + 1
  | .null | .boolean _ | .integer _ | .real .. | .text _ => 0

def nestingOfItems : List Value → Nat
  | [] => 0
  | item :: rest => max item.nesting (nestingOfItems rest)

def nestingOfFields : List (String × Value) → Nat
  | [] => 0
  | (_, value) :: rest => max value.nesting (nestingOfFields rest)

end

theorem nestingOfItems_le_iff {items : List Value} {depth : Nat} :
    nestingOfItems items ≤ depth ↔ ∀ item ∈ items, item.nesting ≤ depth := by
  induction items with
  | nil => simp [nestingOfItems]
  | cons item rest induction =>
      rw [nestingOfItems, Nat.max_le, induction, List.forall_mem_cons]

theorem nestingOfFields_le_iff {fields : List (String × Value)} {depth : Nat} :
    nestingOfFields fields ≤ depth ↔ ∀ field ∈ fields, field.2.nesting ≤ depth := by
  induction fields with
  | nil => simp [nestingOfFields]
  | cons field rest induction =>
      rw [nestingOfFields, Nat.max_le, induction, List.forall_mem_cons]

theorem lt_nestingOfItems_iff {items : List Value} {depth : Nat} :
    depth < nestingOfItems items ↔ ∃ item ∈ items, depth < item.nesting := by
  rw [← Nat.not_le, nestingOfItems_le_iff]
  simp only [Classical.not_forall, Nat.not_le, exists_prop]

theorem lt_nestingOfFields_iff {fields : List (String × Value)} {depth : Nat} :
    depth < nestingOfFields fields ↔ ∃ field ∈ fields, depth < field.2.nesting := by
  rw [← Nat.not_le, nestingOfFields_le_iff]
  simp only [Classical.not_forall, Nat.not_le, exists_prop]

/-- Values without floating-point numbers. Integers fit a word, and an object has each of
its keys once, in order. -/
inductive Value.IsFloatFree : Value → Prop
  | null : IsFloatFree .null
  | boolean (value : Bool) : IsFloatFree (.boolean value)
  | integer {value : Int} (low : -0x8000000000000000 ≤ value) (high : value < wordLimit) :
      IsFloatFree (.integer value)
  | text (value : String) : IsFloatFree (.text value)
  | array {items : List Value} (floatFree : ∀ item ∈ items, IsFloatFree item) :
      IsFloatFree (.array items)
  | object {fields : List (String × Value)}
      (sorted : fields.Pairwise fun left right => left.1 < right.1)
      (floatFree : ∀ field ∈ fields, IsFloatFree field.2) : IsFloatFree (.object fields)

theorem Value.IsFloatFree.readable {value : Value} (floatFree : value.IsFloatFree)
    {depth : Nat} (shallow : value.nesting ≤ depth) : Readable depth value := by
  induction floatFree generalizing depth with
  | null => exact .null
  | boolean value => exact .boolean value
  | integer low high => exact .integer low high
  | text value => exact .text value
  | array floatFree induction =>
      cases depth with
      | zero => cases shallow
      | succ depth =>
          have items := nestingOfItems_le_iff.mp (Nat.le_of_succ_le_succ shallow)
          exact .array fun item member => induction item member (items item member)
  | object sorted floatFree induction =>
      cases depth with
      | zero => cases shallow
      | succ depth =>
          have fields := nestingOfFields_le_iff.mp (Nat.le_of_succ_le_succ shallow)
          exact .object sorted fun field member => induction field member (fields field member)

theorem Value.IsFloatFree.startsValue {value : Value} (floatFree : value.IsFloatFree) :
    StartsValue value.asciiCharacters :=
  (floatFree.readable (Nat.le_refl _)).spelled_ascii.startsValue

/-! ## Refusal -/

section
variable {readItem : List Char → Except ReadError (Value × List Char)}

def Refuses (readItem : List Char → Except ReadError (Value × List Char))
    (characters : List Char) : Prop :=
  ∀ rest, EndsValue rest → readItem (characters ++ rest) = .error .malformed

section
variable {items : List Value} {write : Value → List Char}
  (reads : ∀ item ∈ items, StartsValue (write item) ∧
    (ReadsBack readItem (write item) item ∨ Refuses readItem (write item)))
  (refused : ∃ item ∈ items, Refuses readItem (write item))
include reads refused

theorem readItemsWith_following_refused {steps : Nat} (enough : items.length < steps)
    (rest : List Char) :
    readItemsWith readItem steps false (following (items.map write) ++ ']' :: rest) =
      .error .malformed := by
  induction items generalizing steps with
  | nil => simp at refused
  | cons item items induction =>
      cases steps with
      | zero => cases enough
      | succ steps =>
          rcases List.forall_mem_cons.mp reads with ⟨⟨starts, first⟩, others⟩
          have ends := endsValue_following (items.map write) (.bracket rest)
          have notEnd : (skipBlanks (write item ++ (following (items.map write) ++
              ']' :: rest))).head? ≠ some ']' := by
            rcases starts (following (items.map write) ++ ']' :: rest) with
              ⟨character, later, begins, notEnd⟩
            rw [begins]
            simpa using notEnd
          rw [List.map_cons, following, List.flatMap_cons, ← following, List.append_assoc,
            List.cons_append, readItemsWith_next steps notEnd]
          by_cases own : Refuses readItem (write item)
          · rw [own _ ends]
            rfl
          · have further : ∃ item ∈ items, Refuses readItem (write item) := by
              simpa [own] using refused
            have later := induction others further (Nat.lt_of_succ_lt_succ enough)
            rw [first.resolve_right own _ ends]
            simp only [Except.bind, later]
            rfl

theorem readItemsWith_separated_refused
    (skips : ∀ characters, readItem (skipBlanks characters) = readItem characters)
    {steps : Nat} (enough : items.length < steps) (rest : List Char) :
    readItemsWith readItem steps true (separated (items.map write) ++ ']' :: rest) =
      .error .malformed := by
  cases items with
  | nil => simp at refused
  | cons item items =>
      cases steps with
      | zero => cases enough
      | succ steps =>
          rcases List.forall_mem_cons.mp reads with ⟨⟨starts, first⟩, others⟩
          have ends := endsValue_following (items.map write) (.bracket rest)
          rcases starts (following (items.map write) ++ ']' :: rest) with
            ⟨character, later, begins, notEnd⟩
          rw [List.map_cons, separated_cons, List.append_assoc,
            readItemsWith_first steps begins notEnd (skips _)]
          by_cases own : Refuses readItem (write item)
          · rw [own _ ends]
            rfl
          · have further : ∃ item ∈ items, Refuses readItem (write item) := by
              simpa [own] using refused
            have later := readItemsWith_following_refused others further
              (Nat.lt_of_succ_lt_succ enough) rest
            rw [first.resolve_right own _ ends]
            simp only [Except.bind, later]
            rfl

end

section
variable {fields : List (String × Value)} {write : String × Value → List Char}
  (reads : ∀ field ∈ fields,
    ReadsBack readItem (write field) field.2 ∨ Refuses readItem (write field))
  (refused : ∃ field ∈ fields, Refuses readItem (write field))
include reads refused

theorem readFieldsWith_following_refused {steps : Nat} (enough : fields.length < steps)
    (rest : List Char) :
    readFieldsWith readItem steps false
        (following (fields.map (spelledField writtenCharacter [] write)) ++ '\x7d' :: rest) =
      .error .malformed := by
  induction fields generalizing steps with
  | nil => simp at refused
  | cons field fields induction =>
      cases steps with
      | zero => cases enough
      | succ steps =>
          rcases List.forall_mem_cons.mp reads with ⟨first, others⟩
          have ends := endsValue_following (fields.map (spelledField writtenCharacter [] write))
            (.brace rest)
          rw [List.map_cons, following, List.flatMap_cons, ← following, List.append_assoc,
            List.cons_append, readFieldsWith_next,
            readField_spelled isSpelling_written .nothing]
          by_cases own : Refuses readItem (write field)
          · rw [own _ ends]
            rfl
          · have further : ∃ field ∈ fields, Refuses readItem (write field) := by
              simpa only [List.mem_cons, exists_eq_or_imp, own, false_or] using refused
            have later := induction others further (Nat.lt_of_succ_lt_succ enough)
            rw [first.resolve_right own _ ends]
            simp only [Except.map, Except.bind, later]

theorem readFieldsWith_separated_refused {steps : Nat} (enough : fields.length < steps)
    (rest : List Char) :
    readFieldsWith readItem steps true
        (separated (fields.map (spelledField writtenCharacter [] write)) ++ '\x7d' :: rest) =
      .error .malformed := by
  cases fields with
  | nil => simp at refused
  | cons field fields =>
      cases steps with
      | zero => cases enough
      | succ steps =>
          rcases List.forall_mem_cons.mp reads with ⟨first, others⟩
          have ends := endsValue_following (fields.map (spelledField writtenCharacter [] write))
            (.brace rest)
          have begins := skipBlanks_spelledField writtenCharacter .nothing write field
            (following (fields.map (spelledField writtenCharacter [] write)) ++
              '\x7d' :: rest)
          rw [List.map_cons, separated_cons, List.append_assoc, readFieldsWith_first steps begins,
            readField_spelled isSpelling_written .nothing]
          by_cases own : Refuses readItem (write field)
          · rw [own _ ends]
            rfl
          · have further : ∃ field ∈ fields, Refuses readItem (write field) := by
              simpa only [List.mem_cons, exists_eq_or_imp, own, false_or] using refused
            have later := readFieldsWith_following_refused others further
              (Nat.lt_of_succ_lt_succ enough) rest
            rw [first.resolve_right own _ ends]
            simp only [Except.map, Except.bind, later]

end
end

/-! ## Values -/

namespace Value.IsFloatFree

variable {value : Value} (floatFree : value.IsFloatFree) {depth : Nat}
include floatFree

theorem readsBack (shallow : value.nesting ≤ depth) :
    ReadsBack (readValueWithin depth) value.asciiCharacters value :=
  (floatFree.readable shallow).spelled_ascii.readsBack

/-- A value that nests too deep is refused: its first bracket that may not be entered
stands behind values that are read back. -/
theorem refuses (deep : depth < value.nesting) :
    Refuses (readValueWithin depth) value.asciiCharacters := by
  induction floatFree generalizing depth with
  | null | boolean | integer | text => exact absurd deep (Nat.not_lt_zero depth)
  | @array items floatFree induction =>
      intro rest ends
      rw [asciiCharacters_array, List.cons_append, List.cons_append, List.append_assoc,
        List.singleton_append]
      cases depth with
      | zero => rfl
      | succ depth =>
          have reads : ∀ item ∈ items, StartsValue item.asciiCharacters ∧
              (ReadsBack (readValueWithin depth) item.asciiCharacters item ∨
                Refuses (readValueWithin depth) item.asciiCharacters) := by
            intro item member
            refine ⟨(floatFree item member).startsValue, ?_⟩
            rcases Nat.lt_or_ge depth item.nesting with deep | shallow
            · exact .inr (induction item member deep)
            · exact .inl ((floatFree item member).readsBack shallow)
          have refused : ∃ item ∈ items,
              Refuses (readValueWithin depth) item.asciiCharacters := by
            rcases lt_nestingOfItems_iff.mp (Nat.lt_of_succ_lt_succ deep) with
              ⟨item, member, deep⟩
            exact ⟨item, member, induction item member deep⟩
          have nonempty : ∀ item ∈ items, item.asciiCharacters ≠ [] := fun item member =>
            ((floatFree item member).readable (Nat.le_refl _)).spelled_ascii.ne_nil
          rw [readValueWithin_array, readItemsWith_separated_refused reads refused
            (readValueWithin_skipBlanks depth)
            (length_lt_separated _ items (']' :: rest) nonempty) rest]
          rfl
  | @object fields sorted floatFree induction =>
      intro rest ends
      rw [asciiCharacters_object, List.cons_append, List.cons_append, List.append_assoc,
        List.singleton_append]
      cases depth with
      | zero => rfl
      | succ depth =>
          have reads : ∀ field ∈ fields,
              ReadsBack (readValueWithin depth) field.2.asciiCharacters field.2 ∨
                Refuses (readValueWithin depth) field.2.asciiCharacters := by
            intro field member
            rcases Nat.lt_or_ge depth field.2.nesting with deep | shallow
            · exact .inr (induction field member deep)
            · exact .inl ((floatFree field member).readsBack shallow)
          have refused : ∃ field ∈ fields,
              Refuses (readValueWithin depth) field.2.asciiCharacters := by
            rcases lt_nestingOfFields_iff.mp (Nat.lt_of_succ_lt_succ deep) with
              ⟨field, member, deep⟩
            exact ⟨field, member, induction field member deep⟩
          rw [readValueWithin_object, readFieldsWith_separated_refused reads refused
            (length_lt_separated_fields _ _ _ fields ('\x7d' :: rest)) rest]
          rfl

end Value.IsFloatFree

/-! ## Texts -/

theorem ascii_of_mem_asciiCharacter {character : Char} :
    ∀ written ∈ asciiCharacter character, written.toNat < 0x80 := by
  rw [asciiCharacter]
  split
  case isTrue ascii => exact List.forall_mem_singleton.mpr ascii
  case isFalse =>
    intro written member
    rcases List.mem_flatMap.mp member with ⟨unit, _, inUnit⟩
    exact escapedUnit_ascii unit written inUnit

theorem toList_ascii (value : Value) : value.ascii.toList = value.asciiCharacters :=
  String.toList_ofList

/-- The ASCII form consists of ASCII characters and belongs to one value only. It is read
back as this value if fewer than 128 arrays and objects are inside one another, and
otherwise refused. -/
theorem ascii_round_trip {value : Value} (floatFree : value.IsFloatFree) :
    (∀ character ∈ value.ascii.toList, character.toNat < 0x80) ∧
      read value.ascii =
        (if value.nesting < 128 then .ok value else .error .malformed) ∧
      ∀ other : Value, other.IsFloatFree → other.ascii = value.ascii → other = value := by
  refine ⟨?_, ?_, ?_⟩
  · intro character member
    rw [toList_ascii] at member
    rcases List.mem_flatMap.mp member with ⟨source, _, written⟩
    exact ascii_of_mem_asciiCharacter character written
  · rw [read, toList_ascii]
    split
    case isTrue shallow =>
      have reads := floatFree.readsBack (Nat.le_of_lt_succ shallow) [] .nothing
      rw [List.append_nil] at reads
      rw [depthLimit, reads]
      rfl
    case isFalse deep =>
      have refused := floatFree.refuses (Nat.not_lt.mp deep) [] .nothing
      rw [List.append_nil] at refused
      rw [depthLimit, refused]
      rfl
  · intro other otherFree same
    -- Both are read from the same characters by a reader that may enter all of their brackets.
    have written : other.asciiCharacters = value.asciiCharacters := by
      rw [← toList_ascii, same, toList_ascii]
    have reads := floatFree.readsBack (Nat.le_max_left _ other.nesting) [] .nothing
    have otherReads := otherFree.readsBack (Nat.le_max_right value.nesting _) [] .nothing
    rw [written, reads] at otherReads
    cases otherReads
    rfl

private def escapes : Value :=
  .object [("", .array [.integer (-0x8000000000000000), .null]),
    ("\"\\u0041", .text "é𝄞\x01\\")]

private theorem escapes_isFloatFree : escapes.IsFloatFree := by
  refine .object (by decide) (List.forall_mem_cons.mpr ⟨?_, List.forall_mem_singleton.mpr ?_⟩)
  · exact .array (List.forall_mem_cons.mpr
      ⟨.integer (by decide) (by decide), List.forall_mem_singleton.mpr .null⟩)
  · exact .text _

theorem ascii_round_trip_escapes :
    escapes.IsFloatFree ∧ escapes.nesting = 2 ∧
      escapes.ascii = "\x7b\"\":[-9223372036854775808,null],\"\\\"\\\\u0041\":\"" ++
        "\\u00e9\\ud834\\udd1e\\u0001\\\\\"\x7d" ∧
      read escapes.ascii = .ok escapes := by
  have shallow : escapes.nesting = 2 := by decide
  refine ⟨escapes_isFloatFree, shallow, by decide +kernel, ?_⟩
  rw [(ascii_round_trip escapes_isFloatFree).2.1, shallow]
  rfl

end CommandReference.Json
