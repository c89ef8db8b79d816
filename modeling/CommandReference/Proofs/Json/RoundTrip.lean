import CommandReference.Proofs.Json.Number
import CommandReference.Proofs.Json.Text
import CommandReference.Proofs.SortedMap
import Mathlib.Data.List.DropRight

namespace CommandReference.Json

/-! Values are read back in each form in which they are written: on one line in ASCII
characters, and over several lines. Arrays and objects are read by lemmas about any reader
of their items, so that the proof about values is one induction over a spelled value. -/

/-- The values that a reader can give back when it may enter `depth` arrays or objects:
integers fit a word, and the keys of objects are in order. -/
inductive Readable : (depth : Nat) → Value → Prop
  | null {depth : Nat} : Readable depth .null
  | boolean {depth : Nat} (value : Bool) : Readable depth (.boolean value)
  | integer {depth : Nat} {value : Int} (low : -0x8000000000000000 ≤ value)
      (high : value < wordLimit) : Readable depth (.integer value)
  | text {depth : Nat} (value : String) : Readable depth (.text value)
  | array {depth : Nat} {items : List Value}
      (readable : ∀ item ∈ items, Readable depth item) : Readable (depth + 1) (.array items)
  | object {depth : Nat} {fields : List (String × Value)}
      (sorted : fields.Pairwise fun left right => left.1 < right.1)
      (readable : ∀ field ∈ fields, Readable depth field.2) :
      Readable (depth + 1) (.object fields)

/-! ## Blanks -/

theorem skipBlanks_cons {character : Char} (notBlank : isBlank character = false)
    (rest : List Char) : skipBlanks (character :: rest) = character :: rest :=
  List.dropWhile_cons_of_neg (by rw [notBlank]; exact Bool.false_ne_true)

theorem skipBlanks_blank {character : Char} (blank : isBlank character = true)
    (rest : List Char) : skipBlanks (character :: rest) = skipBlanks rest :=
  List.dropWhile_cons_of_pos blank

theorem skipBlanks_skipBlanks (characters : List Char) :
    skipBlanks (skipBlanks characters) = skipBlanks characters :=
  List.dropWhile_idempotent ..

theorem isBlank_of_mem_newLine {depth : Nat} :
    ∀ character ∈ newLine depth, isBlank character = true := by
  rw [newLine, List.forall_mem_cons]
  refine ⟨rfl, fun character member => ?_⟩
  rw [List.eq_of_mem_replicate member]
  rfl

inductive IsMargin : List Char → Prop
  | nothing : IsMargin []
  | line (depth : Nat) : IsMargin (newLine depth)

namespace IsMargin

variable {margin : List Char} (isMargin : IsMargin margin)
include isMargin

theorem skipBlanks_append (rest : List Char) :
    skipBlanks (margin ++ rest) = skipBlanks rest := by
  cases isMargin with
  | nothing => rfl
  | line depth => exact List.dropWhile_append_of_pos isBlank_of_mem_newLine

theorem endsValue {rest : List Char} (ends : EndsValue rest) :
    EndsValue (margin ++ rest) := by
  cases isMargin with
  | nothing => exact ends
  | line depth => exact .newLine _

end IsMargin

/-! ## Spelled values -/

def spelledField (spelling : Char → List Char) (margin : List Char)
    (write : String × Value → List Char) (field : String × Value) : List Char :=
  margin ++ '"' :: field.1.toList.flatMap spelling ++ '"' :: ':' :: write field

/-- Characters that spell a value, which a reader can give back when it may enter `depth`
arrays or objects. Blanks may stand before it. -/
inductive Spelled : (depth : Nat) → Value → List Char → Prop
  | blank {depth : Nat} {value : Value} {first : Char} {characters : List Char}
      (isBlank : isBlank first = true) (spelled : Spelled depth value characters) :
      Spelled depth value (first :: characters)
  | null {depth : Nat} : Spelled depth .null Value.null.characters
  | boolean {depth : Nat} (value : Bool) :
      Spelled depth (.boolean value) (Value.boolean value).characters
  | integer {depth : Nat} {value : Int} (low : -0x8000000000000000 ≤ value)
      (high : value < wordLimit) : Spelled depth (.integer value) (toString value).toList
  | text {depth : Nat} {spelling : Char → List Char} (spells : IsSpelling spelling)
      (value : String) :
      Spelled depth (.text value) ('"' :: value.toList.flatMap spelling ++ ['"'])
  | array {depth : Nat} {items : List Value} {write : Value → List Char}
      {margin : List Char} (isMargin : IsMargin margin)
      (spelled : ∀ item ∈ items, Spelled depth item (write item)) :
      Spelled (depth + 1) (.array items)
        ('[' :: separated (items.map write) ++ margin ++ [']'])
  | object {depth : Nat} {fields : List (String × Value)} {spelling : Char → List Char}
      {write : String × Value → List Char} {keyMargin margin : List Char}
      (spells : IsSpelling spelling) (isKeyMargin : IsMargin keyMargin)
      (isMargin : IsMargin margin)
      (sorted : fields.Pairwise fun left right => left.1 < right.1)
      (spelled : ∀ field ∈ fields, Spelled depth field.2 (write field)) :
      Spelled (depth + 1) (.object fields)
        ('\x7b' :: separated (fields.map (spelledField spelling keyMargin write)) ++ margin ++
          ['\x7d'])

namespace Spelled

variable {depth : Nat} {value : Value} {characters : List Char}

theorem blanks {blanks : List Char} (areBlank : ∀ character ∈ blanks, isBlank character = true)
    (spelled : Spelled depth value characters) : Spelled depth value (blanks ++ characters) := by
  induction blanks with
  | nil => exact spelled
  | cons first rest induction =>
      obtain ⟨isBlank, areBlank⟩ := List.forall_mem_cons.mp areBlank
      exact .blank isBlank (induction areBlank)

end Spelled

/-! ## Forms -/

def Value.asciiCharacters (value : Value) : List Char :=
  value.characters.flatMap asciiCharacter

theorem charactersOfItems_eq_map (items : List Value) :
    charactersOfItems items = items.map Value.characters := by
  induction items with
  | nil => rfl
  | cons item items induction => rw [charactersOfItems, induction, List.map_cons]

theorem charactersOfFields_eq_map (fields : List (String × Value)) :
    charactersOfFields fields =
      fields.map fun field => quoted field.1 ++ ':' :: field.2.characters := by
  induction fields with
  | nil => rfl
  | cons field fields induction => rw [charactersOfFields, induction, List.map_cons]

theorem indentedItems_eq_map (level : Nat) (items : List Value) :
    indentedItems level items = items.map (Value.indentedCharacters level) := by
  induction items with
  | nil => rfl
  | cons item items induction => rw [indentedItems, induction, List.map_cons]

theorem indentedFields_eq_map (level : Nat) (fields : List (String × Value)) :
    indentedFields level fields =
      fields.map fun field =>
        quoted field.1 ++ ':' :: ' ' :: field.2.indentedCharacters level := by
  induction fields with
  | nil => rfl
  | cons field fields induction => rw [indentedFields, induction, List.map_cons]

theorem indentedLines_eq_separated (level : Nat) (entries : List (List Char)) :
    indentedLines level entries = separated (entries.map (newLine level ++ ·)) := by
  induction entries with
  | nil => rfl
  | cons entry rest induction =>
      cases rest with
      | nil => rfl
      | cons next rest =>
          rw [indentedLines, induction]
          · simp [separated]
          · exact List.cons_ne_nil next rest

theorem flatMap_separated (written : List (List Char)) :
    (separated written).flatMap asciiCharacter =
      separated (written.map fun item => item.flatMap asciiCharacter) := by
  induction written with
  | nil => rfl
  | cons item rest induction =>
      cases rest with
      | nil => rfl
      | cons next rest =>
          rw [separated, List.flatMap_append, List.flatMap_cons, induction]
          · rfl
          · exact List.cons_ne_nil next rest

theorem asciiCharacters_text (text : String) :
    (Value.text text).asciiCharacters =
      '"' :: text.toList.flatMap writtenCharacter ++ ['"'] :=
  flatMap_quoted text

theorem asciiCharacters_integer (value : Int) :
    (Value.integer value).asciiCharacters = (toString value).toList := by
  show (toString value).toList.flatMap asciiCharacter = (toString value).toList
  apply flatMap_ascii
  have digits : ∀ character ∈ Nat.toDigits 10 value.natAbs, character.toNat < 0x80 := by
    intro character member
    have digit := Nat.isDigit_of_mem_toDigits (by decide) (by decide) member
    rw [Char.isDigit, Bool.and_eq_true, decide_eq_true_eq, decide_eq_true_eq] at digit
    have high : character.toNat ≤ 57 := digit.2
    omega
  rw [toList_integer]
  split
  · exact List.forall_mem_cons.mpr ⟨by decide, digits⟩
  · exact digits

theorem asciiCharacters_array (items : List Value) :
    (Value.array items).asciiCharacters =
      '[' :: separated (items.map Value.asciiCharacters) ++ [']'] := by
  show ('[' :: separated (charactersOfItems items) ++ [']']).flatMap asciiCharacter = _
  rw [List.flatMap_append, List.flatMap_cons, flatMap_separated, charactersOfItems_eq_map,
    List.map_map]
  rfl

theorem asciiCharacters_object (fields : List (String × Value)) :
    (Value.object fields).asciiCharacters =
      '\x7b' :: separated (fields.map (spelledField writtenCharacter []
        fun field => field.2.asciiCharacters)) ++ ['\x7d'] := by
  have written : ((charactersOfFields fields).map fun item => item.flatMap asciiCharacter) =
      fields.map (spelledField writtenCharacter [] fun field => field.2.asciiCharacters) := by
    rw [charactersOfFields_eq_map, List.map_map]
    apply List.map_congr_left
    intro field _
    rw [Function.comp_apply, List.flatMap_append, List.flatMap_cons, flatMap_quoted,
      spelledField, List.append_assoc, ← Value.asciiCharacters]
    simp [asciiCharacter]
  show ('\x7b' :: separated (charactersOfFields fields) ++ ['\x7d']).flatMap asciiCharacter = _
  rw [List.flatMap_append, List.flatMap_cons, flatMap_separated, written]
  rfl

theorem Readable.spelled_ascii {depth : Nat} {value : Value} (readable : Readable depth value) :
    Spelled depth value value.asciiCharacters := by
  induction readable with
  | null => exact .null
  | boolean value => cases value <;> exact .boolean _
  | integer low high =>
      rw [asciiCharacters_integer]
      exact .integer low high
  | text value =>
      rw [asciiCharacters_text]
      exact .text isSpelling_written value
  | array readable induction =>
      have spelled := Spelled.array .nothing induction
      rwa [List.append_nil, ← asciiCharacters_array] at spelled
  | object sorted readable induction =>
      have spelled := Spelled.object isSpelling_written .nothing .nothing sorted induction
      rwa [List.append_nil, ← asciiCharacters_object] at spelled

theorem bracketed_map (opening closing : Char) (level : Nat) (write : α → List Char) (entry : α)
    (rest : List α) :
    bracketed opening closing level ((entry :: rest).map write) =
      opening :: separated ((entry :: rest).map (newLine (level + 1) ++ write ·)) ++
        newLine level ++ [closing] := by
  have separate := indentedLines_eq_separated (level + 1) ((entry :: rest).map write)
  rw [List.map_map] at separate
  exact congrArg (opening :: · ++ newLine level ++ [closing]) separate

theorem Readable.spelled_indented {depth : Nat} {value : Value}
    (readable : Readable depth value) (level : Nat) :
    Spelled depth value (value.indentedCharacters level) := by
  induction readable generalizing level with
  | null => exact .null
  | boolean value => exact .boolean value
  | integer low high => exact .integer low high
  | text value => exact .text isSpelling_quoted value
  | @array depth items readable induction =>
      have lines : ∀ item ∈ items, Spelled depth item
          (newLine (level + 1) ++ item.indentedCharacters (level + 1)) :=
        fun item member => (induction item member (level + 1)).blanks isBlank_of_mem_newLine
      rw [Value.indentedCharacters, indentedItems_eq_map]
      cases items with
      | nil => exact .array .nothing lines
      | cons item rest =>
          rw [bracketed_map]
          exact .array (.line level) lines
  | @object depth fields sorted readable induction =>
      have values : ∀ field ∈ fields, Spelled depth field.2
          (' ' :: field.2.indentedCharacters (level + 1)) :=
        fun field member => .blank rfl (induction field member (level + 1))
      rw [Value.indentedCharacters, indentedFields_eq_map]
      cases fields with
      | nil => exact .object isSpelling_quoted .nothing .nothing sorted values
      | cons field rest =>
          have written : (fun field : String × Value => newLine (level + 1) ++
              (quoted field.1 ++ ':' :: ' ' :: field.2.indentedCharacters (level + 1))) =
              spelledField quotedCharacter (newLine (level + 1))
                fun field => ' ' :: field.2.indentedCharacters (level + 1) := by
            funext field
            simp [spelledField, quoted]
          rw [bracketed_map, written]
          exact .object isSpelling_quoted (.line (level + 1)) (.line level) sorted values

/-! ## Beginnings -/

def StartsValue (characters : List Char) : Prop :=
  ∀ rest, ∃ first others, skipBlanks (characters ++ rest) = first :: others ∧ first ≠ ']'

theorem toList_integer_cons (value : Int) :
    ∃ first rest, (toString value).toList = first :: rest ∧
      (first = '-' ∨ first.isDigit = true) := by
  rw [toList_integer]
  split
  · exact ⟨_, _, rfl, .inl rfl⟩
  · cases written : Nat.toDigits 10 value.natAbs with
    | nil => exact absurd written Nat.toDigits_ne_nil
    | cons digit others =>
        exact ⟨_, _, rfl, .inr (Nat.isDigit_of_mem_toDigits (by decide) (by decide)
          (written ▸ List.mem_cons_self))⟩

theorem number_start {first : Char} (number : first = '-' ∨ first.isDigit = true) :
    isBlank first = false ∧ first ≠ '[' ∧ first ≠ ']' ∧ first ≠ '\x7b' := by
  have different : ∀ other : Char, other ≠ '-' → other.isDigit = false → first ≠ other := by
    intro other notSign notDigit equal
    subst equal
    rcases number with sign | digit
    · exact notSign sign
    · rw [notDigit] at digit
      cases digit
  refine ⟨?_, different '[' (by decide) rfl, different ']' (by decide) rfl,
    different '\x7b' (by decide) rfl⟩
  rw [isBlank, decide_eq_false (different ' ' (by decide) rfl),
    decide_eq_false (different '\n' (by decide) rfl),
    decide_eq_false (different '\t' (by decide) rfl),
    decide_eq_false (different '\r' (by decide) rfl)]
  rfl

theorem startsValue_cons {first : Char} (notBlank : isBlank first = false) (notEnd : first ≠ ']')
    (others : List Char) : StartsValue (first :: others) :=
  fun rest => ⟨first, others ++ rest, skipBlanks_cons notBlank _, notEnd⟩

theorem Spelled.startsValue {depth : Nat} {value : Value} {characters : List Char}
    (spelled : Spelled depth value characters) : StartsValue characters := by
  induction spelled with
  | blank isBlank spelled induction =>
      intro rest
      rw [List.cons_append, skipBlanks_blank isBlank]
      exact induction rest
  | null => exact startsValue_cons rfl (by decide) _
  | boolean value => cases value <;> exact startsValue_cons rfl (by decide) _
  | @integer _ value low high =>
      obtain ⟨first, rest, written, number⟩ := toList_integer_cons value
      rw [written]
      exact startsValue_cons (number_start number).1 (number_start number).2.2.1 rest
  | text => exact startsValue_cons rfl (by decide) _
  | array => exact startsValue_cons rfl (by decide) _
  | object => exact startsValue_cons rfl (by decide) _

theorem Spelled.ne_nil {depth : Nat} {value : Value} {characters : List Char}
    (spelled : Spelled depth value characters) : characters ≠ [] := by
  rintro rfl
  obtain ⟨first, others, begins, _⟩ := spelled.startsValue []
  cases begins

/-! ## Items and fields -/

def following (written : List (List Char)) : List Char := written.flatMap (',' :: ·)

theorem separated_cons (item : List Char) (rest : List (List Char)) :
    separated (item :: rest) = item ++ following rest := by
  induction rest generalizing item with
  | nil => exact (List.append_nil item).symm
  | cons next rest induction =>
      rw [separated, induction]
      · rfl
      · exact List.cons_ne_nil next rest

theorem endsValue_following (written : List (List Char)) {rest : List Char}
    (ends : EndsValue rest) : EndsValue (following written ++ rest) := by
  cases written with
  | nil => exact ends
  | cons item written => exact .comma _

theorem length_le_following (written : List (List Char)) :
    written.length ≤ (following written).length := by
  induction written with
  | nil => exact Nat.le_refl 0
  | cons item written induction =>
      rw [following, List.flatMap_cons, List.length_append, List.length_cons,
        List.length_cons, ← following]
      omega

theorem length_lt_separated (write : α → List Char) (items : List α) (rest : List Char)
    (nonempty : ∀ item ∈ items, write item ≠ []) :
    items.length < (separated (items.map write) ++ rest).length + 1 := by
  cases items with
  | nil => exact Nat.zero_lt_succ _
  | cons item items =>
      have first := List.length_pos_iff.mpr (nonempty item List.mem_cons_self)
      have others := length_le_following (items.map write)
      rw [List.length_map] at others
      rw [List.map_cons, separated_cons, List.length_append, List.length_append,
        List.length_cons]
      omega

theorem length_lt_separated_fields (spelling : Char → List Char) (margin : List Char)
    (write : String × Value → List Char) (fields : List (String × Value)) (rest : List Char) :
    fields.length <
      (separated (fields.map (spelledField spelling margin write)) ++ rest).length + 1 :=
  length_lt_separated _ fields rest fun field _ => by simp [spelledField]

section
variable {readItem : List Char → Except ReadError (Value × List Char)}

def ReadsBack (readItem : List Char → Except ReadError (Value × List Char))
    (characters : List Char) (value : Value) : Prop :=
  ∀ rest, EndsValue rest → readItem (characters ++ rest) = .ok (value, rest)

theorem readItemsWith_next (steps : Nat) {rest : List Char}
    (notEnd : (skipBlanks rest).head? ≠ some ']') :
    readItemsWith readItem (steps + 1) false (',' :: rest) =
      (readItem rest).bind fun parsed =>
        (readItemsWith readItem steps false parsed.2).map fun others =>
          (parsed.1 :: others.1, others.2) := by
  rw [readItemsWith, skipBlanks_cons rfl]
  refine (if_neg Bool.false_ne_true).trans ((if_pos rfl).trans ((if_neg notEnd).trans ?_))
  rfl

theorem readItemsWith_first (steps : Nat) {characters : List Char} {first : Char}
    {others : List Char} (begins : skipBlanks characters = first :: others)
    (notEnd : first ≠ ']')
    (skips : readItem (skipBlanks characters) = readItem characters) :
    readItemsWith readItem (steps + 1) true characters =
      (readItem characters).bind fun parsed =>
        (readItemsWith readItem steps false parsed.2).map fun others =>
          (parsed.1 :: others.1, others.2) := by
  rw [begins] at skips
  rw [readItemsWith, begins]
  split
  case h_1 equal => cases equal
  case h_2 equal => exact absurd (List.cons.inj equal).1 notEnd
  case h_3 equal =>
    cases equal
    rw [if_pos rfl, skips]
    rfl

theorem readItemsWith_closed {margin : List Char} (isMargin : IsMargin margin) (steps : Nat)
    (first : Bool) (rest : List Char) :
    readItemsWith readItem (steps + 1) first (margin ++ ']' :: rest) = .ok ([], rest) := by
  rw [readItemsWith, isMargin.skipBlanks_append, skipBlanks_cons rfl]
  rfl

section
variable {items : List Value} {write : Value → List Char} {margin : List Char}
  (reads : ∀ item ∈ items, StartsValue (write item) ∧ ReadsBack readItem (write item) item)
  (isMargin : IsMargin margin)
include reads isMargin

theorem readItemsWith_following {steps : Nat} (enough : items.length < steps)
    (rest : List Char) :
    readItemsWith readItem steps false
        (following (items.map write) ++ (margin ++ ']' :: rest)) = .ok (items, rest) := by
  induction items generalizing steps with
  | nil =>
      cases steps with
      | zero => cases enough
      | succ steps =>
          exact readItemsWith_closed isMargin steps false rest
  | cons item items induction =>
      cases steps with
      | zero => cases enough
      | succ steps =>
          obtain ⟨⟨starts, read⟩, reads⟩ := List.forall_mem_cons.mp reads
          have later := induction reads (Nat.lt_of_succ_lt_succ enough)
          have ends := endsValue_following (items.map write)
            (isMargin.endsValue (.bracket rest))
          have notEnd : (skipBlanks (write item ++ (following (items.map write) ++
              (margin ++ ']' :: rest)))).head? ≠ some ']' := by
            obtain ⟨first, others, begins, notEnd⟩ := starts _
            rw [begins]
            simpa using notEnd
          rw [List.map_cons, following, List.flatMap_cons, ← following, List.append_assoc,
            List.cons_append, readItemsWith_next steps notEnd, read _ ends]
          simp only [Except.bind, later]
          rfl

theorem readItemsWith_separated
    (skips : ∀ characters, readItem (skipBlanks characters) = readItem characters)
    {steps : Nat} (enough : items.length < steps) (rest : List Char) :
    readItemsWith readItem steps true
        (separated (items.map write) ++ (margin ++ ']' :: rest)) = .ok (items, rest) := by
  cases steps with
  | zero => cases enough
  | succ steps =>
      cases items with
      | nil => exact readItemsWith_closed isMargin steps true rest
      | cons item items =>
          obtain ⟨⟨starts, read⟩, reads⟩ := List.forall_mem_cons.mp reads
          have later := readItemsWith_following reads isMargin
            (Nat.lt_of_succ_lt_succ enough) rest
          have ends := endsValue_following (items.map write)
            (isMargin.endsValue (.bracket rest))
          obtain ⟨character, others, begins, notEnd⟩ := starts
            (following (items.map write) ++ (margin ++ ']' :: rest))
          rw [List.map_cons, separated_cons, List.append_assoc,
            readItemsWith_first steps begins notEnd (skips _), read _ ends]
          simp only [Except.bind, later]
          rfl

end

section
variable {spelling : Char → List Char} {keyMargin : List Char}

theorem skipBlanks_spelledField (spelling : Char → List Char) (isKeyMargin : IsMargin keyMargin)
    (write : String × Value → List Char) (field : String × Value) (rest : List Char) :
    skipBlanks (spelledField spelling keyMargin write field ++ rest) =
      '"' :: (field.1.toList.flatMap spelling ++ '"' :: ':' :: (write field ++ rest)) := by
  rw [spelledField, List.append_assoc, List.append_assoc, isKeyMargin.skipBlanks_append,
    List.cons_append, skipBlanks_cons rfl]
  rfl

theorem readField_spelled (spells : IsSpelling spelling) (isKeyMargin : IsMargin keyMargin)
    (write : String × Value → List Char) (field : String × Value) (rest : List Char) :
    readField readItem (skipBlanks (spelledField spelling keyMargin write field ++ rest)) =
      (readItem (write field ++ rest)).map fun parsed => ((field.1, parsed.1), parsed.2) := by
  rw [skipBlanks_spelledField spelling isKeyMargin]
  simp only [readField, readKey, spells.readText, bind, Except.bind,
    skipBlanks_cons (show isBlank ':' = false from rfl), pure, Except.pure]
  rfl

end

theorem readFieldsWith_next (steps : Nat) (rest : List Char) :
    readFieldsWith readItem (steps + 1) false (',' :: rest) =
      (readField readItem (skipBlanks rest)).bind fun parsed =>
        (readFieldsWith readItem steps false parsed.2).map fun others =>
          (parsed.1 :: others.1, others.2) := by
  rw [readFieldsWith, skipBlanks_cons rfl]
  exact (if_neg Bool.false_ne_true).trans (if_pos rfl)

theorem readFieldsWith_first (steps : Nat) {characters others : List Char}
    (begins : skipBlanks characters = '"' :: others) :
    readFieldsWith readItem (steps + 1) true characters =
      (readField readItem (skipBlanks characters)).bind fun parsed =>
        (readFieldsWith readItem steps false parsed.2).map fun others =>
          (parsed.1 :: others.1, others.2) := by
  rw [readFieldsWith, begins]
  exact if_pos rfl

theorem readFieldsWith_closed {margin : List Char} (isMargin : IsMargin margin) (steps : Nat)
    (first : Bool) (rest : List Char) :
    readFieldsWith readItem (steps + 1) first (margin ++ '\x7d' :: rest) = .ok ([], rest) := by
  rw [readFieldsWith, isMargin.skipBlanks_append, skipBlanks_cons rfl]
  rfl

section
variable {fields : List (String × Value)} {spelling : Char → List Char}
  {write : String × Value → List Char} {keyMargin margin : List Char}
  (spells : IsSpelling spelling) (isKeyMargin : IsMargin keyMargin) (isMargin : IsMargin margin)
  (reads : ∀ field ∈ fields, ReadsBack readItem (write field) field.2)
include spells isKeyMargin isMargin reads

theorem readFieldsWith_following {steps : Nat} (enough : fields.length < steps)
    (rest : List Char) :
    readFieldsWith readItem steps false
        (following (fields.map (spelledField spelling keyMargin write)) ++
          (margin ++ '\x7d' :: rest)) = .ok (fields, rest) := by
  induction fields generalizing steps with
  | nil =>
      cases steps with
      | zero => cases enough
      | succ steps => exact readFieldsWith_closed isMargin steps false rest
  | cons field fields induction =>
      cases steps with
      | zero => cases enough
      | succ steps =>
          obtain ⟨read, reads⟩ := List.forall_mem_cons.mp reads
          have later := induction reads (Nat.lt_of_succ_lt_succ enough)
          have ends := endsValue_following (fields.map (spelledField spelling keyMargin write))
            (isMargin.endsValue (.brace rest))
          rw [List.map_cons, following, List.flatMap_cons, ← following, List.append_assoc,
            List.cons_append, readFieldsWith_next, readField_spelled spells isKeyMargin,
            read _ ends]
          simp only [Except.map, Except.bind, later]

theorem readFieldsWith_separated {steps : Nat} (enough : fields.length < steps)
    (rest : List Char) :
    readFieldsWith readItem steps true
        (separated (fields.map (spelledField spelling keyMargin write)) ++
          (margin ++ '\x7d' :: rest)) = .ok (fields, rest) := by
  cases steps with
  | zero => cases enough
  | succ steps =>
      cases fields with
      | nil => exact readFieldsWith_closed isMargin steps true rest
      | cons field fields =>
          obtain ⟨read, reads⟩ := List.forall_mem_cons.mp reads
          have later := readFieldsWith_following spells isKeyMargin isMargin reads
            (Nat.lt_of_succ_lt_succ enough) rest
          have ends := endsValue_following (fields.map (spelledField spelling keyMargin write))
            (isMargin.endsValue (.brace rest))
          have begins := skipBlanks_spelledField spelling isKeyMargin write field
            (following (fields.map (spelledField spelling keyMargin write)) ++
              (margin ++ '\x7d' :: rest))
          rw [List.map_cons, separated_cons, List.append_assoc, readFieldsWith_first steps begins,
            readField_spelled spells isKeyMargin, read _ ends]
          simp only [Except.map, Except.bind, later]

end

end

/-! ## Values -/

theorem readValueWithin_skipBlanks (depth : Nat) (characters : List Char) :
    readValueWithin depth (skipBlanks characters) = readValueWithin depth characters := by
  cases depth <;> rw [readValueWithin, readValueWithin, skipBlanks_skipBlanks]

theorem readValueWithin_scalar (depth : Nat) {first : Char} {rest : List Char}
    (notBlank : isBlank first = false) (notArray : first ≠ '[') (notObject : first ≠ '\x7b') :
    readValueWithin depth (first :: rest) = readScalar (first :: rest) := by
  cases depth with
  | zero =>
      rw [readValueWithin, skipBlanks_cons notBlank]
      split
      case h_1 equal => exact absurd (List.cons.inj equal).1 notArray
      case h_2 equal => exact absurd (List.cons.inj equal).1 notObject
      case h_3 => rfl
  | succ depth =>
      rw [readValueWithin, skipBlanks_cons notBlank]
      split
      case h_1 equal => exact absurd (List.cons.inj equal).1 notArray
      case h_2 equal => exact absurd (List.cons.inj equal).1 notObject
      case h_3 => rfl

theorem readValueWithin_array (depth : Nat) (rest : List Char) :
    readValueWithin (depth + 1) ('[' :: rest) =
      (readItemsWith (readValueWithin depth) (rest.length + 1) true rest).map fun parsed =>
        (.array parsed.1, parsed.2) := by
  rw [readValueWithin, skipBlanks_cons rfl]
  rfl

theorem readValueWithin_object (depth : Nat) (rest : List Char) :
    readValueWithin (depth + 1) ('\x7b' :: rest) =
      (readFieldsWith (readValueWithin depth) (rest.length + 1) true rest).map fun parsed =>
        (.ofFields parsed.1, parsed.2) := by
  rw [readValueWithin, skipBlanks_cons rfl]
  rfl

theorem Spelled.readsBack {depth : Nat} {value : Value} {characters : List Char}
    (spelled : Spelled depth value characters) :
    ReadsBack (readValueWithin depth) characters value := by
  induction spelled with
  | @blank depth value first characters isBlank spelled induction =>
      intro rest ends
      rw [List.cons_append, ← readValueWithin_skipBlanks, skipBlanks_blank isBlank,
        readValueWithin_skipBlanks]
      exact induction rest ends
  | null =>
      intro rest ends
      exact readValueWithin_scalar _ rfl (by decide) (by decide)
  | boolean value =>
      intro rest ends
      cases value <;> exact readValueWithin_scalar _ rfl (by decide) (by decide)
  | @integer _ value low high =>
      intro rest ends
      have read := readScalar_integer low high ends
      obtain ⟨first, others, written, number⟩ := toList_integer_cons value
      obtain ⟨notBlank, notArray, _, notObject⟩ := number_start number
      rw [written, List.cons_append] at read
      rw [written, List.cons_append, readValueWithin_scalar _ notBlank notArray notObject, read]
  | text spells value =>
      intro rest ends
      rw [List.cons_append, List.cons_append, List.append_assoc,
        readValueWithin_scalar _ rfl (by decide) (by decide)]
      exact congrArg (Except.map _) (spells.readText value rest)
  | @array depth items write margin isMargin spelled induction =>
      intro rest ends
      have nonempty : ∀ item ∈ items, write item ≠ [] :=
        fun item member => (spelled item member).ne_nil
      have reads := readItemsWith_separated
        (fun item member => ⟨(spelled item member).startsValue, induction item member⟩) isMargin
        (readValueWithin_skipBlanks depth)
        (length_lt_separated write items (margin ++ ']' :: rest) nonempty) rest
      rw [List.cons_append, List.cons_append, List.cons_append, List.append_assoc,
        List.append_assoc, List.singleton_append, readValueWithin_array, reads]
      rfl
  | @object depth fields spelling write keyMargin margin spells isKeyMargin isMargin sorted
      spelled induction =>
      intro rest ends
      have reads := readFieldsWith_separated spells isKeyMargin isMargin induction
        (length_lt_separated_fields spelling keyMargin write fields (margin ++ '\x7d' :: rest)) rest
      rw [List.cons_append, List.cons_append, List.cons_append, List.append_assoc,
        List.append_assoc, List.singleton_append, readValueWithin_object, reads]
      simp only [Except.map, Value.ofFields, SortedMap.entries_ofList sorted]

theorem read_ascii {value : Value} (readable : Readable depthLimit value) :
    read value.ascii = .ok value := by
  have reads := readable.spelled_ascii.readsBack [] .nothing
  rw [List.append_nil] at reads
  rw [read, Value.ascii, String.toList_ofList, ← Value.asciiCharacters, reads]
  rfl

theorem read_indented {value : Value} (readable : Readable depthLimit value) :
    read (value.indented ++ "\n") = .ok value := by
  have reads := (readable.spelled_indented 0).readsBack ['\n'] (.newLine [])
  rw [read, String.toList_append, Value.indented, String.toList_ofList]
  have ended : "\n".toList = ['\n'] := rfl
  rw [ended, reads]
  rfl

theorem readObject_ascii {map : SortedMap String Value}
    (readable : ∀ entry ∈ map.entries, Readable (depthLimit - 1) entry.2) :
    readObject (Value.ofMap map).ascii = .ok map := by
  have fields : ∀ field ∈ map.entries,
      ReadsBack (readValueWithin (depthLimit - 1)) field.2.asciiCharacters field.2 :=
    fun field member => (readable field member).spelled_ascii.readsBack
  have short := length_lt_separated_fields writtenCharacter []
    (fun field => field.2.asciiCharacters) map.entries ['\x7d']
  have reads := readFieldsWith_separated isSpelling_written .nothing .nothing fields short []
  rw [readObject, Value.ascii, String.toList_ofList, ← Value.asciiCharacters, Value.ofMap,
    asciiCharacters_object, List.cons_append, skipBlanks_cons rfl]
  simp only [List.nil_append] at reads
  simp only [reads, bind, Except.bind, SortedMap.ofList_entries]
  rfl

end CommandReference.Json
