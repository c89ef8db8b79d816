import CommandReference.Proofs.Markup.AttributeList
import Mathlib.Data.List.TakeWhile

namespace CommandReference.Markup

/-! Attributes are read as they are written. A value in its written form holds no quote,
and its references stand for the characters of the value; a key holds neither a blank nor
an equals sign. -/

/-! ## Values -/

theorem unescapeFrom_escapeCharacter (position : Nat) (character : Char) (rest : List Char) :
    ∃ next, unescapeFrom position none (escapeCharacter character ++ rest) =
      (unescapeFrom next none rest).map (character :: ·) := by
  by_cases less : character = '<'
  · subst less
    exact ⟨_, rfl⟩
  by_cases greater : character = '>'
  · subst greater
    exact ⟨_, rfl⟩
  by_cases ampersand : character = '&'
  · subst ampersand
    exact ⟨_, rfl⟩
  by_cases apostrophe : character = '\x27'
  · subst apostrophe
    exact ⟨_, rfl⟩
  by_cases quote : character = '"'
  · subst quote
    exact ⟨_, rfl⟩
  · refine ⟨position + character.utf8Size, ?_⟩
    simp [escapeCharacter, unescapeFrom, less, greater, ampersand, apostrophe, quote]

theorem unescapeFrom_escaped (position : Nat) (characters : List Char) :
    unescapeFrom position none (characters.flatMap escapeCharacter) = .ok characters := by
  induction characters generalizing position with
  | nil => rfl
  | cons character rest induction =>
      obtain ⟨next, read⟩ := unescapeFrom_escapeCharacter position character
        (rest.flatMap escapeCharacter)
      rw [List.flatMap_cons, read, induction]
      rfl

theorem unescape_escape (value : String) : unescape (escape value).toList = .ok value := by
  rw [unescape, escape, String.toList_ofList, unescapeFrom_escaped]
  exact congrArg _ (String.ofList_toList)

theorem quote_not_mem_escape (value : String) : '"' ∉ (escape value).toList := by
  rw [escape, String.toList_ofList, List.mem_flatMap]
  rintro ⟨character, -, member⟩
  by_cases quote : character = '"'
  · subst quote
    revert member
    decide
  · revert member
    unfold escapeCharacter
    split_ifs <;> simp [Ne.symm quote]

namespace WrittenAttribute

theorem quote_not_mem_value (written : WrittenAttribute) : '"' ∉ written.value := by
  cases written with
  | pair _ _ value _ => exact quote_not_mem_escape value
  | qualifier _ _ _ unquoted => exact unquoted

end WrittenAttribute

/-! ## Names -/

def isQualifiedCharacter (character : Char) : Bool :=
  isNameCharacter character || character = ':'

theorem ne_of_isQualifiedCharacter {character other : Char}
    (plain : isQualifiedCharacter character = true)
    (strange : isQualifiedCharacter other = false) : character ≠ other := by
  rintro rfl
  simp [plain] at strange

theorem isBlank_of_isQualifiedCharacter {character : Char}
    (plain : isQualifiedCharacter character = true) : isBlank character = false := by
  cases blank : isBlank character with
  | false => rfl
  | true =>
      simp only [isBlank, Bool.or_eq_true, decide_eq_true_eq] at blank
      rcases blank with ((rfl | rfl) | rfl) | rfl <;> exact absurd plain (by decide)

namespace Name

theorem isNameCharacter_of_mem (name : Name) :
    ∀ character ∈ name.characters, isNameCharacter character = true :=
  List.all_eq_true.mp name.plain

theorem colon_not_mem (name : Name) : ':' ∉ name.characters := fun member =>
  absurd (name.isNameCharacter_of_mem ':' member) (by decide)

theorem isQualifiedCharacter_of_mem (name : Name) :
    ∀ character ∈ name.characters, isQualifiedCharacter character = true :=
  fun character member => by simp [isQualifiedCharacter, name.isNameCharacter_of_mem _ member]

theorem isQualifiedCharacter_of_mem_append (name : Name) {qualifier : List Char}
    (plain : ∀ character ∈ qualifier, isQualifiedCharacter character = true) :
    ∀ character ∈ qualifier ++ ':' :: name.characters, isQualifiedCharacter character = true :=
  List.forall_mem_append.mpr
    ⟨plain, List.forall_mem_cons.mpr ⟨by decide, name.isQualifiedCharacter_of_mem⟩⟩

end Name

namespace WrittenAttribute

theorem key_ne_nil (written : WrittenAttribute) : written.key ≠ [] := by
  cases written with
  | pair _ key _ _ => exact key.nonempty
  | qualifier _ name _ _ => exact List.cons_ne_nil 'x' _

theorem isQualifiedCharacter_of_mem_key (written : WrittenAttribute) :
    ∀ character ∈ written.key, isQualifiedCharacter character = true := by
  cases written with
  | pair _ key _ _ => exact key.isQualifiedCharacter_of_mem
  | qualifier _ name _ _ =>
      exact name.isQualifiedCharacter_of_mem_append (List.all_eq_true.mp (by decide))

end WrittenAttribute

namespace Head

theorem qualified_ne_nil (head : Head) : head.qualified ≠ [] := by
  rw [qualified]
  split
  · exact head.name.nonempty
  · simp

theorem isQualifiedCharacter_of_mem (head : Head) :
    ∀ character ∈ head.qualified, isQualifiedCharacter character = true := by
  rw [qualified]
  split
  · exact head.name.isQualifiedCharacter_of_mem
  case h_2 qualifier _ =>
    exact head.name.isQualifiedCharacter_of_mem_append qualifier.isQualifiedCharacter_of_mem

end Head

/-! ## Local names -/

theorem localName_of_not_mem {name : List Char} (unqualified : ':' ∉ name) :
    localName name = name := by
  have all : name.dropWhile (· != ':') = [] := by
    rw [List.dropWhile_eq_nil_iff]
    intro character member
    exact bne_iff_ne.mpr fun equal => unqualified (equal ▸ member)
  rw [localName, all]

theorem localName_qualified {qualifier : List Char} (plain : ':' ∉ qualifier)
    (name : List Char) : localName (qualifier ++ ':' :: name) = name := by
  have all : ∀ character ∈ qualifier, (character != ':') = true := fun character member =>
    bne_iff_ne.mpr fun equal => plain (equal ▸ member)
  rw [localName, List.dropWhile_append_of_pos all]
  rfl

theorem Head.localName_qualified (head : Head) :
    localName head.qualified = head.name.characters := by
  rw [Head.qualified]
  split
  · exact localName_of_not_mem head.name.colon_not_mem
  · exact Markup.localName_qualified (Name.colon_not_mem _) _

/-! ## Attributes -/

theorem WrittenAttribute.attributeOf_eq (written : WrittenAttribute) :
    attributeOf written.key written.value = .ok written.pair?.toList := by
  cases written with
  | pair gap key value notNamespace =>
      have notNamespace : "xmlns".toList.isPrefixOf key.characters = false := notNamespace
      rw [attributeOf, WrittenAttribute.key, notNamespace, if_neg Bool.false_ne_true,
        WrittenAttribute.value, unescape_escape, localName_of_not_mem key.colon_not_mem]
      rfl
  | qualifier gap name address unquoted => rfl

def WrittenAttribute.quoted (written : WrittenAttribute) : QuotedAttribute :=
  ⟨written.key, written.value⟩

theorem WrittenAttribute.holdsAttributes (written : WrittenAttribute)
    (further : HoldsAttributes rest later) :
    HoldsAttributes (written.characters ++ rest) (written.quoted :: later) := by
  obtain ⟨first, others, key⟩ := List.exists_cons_of_ne_nil written.key_ne_nil
  have plain := written.isQualifiedCharacter_of_mem_key
  rw [key] at plain
  obtain ⟨here, below⟩ := List.forall_mem_cons.mp plain
  have continues : ∀ character ∈ others, isBlank character = false ∧ character ≠ '=' :=
    fun character member => ⟨isBlank_of_isQualifiedCharacter (below character member),
      ne_of_isQualifiedCharacter (below character member) (by decide)⟩
  have parts : written.characters ++ rest = written.gap.characters ++
      first :: (others ++ ([] ++ '=' :: ([] ++ '"' :: (written.value ++ '"' :: rest)))) := by
    simp [WrittenAttribute.characters, key]
  rw [parts, quoted, key]
  exact .blanks written.gap.blank
    (.quoted (isBlank_of_isQualifiedCharacter here) continues rfl rfl (.inl rfl)
      written.quote_not_mem_value further)

theorem holdsAttributes_written (attributes : List WrittenAttribute) (padding : Blanks) :
    HoldsAttributes (attributes.flatMap WrittenAttribute.characters ++ padding.characters)
      (attributes.map WrittenAttribute.quoted) := by
  induction attributes with
  | nil =>
      rw [List.flatMap_nil, List.nil_append, ← List.append_nil padding.characters]
      exact .blanks padding.blank .nil
  | cons written attributes induction =>
      rw [List.flatMap_cons, List.append_assoc]
      exact written.holdsAttributes induction

theorem contribute_written (attributes : List WrittenAttribute) :
    QuotedAttribute.Contribute (attributes.map WrittenAttribute.quoted)
      (attributes.filterMap WrittenAttribute.pair?) := by
  induction attributes with
  | nil => exact .nil
  | cons written attributes induction =>
      have reads : attributeOf written.quoted.key written.quoted.value =
          .ok written.pair?.toList := written.attributeOf_eq
      have both := induction.cons reads
      rw [List.map_cons]
      cases contributes : written.pair? with
      | none =>
          rw [contributes] at both
          rw [List.filterMap_cons_none contributes]
          exact both
      | some pair =>
          rw [contributes] at both
          rw [List.filterMap_cons_some contributes]
          exact both

/-! ## Tags -/

namespace Head

theorem isBlank_of_mem_head? (head : Head) : ∀ character ∈
    (head.attributes.flatMap WrittenAttribute.characters ++ head.padding.characters).head?,
    isBlank character = true := by
  intro character first
  cases written : head.attributes with
  | nil =>
      rw [written, List.flatMap_nil, List.nil_append] at first
      exact List.all_eq_true.mp head.padding.blank character (List.mem_of_mem_head? first)
  | cons foremost others =>
      obtain ⟨blank, blanks, gap⟩ := List.exists_cons_of_ne_nil foremost.gap.nonempty
      have same : blank = character := by
        simpa [written, WrittenAttribute.characters, gap] using first
      have member : character ∈ foremost.gap.characters := by simp [gap, same]
      exact List.all_eq_true.mp foremost.gap.blank character member

theorem cutName_characters (head : Head) :
    cutName head.characters = (head.qualified,
      head.attributes.flatMap WrittenAttribute.characters ++ head.padding.characters) := by
  have inside : ∀ character ∈ head.qualified, (!isBlank character) = true :=
    fun character member => by
      rw [isBlank_of_isQualifiedCharacter (head.isQualifiedCharacter_of_mem _ member)]
      rfl
  have ends := head.isBlank_of_mem_head?
  rw [cutName, List.span_eq_takeWhile_dropWhile, characters, List.append_assoc,
    List.takeWhile_append_of_pos inside, List.dropWhile_append_of_pos inside]
  cases after : head.attributes.flatMap WrittenAttribute.characters ++
      head.padding.characters with
  | nil => simp
  | cons character rest => simp [ends character (by rw [after]; rfl)]

theorem attributes_characters (head : Head) :
    Markup.attributes head.characters = .ok head.pairs := by
  have cut := head.cutName_characters
  rw [cutName, List.span_eq_takeWhile_dropWhile] at cut
  refine attributes_eq_ok_iff.mpr ⟨_, ?_, ?_, contribute_written head.attributes⟩
  · rw [(Prod.mk.inj cut).2]
    exact holdsAttributes_written head.attributes head.padding
  · rw [List.map_map]
    exact head.distinct

end Head

end CommandReference.Markup
