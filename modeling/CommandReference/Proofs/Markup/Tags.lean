import CommandReference.Markup.Event
import CommandReference.Proofs.Markup.Attribute

namespace CommandReference.Markup

/-! Tags are found where they are written. Nothing that stands inside a tag ends it early,
because quotes come in pairs and hide what is between them, and all that stands between
tags is dropped. -/

variable {before content : List Char}

/-! ## Inside a construct -/

namespace Construct

/-- A construct that holds `before` goes on through the content, and is `later` then. -/
def Passes (construct : Construct) (before content : List Char) (later : Construct) : Prop :=
  ∀ position rest, ∃ next,
    tagsFrom position (some (construct, before.reverse)) (content ++ rest) =
      tagsFrom next (some (later, (before ++ content).reverse)) rest

namespace Passes

variable {construct middle later : Construct} {first second : List Char}

theorem nil : construct.Passes before [] construct := fun position _ => ⟨position, by simp⟩

theorem append (passesFirst : construct.Passes before first middle)
    (passesSecond : middle.Passes (before ++ first) second later) :
    construct.Passes before (first ++ second) later := by
  intro position rest
  obtain ⟨between, readFirst⟩ := passesFirst position (second ++ rest)
  obtain ⟨next, readSecond⟩ := passesSecond between rest
  exact ⟨next, by rw [List.append_assoc, readFirst, readSecond, List.append_assoc]⟩

theorem cons {character : Char} {rest : List Char}
    (advances : construct.advance before.reverse character = some middle)
    (passes : middle.Passes (before ++ [character]) rest later) :
    construct.Passes before (character :: rest) later := by
  intro position after
  obtain ⟨next, read⟩ := passes (position + character.utf8Size) after
  refine ⟨next, ?_⟩
  rw [List.reverse_append, List.reverse_singleton, List.singleton_append] at read
  rw [List.cons_append, tagsFrom, advances]
  dsimp only
  rw [read, List.append_assoc, List.singleton_append]

theorem of_forall (stays : ∀ character ∈ content, ∀ reversed,
    construct.advance reversed character = some construct) :
    construct.Passes before content construct := by
  induction content generalizing before with
  | nil => exact nil
  | cons character content induction =>
      obtain ⟨here, below⟩ := List.forall_mem_cons.mp stays
      exact cons (here _) (induction below)

end Passes

def isTagCharacter (character : Char) : Bool :=
  character != '>' && character != '"' && character != '\x27'

theorem isTagCharacter_of_isQualifiedCharacter {character : Char}
    (plain : isQualifiedCharacter character = true) : isTagCharacter character = true := by
  have differs {other : Char} (strange : isQualifiedCharacter other = false) :
      (character != other) = true :=
    bne_iff_ne.mpr (ne_of_isQualifiedCharacter plain strange)
  simp [isTagCharacter, differs (by decide : isQualifiedCharacter '>' = false),
    differs (by decide : isQualifiedCharacter '"' = false),
    differs (by decide : isQualifiedCharacter '\x27' = false)]

theorem isTagCharacter_of_isBlank {character : Char} (blank : isBlank character = true) :
    isTagCharacter character = true := by
  simp only [isBlank, Bool.or_eq_true, decide_eq_true_eq] at blank
  rcases blank with ((rfl | rfl) | rfl) | rfl <;> decide

theorem advance_opening {character : Char} (plain : isTagCharacter character = true)
    (reversed : List Char) :
    (opening none).advance reversed character = some (opening none) := by
  simp only [isTagCharacter, Bool.and_eq_true, bne_iff_ne] at plain
  simp [advance, advanceQuote, plain]

theorem advance_closing {character : Char} (plain : isTagCharacter character = true)
    (reversed : List Char) :
    (closing none).advance reversed character = some (closing none) := by
  simp only [isTagCharacter, Bool.and_eq_true, bne_iff_ne] at plain
  simp [advance, advanceQuote, plain]

theorem passes_opening (plain : ∀ character ∈ content, isTagCharacter character = true) :
    (opening none).Passes before content (opening none) :=
  .of_forall fun character member => advance_opening (plain character member)

theorem passes_quoted {value : List Char} (unquoted : '"' ∉ value) :
    (opening none).Passes before ('"' :: value ++ ['"']) (opening none) := by
  have inside : ∀ character ∈ value, ∀ reversed,
      (opening (some '"')).advance reversed character = some (opening (some '"')) := by
    intro character member reversed
    have noQuote : character ≠ '"' := fun equal => unquoted (equal ▸ member)
    simp [advance, advanceQuote, noQuote]
  exact .cons rfl (.append (.of_forall inside) (.cons rfl .nil))

end Construct

open Construct

theorem WrittenAttribute.passes (written : WrittenAttribute) :
    (opening none).Passes before written.characters (opening none) := by
  have gap : ∀ character ∈ written.gap.characters, isTagCharacter character = true :=
    fun character member =>
      isTagCharacter_of_isBlank (List.all_eq_true.mp written.gap.blank character member)
  have key : ∀ character ∈ written.key ++ ['='], isTagCharacter character = true := by
    refine List.forall_mem_append.mpr
      ⟨fun character member => ?_, List.forall_mem_singleton.mpr (by decide)⟩
    exact isTagCharacter_of_isQualifiedCharacter
      (written.isQualifiedCharacter_of_mem_key character member)
  have parts : written.characters =
      written.gap.characters ++ ((written.key ++ ['=']) ++ ('"' :: written.value ++ ['"'])) := by
    simp [WrittenAttribute.characters]
  rw [parts]
  exact (passes_opening gap).append
    ((passes_opening key).append (passes_quoted written.quote_not_mem_value))

theorem Head.passes (head : Head) :
    (opening none).Passes before head.characters (opening none) := by
  have attributes (written : List WrittenAttribute) (before : List Char) :
      (opening none).Passes before (written.flatMap WrittenAttribute.characters)
        (opening none) := by
    induction written generalizing before with
    | nil => exact .nil
    | cons foremost others induction => exact foremost.passes.append (induction _)
  refine .append (.append (passes_opening fun character member => ?_) (attributes _ _))
    (passes_opening fun character member => ?_)
  · exact isTagCharacter_of_isQualifiedCharacter
      (head.isQualifiedCharacter_of_mem character member)
  · exact isTagCharacter_of_isBlank
      (List.all_eq_true.mp head.padding.blank character member)

/-! ## Whole constructs -/

/-- The characters hold exactly the given tags, whatever follows them. -/
def HoldsTags (characters : List Char) (tags : List Tag) : Prop :=
  ∀ position rest, ∃ next placed, placed.map PlacedTag.tag = tags ∧
    tagsFrom position none (characters ++ rest) = (tagsFrom next none rest).prepend placed

namespace HoldsTags

variable {first second : List Char} {firstTags secondTags : List Tag}

theorem nil : HoldsTags [] [] := fun position _ => ⟨position, [], rfl, rfl⟩

theorem append (holdsFirst : HoldsTags first firstTags)
    (holdsSecond : HoldsTags second secondTags) :
    HoldsTags (first ++ second) (firstTags ++ secondTags) := by
  intro position rest
  obtain ⟨middle, placedFirst, rfl, readFirst⟩ := holdsFirst position (second ++ rest)
  obtain ⟨next, placedSecond, rfl, readSecond⟩ := holdsSecond middle rest
  refine ⟨next, placedFirst ++ placedSecond, List.map_append, ?_⟩
  rw [List.append_assoc, readFirst, readSecond]
  simp [Reading.prepend]

theorem of_construct (construct : Construct) {later : Construct} {tag? : Option Tag}
    (starts : ∀ rest, Construct.ofStart (content ++ '>' :: rest) = .ok construct)
    (passes : construct.Passes [] content later)
    (ends : later.advance content.reverse '>' = none)
    (isTag : later.tag? content = .ok tag?) :
    HoldsTags ('<' :: content ++ ['>']) tag?.toList := by
  intro position rest
  obtain ⟨stop, read⟩ := passes (position + '<'.utf8Size) ('>' :: rest)
  refine ⟨stop + '>'.utf8Size, tag?.toList.map (⟨·, stop + '>'.utf8Size⟩),
    by simp [Function.comp_def], ?_⟩
  rw [List.nil_append] at read
  rw [List.append_assoc, List.singleton_append, List.cons_append, tagsFrom, if_pos rfl, starts]
  dsimp only
  rw [← List.reverse_nil, read, tagsFrom, ends]
  dsimp only
  rw [List.reverse_reverse, isTag]

end HoldsTags

/-! ## What is no tag -/

theorem holdsTags_text {characters : List Char} (free : '<' ∉ characters) :
    HoldsTags characters [] := by
  intro position rest
  suffices ∃ next, tagsFrom position none (characters ++ rest) = tagsFrom next none rest by
    obtain ⟨next, read⟩ := this
    exact ⟨next, [], rfl, read⟩
  induction characters generalizing position with
  | nil => exact ⟨position, rfl⟩
  | cons character characters induction =>
      obtain ⟨noTag, below⟩ := List.ne_and_not_mem_of_not_mem_cons free
      rw [List.cons_append, tagsFrom, if_neg noTag.symm]
      exact induction below _

/-- A comment cannot end before the two dashes at its end, because the two at its
beginning do not count. -/
theorem passes_comment (free : '-' ∉ content)
    (opened : before.reverse.take 2 ≠ ['-', '-'] ∨ Utf8.length before.reverse ≤ 4) :
    Construct.comment.Passes before content .comment := by
  induction content generalizing before with
  | nil => exact .nil
  | cons character content induction =>
      obtain ⟨noDash, below⟩ := List.ne_and_not_mem_of_not_mem_cons free
      refine .cons ?_ (induction below (.inl ?_))
      · rw [Construct.advance, if_neg]
        intro ends
        simp only [Bool.and_eq_true, decide_eq_true_eq] at ends
        exact opened.elim (· ends.1.2) fun short => absurd ends.2 (Nat.not_lt.mpr short)
      · simp [noDash.symm]

theorem length_le_utf8Length (characters : List Char) :
    characters.length ≤ Utf8.length characters := by
  induction characters with
  | nil => exact Nat.le_refl 0
  | cons character characters induction =>
      have size := character.utf8Size_pos
      rw [List.length_cons, Utf8.length]
      omega

theorem holdsTags_comment {characters : List Char} (free : '-' ∉ characters) :
    HoldsTags ("<!--".toList ++ characters ++ "-->".toList) [] := by
  have starts : Construct.comment.Passes [] "!--".toList .comment :=
    .cons rfl (.cons rfl (.cons rfl .nil))
  have inside : Construct.comment.Passes "!--".toList characters .comment :=
    passes_comment free (.inr (by decide))
  have stops : Construct.comment.Passes ("!--".toList ++ characters) "--".toList .comment :=
    .cons rfl (.cons rfl .nil)
  have ends : Construct.comment.advance ("!--".toList ++ characters ++ "--".toList).reverse '>' =
      none := by
    have long := length_le_utf8Length ("!--".toList ++ characters ++ "--".toList).reverse
    have bound : 4 < Utf8.length ("!--".toList ++ characters ++ "--".toList).reverse := by
      simp at long ⊢
      omega
    simp [Construct.advance] at bound ⊢
    omega
  have whole := HoldsTags.of_construct .comment (fun rest => rfl)
    ((starts.append inside).append stops) ends rfl
  simpa using whole

theorem holdsTags_declaration {characters : List Char} (free : '>' ∉ characters) :
    HoldsTags ("<?xml".toList ++ characters ++ "?>".toList) [] := by
  have inside : '>' ∉ "?xml".toList ++ characters ++ ['?'] := by simp [free]
  have passes : Construct.instruction.Passes []
      ("?xml".toList ++ characters ++ ['?']) .instruction :=
    .of_forall fun character member reversed => by
      simp [Construct.advance, ne_of_mem_of_not_mem member inside]
  have ends : Construct.instruction.advance
      ("?xml".toList ++ characters ++ ['?']).reverse '>' = none := by
    simp [Construct.advance]
  have isTag : Construct.instruction.tag? ("?xml".toList ++ characters ++ ['?']) =
      .ok none := by
    simp [Construct.tag?]
  have whole := HoldsTags.of_construct .instruction (fun rest => rfl) passes ends isTag
  simpa using whole

theorem Aside.holdsTags (between : Aside) : HoldsTags between.characters [] := by
  cases between with
  | text characters free => exact holdsTags_text free
  | comment characters free => exact holdsTags_comment free
  | declaration characters free => exact holdsTags_declaration free

/-! ## Tags -/

def NoSlashAtEnd (content : List Char) : Prop := ∀ last ∈ content.getLast?, last ≠ '/'

namespace NoSlashAtEnd

theorem of_forall (plain : ∀ character ∈ content, character ≠ '/') : NoSlashAtEnd content :=
  fun last atEnd => plain last (List.mem_of_mem_getLast? atEnd)

theorem append {first second : List Char} (beforeSecond : NoSlashAtEnd first)
    (atEnd : NoSlashAtEnd second) : NoSlashAtEnd (first ++ second) := by
  intro last isLast
  rw [List.getLast?_append, Option.mem_def, Option.or_eq_some_iff] at isLast
  rcases isLast with isLast | ⟨-, isLast⟩
  · exact atEnd last isLast
  · exact beforeSecond last isLast

theorem tag?_eq (noSlash : NoSlashAtEnd content) (quote : Option Char) :
    (opening quote).tag? content = .ok (some (.opening content)) := by
  rw [Construct.tag?]
  split
  case h_1 reversed isReverse =>
    have isLast : content.getLast? = some '/' := by
      rw [← List.head?_reverse, isReverse]
      rfl
    exact absurd rfl (noSlash '/' isLast)
  case h_2 => rfl

end NoSlashAtEnd

theorem WrittenAttribute.noSlashAtEnd (written : WrittenAttribute) :
    NoSlashAtEnd written.characters := by
  intro last isLast
  rw [characters, List.getLast?_concat] at isLast
  cases isLast
  decide

theorem Head.noSlashAtEnd (head : Head) : NoSlashAtEnd head.characters := by
  have attributes (written : List WrittenAttribute) :
      NoSlashAtEnd (written.flatMap WrittenAttribute.characters) := by
    induction written with
    | nil => exact nofun
    | cons foremost others induction => exact foremost.noSlashAtEnd.append induction
  refine .append (.append (.of_forall fun character member => ?_) (attributes _))
    (.of_forall fun character member => ?_)
  · exact ne_of_isQualifiedCharacter (head.isQualifiedCharacter_of_mem _ member) (by decide)
  · rintro rfl
    exact absurd (List.all_eq_true.mp head.padding.blank '/' member) (by decide)

theorem ofStart_of_isQualifiedCharacter {character : Char}
    (plain : isQualifiedCharacter character = true) (rest : List Char) :
    Construct.ofStart (character :: rest) = .ok (opening none) := by
  have slash : character ≠ '/' := ne_of_isQualifiedCharacter plain (by decide)
  have question : character ≠ '?' := ne_of_isQualifiedCharacter plain (by decide)
  have exclamation : character ≠ '!' := ne_of_isQualifiedCharacter plain (by decide)
  unfold Construct.ofStart
  split <;> simp_all

namespace Head

theorem ofStart_characters (head : Head) (rest : List Char) :
    Construct.ofStart (head.characters ++ rest) = .ok (opening none) := by
  obtain ⟨first, others, name⟩ := List.exists_cons_of_ne_nil head.qualified_ne_nil
  have plain := head.isQualifiedCharacter_of_mem first (name ▸ List.mem_cons_self)
  rw [characters, name, List.append_assoc, List.append_assoc, List.cons_append]
  exact ofStart_of_isQualifiedCharacter plain _

theorem holdsTags_opening (head : Head) :
    HoldsTags ('<' :: head.characters ++ ['>']) [.opening head.characters] :=
  .of_construct (opening none) (fun _ => head.ofStart_characters _) head.passes rfl
    (head.noSlashAtEnd.tag?_eq none)

theorem holdsTags_empty (head : Head) :
    HoldsTags ('<' :: (head.characters ++ ['/']) ++ ['>']) [.empty head.characters] := by
  have isTag : (opening none).tag? (head.characters ++ ['/']) =
      .ok (some (.empty head.characters)) := by
    simp [Construct.tag?]
  refine .of_construct (opening none) (fun rest => ?_)
    (head.passes.append (passes_opening (List.forall_mem_singleton.mpr (by decide)))) rfl isTag
  rw [List.append_assoc]
  exact head.ofStart_characters _

theorem holdsTags_closing (head : Head) (padding : Blanks) :
    HoldsTags ('<' :: ('/' :: (head.qualified ++ padding.characters)) ++ ['>'])
      [.closing (head.qualified ++ padding.characters)] := by
  have plain : ∀ character ∈ '/' :: (head.qualified ++ padding.characters),
      isTagCharacter character = true := by
    refine List.forall_mem_cons.mpr ⟨by decide, List.forall_mem_append.mpr ⟨?_, ?_⟩⟩
    · intro character member
      exact isTagCharacter_of_isQualifiedCharacter
        (head.isQualifiedCharacter_of_mem character member)
    · intro character member
      exact isTagCharacter_of_isBlank (List.all_eq_true.mp padding.blank character member)
  exact .of_construct (closing none) (fun _ => rfl)
    (.of_forall fun character member => advance_closing (plain character member)) rfl rfl

end Head

end CommandReference.Markup
