import CommandReference.Markup.Written
import CommandReference.Proofs.Results
import Mathlib.Data.List.Forall2
import Mathlib.Data.List.Nodup
import Mathlib.Data.List.TakeDrop

namespace CommandReference.Markup

/-! The attributes of a tag as they are written: keys, each with a value in quotes. What is
read are exactly those that declare no namespace, with the local names of their keys and
their values unescaped, provided that no key stands twice. -/

/-! ## As written -/

/-- A key and what stands between the quotes after it. -/
structure QuotedAttribute where
  key : List Char
  value : List Char

/-- What follows the name in a tag, with the attributes in it. A key begins with anything but
a blank and goes on to the next blank or equals sign; either quote may enclose a value. -/
inductive HoldsAttributes : List Char → List QuotedAttribute → Prop where
  | nil : HoldsAttributes [] []
  | blank {character : Char} (blank : isBlank character = true)
      (further : HoldsAttributes rest later) : HoldsAttributes (character :: rest) later
  | quoted {first quote : Char} {others before after value : List Char}
      (begins : isBlank first = false)
      (continues : ∀ character ∈ others, isBlank character = false ∧ character ≠ '=')
      (blankBefore : before.all isBlank = true) (blankAfter : after.all isBlank = true)
      (quotes : quote = '"' ∨ quote = '\x27') (unquoted : quote ∉ value)
      (further : HoldsAttributes rest later) :
      HoldsAttributes
        (first :: (others ++ (before ++ '=' :: (after ++ quote :: (value ++ quote :: rest)))))
        (⟨first :: others, value⟩ :: later)

theorem HoldsAttributes.blanks {blanks : List Char} (blank : blanks.all isBlank = true)
    (further : HoldsAttributes rest later) : HoldsAttributes (blanks ++ rest) later := by
  induction blanks with
  | nil => exact further
  | cons character blanks induction =>
      rw [List.all_cons, Bool.and_eq_true] at blank
      exact .blank blank.1 (induction blank.2)

namespace QuotedAttribute

def declaresNamespace (held : QuotedAttribute) : Bool :=
  namespaceKey.isPrefixOf held.key

def StandsFor (held : QuotedAttribute) (pair : String × String) : Prop :=
  pair.1 = String.ofList (localName held.key) ∧ unescape held.value = .ok pair.2

/-- The attributes of a tag bring these pairs to the tree. -/
def Contribute (attributes : List QuotedAttribute) (pairs : List (String × String)) : Prop :=
  List.Forall₂ StandsFor (attributes.filter (!·.declaresNamespace)) pairs

variable {held : QuotedAttribute} {attributes : List QuotedAttribute}
  {pairs own others : List (String × String)}

theorem Contribute.cons (reads : attributeOf held.key held.value = .ok own)
    (further : Contribute attributes others) :
    Contribute (held :: attributes) (own ++ others) := by
  rw [attributeOf] at reads
  rw [Contribute, List.filter_cons, declaresNamespace, namespaceKey]
  split at reads
  case isTrue isNamespace =>
    obtain rfl : [] = own := Except.ok.inj reads
    rw [isNamespace]
    exact further
  case isFalse notNamespace =>
    rw [Bool.not_eq_true] at notNamespace
    rw [notNamespace]
    cases unescaped : unescape held.value with
    | error reason =>
        rw [unescaped] at reads
        cases reads
    | ok value =>
        rw [unescaped] at reads
        obtain rfl : [_] = own := Except.ok.inj reads
        exact .cons ⟨rfl, unescaped⟩ further

theorem Contribute.of_cons (contribute : Contribute (held :: attributes) pairs) :
    ∃ own others, attributeOf held.key held.value = .ok own ∧
      Contribute attributes others ∧ pairs = own ++ others := by
  rw [Contribute, List.filter_cons, declaresNamespace, namespaceKey] at contribute
  rw [attributeOf]
  cases isNamespace : "xmlns".toList.isPrefixOf held.key with
  | true =>
      rw [isNamespace] at contribute
      exact ⟨[], pairs, rfl, contribute, rfl⟩
  | false =>
      rw [isNamespace] at contribute
      obtain ⟨pair, others, stands, further, rfl⟩ := List.forall₂_cons_left_iff.mp contribute
      obtain ⟨name, value⟩ := pair
      obtain ⟨rfl, unescaped⟩ := stands
      refine ⟨[(_, value)], others, ?_, further, rfl⟩
      dsimp only at unescaped
      rw [if_neg Bool.false_ne_true, unescaped]

end QuotedAttribute

open QuotedAttribute (Contribute)

/-! ## One attribute -/

variable (seen : List SeenKey)

theorem attributesFrom_key (start : Nat) (reversed : List Char) {key : List Char}
    (plain : ∀ character ∈ key, isBlank character = false ∧ character ≠ '=')
    (position : Nat) (rest : List Char) :
    ∃ next, attributesFrom position seen (.key start reversed) (key ++ rest) =
      attributesFrom next seen (.key start (key.reverse ++ reversed)) rest := by
  induction key generalizing position reversed with
  | nil => exact ⟨position, rfl⟩
  | cons character key induction =>
      obtain ⟨⟨noBlank, noEquals⟩, below⟩ := List.forall_mem_cons.mp plain
      rw [List.cons_append, attributesFrom, if_neg noEquals, noBlank, if_neg nofun,
        List.reverse_cons, List.append_assoc]
      exact induction _ below _

/-- The states in which the reader goes past blanks and stays as it is. -/
inductive AttributeState.SkipsBlanks : AttributeState → Prop where
  | between : SkipsBlanks .between
  | afterKey {start : Nat} {key : List Char} : SkipsBlanks (.afterKey start key)
  | beforeValue {key : List Char} : SkipsBlanks (.beforeValue key)

theorem attributesFrom_blank {state : AttributeState} (skips : state.SkipsBlanks)
    {character : Char} (blank : isBlank character = true) (position : Nat)
    (rest : List Char) :
    attributesFrom position seen state (character :: rest) =
      attributesFrom (position + character.utf8Size) seen state rest := by
  cases skips <;> rw [attributesFrom, if_pos blank]

theorem attributesFrom_blanks {state : AttributeState} (skips : state.SkipsBlanks)
    {blanks : List Char} (blank : blanks.all isBlank = true) (position : Nat)
    (rest : List Char) :
    ∃ next, attributesFrom position seen state (blanks ++ rest) =
      attributesFrom next seen state rest := by
  induction blanks generalizing position with
  | nil => exact ⟨position, rfl⟩
  | cons character blanks induction =>
      rw [List.all_cons, Bool.and_eq_true] at blank
      rw [List.cons_append, attributesFrom_blank seen skips blank.1]
      exact induction blank.2 _

theorem attributesFrom_equals (start : Nat) (reversed : List Char) {blanks : List Char}
    (blank : blanks.all isBlank = true) (position : Nat) (rest : List Char) :
    ∃ next, attributesFrom position seen (.key start reversed) (blanks ++ '=' :: rest) =
      (remember seen reversed.reverse start).bind fun seen =>
        attributesFrom next seen (.beforeValue reversed.reverse) rest := by
  cases blanks with
  | nil =>
      refine ⟨position + '='.utf8Size, ?_⟩
      rw [List.nil_append, attributesFrom, if_pos rfl]
  | cons character blanks =>
      rw [List.all_cons, Bool.and_eq_true] at blank
      have skips : (AttributeState.afterKey start reversed.reverse).SkipsBlanks := .afterKey
      rcases attributesFrom_blanks seen skips blank.2 (position + character.utf8Size)
        ('=' :: rest) with ⟨next, read⟩
      have noEquals : character ≠ '=' := by
        rintro rfl
        exact absurd blank.1 (by decide)
      refine ⟨next + '='.utf8Size, ?_⟩
      rw [List.cons_append, attributesFrom, if_neg noEquals, if_pos blank.1, read,
        attributesFrom, if_neg (by decide), if_pos rfl]

theorem attributesFrom_value (key reversed : List Char) {quote : Char} {value : List Char}
    (unquoted : quote ∉ value) (position : Nat) (rest : List Char) :
    ∃ next, attributesFrom position seen (.value key quote reversed) (value ++ rest) =
      attributesFrom next seen (.value key quote (value.reverse ++ reversed)) rest := by
  induction value generalizing position reversed with
  | nil => exact ⟨position, rfl⟩
  | cons character value induction =>
      obtain ⟨noQuote, below⟩ := List.ne_and_not_mem_of_not_mem_cons unquoted
      rw [List.cons_append, attributesFrom, if_neg noQuote.symm, List.reverse_cons,
        List.append_assoc]
      exact induction _ below _

theorem attributesFrom_quoted (key : List Char) {quote : Char} {blanks value : List Char}
    (blank : blanks.all isBlank = true) (quotes : quote = '"' ∨ quote = '\x27')
    (unquoted : quote ∉ value) (position : Nat) (rest : List Char) :
    ∃ next, attributesFrom position seen (.beforeValue key)
        (blanks ++ quote :: (value ++ quote :: rest)) =
      (attributeOf key value).bind fun read =>
        (attributesFrom next seen .between rest).map (read ++ ·) := by
  have skips : (AttributeState.beforeValue key).SkipsBlanks := .beforeValue
  rcases attributesFrom_blanks seen skips blank position
    (quote :: (value ++ quote :: rest)) with ⟨start, skipped⟩
  obtain ⟨stop, read⟩ := attributesFrom_value seen key [] unquoted
    (start + quote.utf8Size) (quote :: rest)
  refine ⟨stop + quote.utf8Size, ?_⟩
  have noBlank : isBlank quote = false := by rcases quotes with rfl | rfl <;> decide
  have isQuote : (decide (quote = '"') || decide (quote = '\x27')) = true := by
    rcases quotes with rfl | rfl <;> decide
  rw [skipped, attributesFrom, noBlank, if_neg nofun, if_pos isQuote, read, attributesFrom,
    if_pos rfl, List.append_nil, List.reverse_reverse]

/-! ## All attributes -/

variable {seen}

theorem remember_eq_ok_iff {key : List Char} {start : Nat} {next : List SeenKey} :
    remember seen key start = .ok next ↔
      (∀ previous ∈ seen, previous.key ≠ key) ∧ next = ⟨key, start⟩ :: seen := by
  rw [remember]
  cases found : seen.find? (·.key = key) with
  | none =>
      have fresh : ∀ previous ∈ seen, previous.key ≠ key := fun previous member => by
        simpa using List.find?_eq_none.mp found previous member
      rw [and_iff_right fresh]
      exact ⟨fun same => (Except.ok.inj same).symm, fun same => congrArg _ same.symm⟩
  | some previous =>
      have same : previous.key = key := by simpa using List.find?_some found
      refine iff_of_false nofun fun both => ?_
      exact both.1 previous (List.mem_of_find?_eq_some found) same

/-- Attributes that may be read after those with the given keys. -/
structure Readable (seen : List SeenKey) (attributes : List QuotedAttribute) : Prop where
  distinct : (attributes.map QuotedAttribute.key).Nodup
  fresh : ∀ previous ∈ seen, previous.key ∉ attributes.map QuotedAttribute.key

theorem readable_cons_iff {held : QuotedAttribute} {attributes : List QuotedAttribute}
    (start : Nat) :
    Readable seen (held :: attributes) ↔
      (∀ previous ∈ seen, previous.key ≠ held.key) ∧
        Readable (⟨held.key, start⟩ :: seen) attributes := by
  constructor
  · rintro ⟨distinct, fresh⟩
    rw [List.map_cons, List.nodup_cons] at distinct
    refine ⟨fun previous member same => fresh previous member (same ▸ List.mem_cons_self),
      distinct.2, List.forall_mem_cons.mpr ⟨distinct.1, fun previous member listed => ?_⟩⟩
    exact fresh previous member (List.mem_cons_of_mem _ listed)
  · rintro ⟨new, distinct, fresh⟩
    obtain ⟨first, later⟩ := List.forall_mem_cons.mp fresh
    refine ⟨List.nodup_cons.mpr ⟨first, distinct⟩, fun previous member listed => ?_⟩
    rcases List.mem_cons.mp listed with same | listed
    · exact new previous member same
    · exact later previous member listed

theorem HoldsAttributes.attributesFrom_eq {characters : List Char}
    {attributes : List QuotedAttribute} (holds : HoldsAttributes characters attributes)
    (readable : Readable seen attributes) {pairs : List (String × String)}
    (contribute : Contribute attributes pairs) (position : Nat) :
    attributesFrom position seen .between characters = .ok pairs := by
  induction holds generalizing seen pairs position with
  | nil =>
      cases contribute
      rfl
  | blank isBlank _ induction =>
      rw [attributesFrom_blank seen .between isBlank]
      exact induction readable contribute _
  | @quoted rest later first quote others before after value begins continues blankBefore
      blankAfter quotes unquoted _ induction =>
      obtain ⟨fresh, readable⟩ := (readable_cons_iff position).mp readable
      obtain ⟨own, further, reads, contributeLater, rfl⟩ := contribute.of_cons
      obtain ⟨stop, key⟩ := attributesFrom_key seen position [first] continues
        (position + first.utf8Size)
        (before ++ '=' :: (after ++ quote :: (value ++ quote :: rest)))
      obtain ⟨next, equals⟩ := attributesFrom_equals seen position
        (others.reverse ++ [first]) blankBefore stop
        (after ++ quote :: (value ++ quote :: rest))
      obtain ⟨last, quoted⟩ := attributesFrom_quoted (⟨first :: others, position⟩ :: seen)
        (first :: others) blankAfter quotes unquoted next rest
      have whole : (others.reverse ++ [first]).reverse = first :: others := by simp
      rw [attributesFrom, begins, if_neg nofun, key, equals, whole,
        remember_eq_ok_iff.mpr ⟨fresh, rfl⟩, Except.bind, quoted, reads, Except.bind,
        induction readable contributeLater]
      rfl

/-! ## What has been read -/

section
variable {position : Nat} {characters : List Char} {pairs : List (String × String)}

theorem of_attributesFrom_value {key reversed : List Char} {quote : Char}
    (read : attributesFrom position seen (.value key quote reversed) characters = .ok pairs) :
    ∃ value rest next own others, characters = value ++ quote :: rest ∧ quote ∉ value ∧
      attributeOf key (reversed.reverse ++ value) = .ok own ∧
      attributesFrom next seen .between rest = .ok others ∧ pairs = own ++ others := by
  induction characters generalizing position reversed with
  | nil => cases read
  | cons character characters induction =>
      rw [attributesFrom] at read
      split at read
      case isTrue isQuote =>
        subst isQuote
        obtain ⟨own, reads, read⟩ := of_bind_eq_ok read
        obtain ⟨others, further, rfl⟩ := of_map_eq_ok read
        exact ⟨[], characters, _, own, others, rfl, List.not_mem_nil,
          (List.append_nil _).symm ▸ reads, further, rfl⟩
      case isFalse noQuote =>
        obtain ⟨value, rest, next, own, others, rfl, unquoted, reads, further, rfl⟩ :=
          induction read
        rw [List.reverse_cons, List.append_assoc] at reads
        exact ⟨character :: value, rest, next, own, others, rfl,
          List.not_mem_cons_of_ne_of_not_mem (Ne.symm noQuote) unquoted, reads, further, rfl⟩

theorem of_attributesFrom_skipping {state : AttributeState} (skips : state.SkipsBlanks)
    (read : attributesFrom position seen state characters = .ok pairs) :
    ∃ blanks inner next, characters = blanks ++ inner ∧ blanks.all isBlank = true ∧
      (∀ first rest, inner = first :: rest → isBlank first = false) ∧
      attributesFrom next seen state inner = .ok pairs := by
  rcases attributesFrom_blanks seen skips List.all_takeWhile position
    (characters.dropWhile isBlank) with ⟨next, skipped⟩
  rw [List.takeWhile_append_dropWhile] at skipped
  refine ⟨_, _, next, List.takeWhile_append_dropWhile.symm, List.all_takeWhile, ?_,
    skipped.symm.trans read⟩
  intro first rest begins
  have notBlank := List.head?_dropWhile_not isBlank characters
  rw [begins] at notBlank
  simpa using notBlank

theorem of_attributesFrom_beforeValue {key : List Char}
    (read : attributesFrom position seen (.beforeValue key) characters = .ok pairs) :
    ∃ blanks quote inner next, characters = blanks ++ quote :: inner ∧
      blanks.all isBlank = true ∧ (quote = '"' ∨ quote = '\x27') ∧
      attributesFrom next seen (.value key quote []) inner = .ok pairs := by
  rcases of_attributesFrom_skipping .beforeValue read with
    ⟨blanks, inner, next, rfl, blank, begins, read⟩
  cases inner with
  | nil => cases read
  | cons quote inner =>
      rw [attributesFrom, begins quote inner rfl, if_neg nofun] at read
      split at read
      case isTrue isQuote =>
        rw [Bool.or_eq_true, decide_eq_true_iff, decide_eq_true_iff] at isQuote
        exact ⟨blanks, quote, inner, _, rfl, blank, isQuote, read⟩
      case isFalse => cases read

theorem of_attributesFrom_afterKey {start : Nat} {key : List Char}
    (read : attributesFrom position seen (.afterKey start key) characters = .ok pairs) :
    ∃ blanks inner next later, characters = blanks ++ '=' :: inner ∧
      blanks.all isBlank = true ∧ remember seen key start = .ok later ∧
      attributesFrom next later (.beforeValue key) inner = .ok pairs := by
  rcases of_attributesFrom_skipping .afterKey read with
    ⟨blanks, inner, next, rfl, blank, begins, read⟩
  cases inner with
  | nil => cases read
  | cons equals inner =>
      rw [attributesFrom, begins equals inner rfl, if_neg nofun] at read
      split at read
      case isTrue isEquals =>
        subst isEquals
        rcases of_bind_eq_ok read with ⟨later, remembered, read⟩
        exact ⟨blanks, inner, _, later, rfl, blank, remembered, read⟩
      case isFalse => cases read

theorem of_attributesFrom_key {start : Nat} {reversed : List Char}
    (read : attributesFrom position seen (.key start reversed) characters = .ok pairs) :
    ∃ more blanks inner next later, characters = more ++ (blanks ++ '=' :: inner) ∧
      (∀ character ∈ more, isBlank character = false ∧ character ≠ '=') ∧
      blanks.all isBlank = true ∧
      remember seen (reversed.reverse ++ more) start = .ok later ∧
      attributesFrom next later (.beforeValue (reversed.reverse ++ more)) inner =
        .ok pairs := by
  induction characters generalizing position reversed with
  | nil => cases read
  | cons character characters induction =>
      rw [attributesFrom] at read
      split at read
      case isTrue equals =>
        subst equals
        obtain ⟨later, remembered, read⟩ := of_bind_eq_ok read
        rw [← List.append_nil reversed.reverse] at remembered read
        exact ⟨[], [], characters, _, later, rfl, nofun, rfl, remembered, read⟩
      case isFalse noEquals =>
        split at read
        case isTrue blank =>
          obtain ⟨blanks, inner, next, later, rfl, blanksBlank, remembered, read⟩ :=
            of_attributesFrom_afterKey read
          rw [← List.append_nil reversed.reverse] at remembered read
          refine ⟨[], character :: blanks, inner, next, later, rfl, nofun, ?_, remembered, read⟩
          rw [List.all_cons, blank, blanksBlank]
          rfl
        case isFalse noBlank =>
          rw [Bool.not_eq_true] at noBlank
          obtain ⟨more, blanks, inner, next, later, rfl, plain, blank, remembered, read⟩ :=
            induction read
          rw [List.reverse_cons, List.append_assoc] at remembered read
          exact ⟨character :: more, blanks, inner, next, later, rfl,
            List.forall_mem_cons.mpr ⟨⟨noBlank, noEquals⟩, plain⟩, blank, remembered, read⟩

end

/-- What is read is held. The attribute in front is found piece by piece, and what follows it
is shorter. -/
theorem exists_holdsAttributes {characters : List Char} {position : Nat}
    {pairs : List (String × String)}
    (read : attributesFrom position seen .between characters = .ok pairs) :
    ∃ attributes, HoldsAttributes characters attributes ∧ Readable seen attributes ∧
      Contribute attributes pairs := by
  induction size : characters.length using Nat.strongRecOn
    generalizing characters seen position pairs with
  | ind size induction =>
      subst size
      cases characters with
      | nil =>
          obtain rfl : [] = pairs := Except.ok.inj read
          exact ⟨[], .nil, ⟨.nil, fun _ _ => List.not_mem_nil⟩, .nil⟩
      | cons first characters =>
          rw [attributesFrom] at read
          split at read
          case isTrue blank =>
            obtain ⟨attributes, holds, readable, contribute⟩ :=
              induction _ (Nat.lt_succ_self _) read rfl
            exact ⟨attributes, .blank blank holds, readable, contribute⟩
          case isFalse begins =>
            rw [Bool.not_eq_true] at begins
            obtain ⟨others, before, afterEquals, _, remembering, rfl, continues, blankBefore,
              remembered, read⟩ := of_attributesFrom_key read
            obtain ⟨after, quote, inner, _, rfl, blankAfter, quotes, read⟩ :=
              of_attributesFrom_beforeValue read
            obtain ⟨value, rest, _, own, pairsLater, rfl, unquoted, reads, further, rfl⟩ :=
              of_attributesFrom_value read
            have shorter : rest.length <
                (first :: (others ++ (before ++ '=' :: (after ++ quote ::
                  (value ++ quote :: rest))))).length := by
              simp only [List.length_cons, List.length_append]
              omega
            obtain ⟨attributes, holds, readable, contribute⟩ :=
              induction _ shorter further rfl
            obtain ⟨fresh, rfl⟩ := remember_eq_ok_iff.mp remembered
            exact ⟨⟨first :: others, value⟩ :: attributes,
              .quoted begins continues blankBefore blankAfter quotes unquoted holds,
              (readable_cons_iff position).mpr ⟨fresh, readable⟩, contribute.cons reads⟩

/-- The text of a tag holds the attributes that bring these pairs, each key once. -/
def Carries (content : List Char) (pairs : List (String × String)) : Prop :=
  ∃ attributes : List QuotedAttribute,
    HoldsAttributes (content.dropWhile (!isBlank ·)) attributes ∧
      (attributes.map QuotedAttribute.key).Nodup ∧ Contribute attributes pairs

theorem attributes_eq_ok_iff {content : List Char} {pairs : List (String × String)} :
    attributes content = .ok pairs ↔ Carries content pairs := by
  rw [attributes, cutName, List.span_eq_takeWhile_dropWhile]
  constructor
  · intro read
    obtain ⟨attributes, holds, readable, contribute⟩ := exists_holdsAttributes read
    exact ⟨attributes, holds, readable.distinct, contribute⟩
  · rintro ⟨attributes, holds, distinct, contribute⟩
    exact holds.attributesFrom_eq ⟨distinct, fun _ none => absurd none List.not_mem_nil⟩
      contribute _

end CommandReference.Markup
