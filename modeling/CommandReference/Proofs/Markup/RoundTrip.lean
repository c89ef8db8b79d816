import CommandReference.Proofs.Markup.Plain
import CommandReference.Proofs.Markup.Tags
import CommandReference.Proofs.Markup.Tree

namespace CommandReference.Markup

/-! Reading undoes writing. A document in which one element is written is read as that
element, whatever its qualifiers, its namespaces and its blanks are, and whatever stands
between its tags. -/

/-! ## Events -/

/-- The tags bring exactly the given events, wherever they stand. -/
def BringEvents (tags : List Tag) (events : List Event) : Prop :=
  ∀ opened error? placed rest, placed.map PlacedTag.tag = tags →
    eventsFrom opened error? (placed ++ rest) = (eventsFrom opened error? rest).prepend events

namespace BringEvents

variable {first second tags : List Tag} {firstEvents secondEvents events : List Event}

theorem nil : BringEvents [] [] := by
  intro opened error? placed rest isNil
  rw [List.map_eq_nil_iff.mp isNil]
  rfl

theorem append (bringFirst : BringEvents first firstEvents)
    (bringSecond : BringEvents second secondEvents) :
    BringEvents (first ++ second) (firstEvents ++ secondEvents) := by
  intro opened error? placed rest both
  obtain ⟨placedFirst, placedSecond, rfl, isFirst, isSecond⟩ := List.map_eq_append_iff.mp both
  rw [List.append_assoc, bringFirst _ _ _ _ isFirst, bringSecond _ _ _ _ isSecond]
  simp [Reading.prepend]

end BringEvents

namespace Head

theorem bringEvents_empty (head : Head) :
    BringEvents [.empty head.characters] [.empty head.name.text head.pairs] := by
  intro opened error? placed rest isTag
  obtain ⟨⟨tag, stop⟩, rfl, rfl⟩ := List.map_eq_singleton_iff.mp isTag
  rw [List.singleton_append, eventsFrom, head.attributes_characters, head.cutName_characters]
  dsimp only
  rw [head.localName_qualified]
  rfl

theorem closingName_qualified (head : Head) (padding : Blanks) :
    closingName (head.qualified ++ padding.characters) = head.qualified := by
  have noBlank : ∀ character ∈ head.qualified, isBlank character = false :=
    fun character member =>
      isBlank_of_isQualifiedCharacter (head.isQualifiedCharacter_of_mem character member)
  have named : ¬ (head.qualified ++ padding.characters).all isBlank = true := by
    obtain ⟨first, others, name⟩ := List.exists_cons_of_ne_nil head.qualified_ne_nil
    have first := noBlank first (name ▸ List.mem_cons_self)
    simp [name, first]
  have blank : ∀ character ∈ padding.characters.reverse, isBlank character = true := by
    simpa using List.all_eq_true.mp padding.blank
  have kept : head.qualified.reverse.dropWhile isBlank = head.qualified.reverse := by
    cases reversed : head.qualified.reverse with
    | nil => rfl
    | cons last others =>
        have member : last ∈ head.qualified :=
          List.mem_reverse.mp (reversed ▸ List.mem_cons_self)
        rw [List.dropWhile_cons_of_neg]
        simp [noBlank last member]
  rw [closingName, if_neg named, List.reverse_append, List.dropWhile_append_of_pos blank, kept,
    List.reverse_reverse]

theorem bringEvents_element (head : Head) {tags : List Tag} {events : List Event}
    (inside : BringEvents tags events) (padding : Blanks) :
    BringEvents
      (.opening head.characters :: tags ++ [.closing (head.qualified ++ padding.characters)])
      (.start head.name.text head.pairs :: events ++ [.stop]) := by
  intro opened error? placed rest areTags
  obtain ⟨front, back, rfl, isFront, isBack⟩ := List.map_eq_append_iff.mp areTags
  obtain ⟨⟨tag, start⟩, between, rfl, rfl, isInside⟩ := List.map_eq_cons_iff.mp isFront
  obtain ⟨⟨tag, stop⟩, rfl, rfl⟩ := List.map_eq_singleton_iff.mp isBack
  rw [List.cons_append, List.cons_append, eventsFrom, head.attributes_characters,
    head.cutName_characters]
  dsimp only
  rw [head.localName_qualified, List.append_assoc, inside _ _ _ _ isInside,
    List.singleton_append, eventsFrom, head.closingName_qualified, if_pos rfl]
  simp [Reading.prepend, Name.text]

end Head

/-! ## Documents -/

/-- Written elements are found in three steps: their tags, the events of these, and the
trees that the events spell. -/
theorem Written.exists_tags_events (written : Written) :
    ∃ tags events, HoldsTags written.characters tags ∧ BringEvents tags events ∧
      Spells events written.elements := by
  induction written with
  | nil => exact ⟨[], [], .nil, .nil, .nil⟩
  | aside between rest induction =>
      obtain ⟨tags, events, holds, bring, spells⟩ := induction
      exact ⟨tags, events, between.holdsTags.append holds, bring, spells⟩
  | empty head rest induction =>
      obtain ⟨tags, events, holds, bring, spells⟩ := induction
      refine ⟨_, _, ?_, head.bringEvents_empty.append bring, .empty _ _ spells⟩
      simpa [characters] using head.holdsTags_empty.append holds
  | element head inside padding rest inner outer =>
      obtain ⟨innerTags, innerEvents, innerHolds, innerBring, innerSpells⟩ := inner
      obtain ⟨tags, events, holds, bring, spells⟩ := outer
      have brought := (head.bringEvents_element innerBring padding).append bring
      have split : .start head.name.text head.pairs :: innerEvents ++ [.stop] ++ events =
          .start head.name.text head.pairs :: innerEvents ++ .stop :: events := by simp
      refine ⟨_, _, ?_, split ▸ brought, .element _ _ innerSpells spells⟩
      have whole := ((head.holdsTags_opening.append innerHolds).append
        (head.holdsTags_closing padding)).append holds
      simpa [characters] using whole

theorem tagsFrom_position (first second : Nat) (construct? : Option (Construct × List Char))
    (characters : List Char) :
    (tagsFrom first construct? characters).items.map PlacedTag.tag =
        (tagsFrom second construct? characters).items.map PlacedTag.tag ∧
      ((tagsFrom first construct? characters).error? = none ↔
        (tagsFrom second construct? characters).error? = none) := by
  induction characters generalizing first second construct? with
  | nil => cases construct? <;> simp [tagsFrom, Reading.stop]
  | cons character rest induction =>
      rcases construct? with _ | ⟨construct, reversed⟩
      · simp only [tagsFrom]
        split
        · split
          · exact induction _ _ _
          · simp [Reading.stop]
        · exact induction _ _ _
      · simp only [tagsFrom]
        split
        · exact induction _ _ _
        · split
          · obtain ⟨sameTags, sameEnd⟩ := induction (first + character.utf8Size)
              (second + character.utf8Size) none
            simp [Reading.prepend, sameTags, sameEnd, Function.comp_def]
          · simp [Reading.stop]

theorem HoldsTags.tags_ofList {characters : List Char} {found : List Tag}
    (holds : HoldsTags characters found) :
    (tags (String.ofList characters)).items.map PlacedTag.tag = found ∧
      (tags (String.ofList characters)).error? = none := by
  have whole : (tagsFrom 0 none characters).items.map PlacedTag.tag = found ∧
      (tagsFrom 0 none characters).error? = none := by
    obtain ⟨next, placed, areTags, read⟩ := holds 0 []
    rw [List.append_nil] at read
    rw [read]
    exact ⟨(congrArg _ (List.append_nil placed)).trans areTags, rfl⟩
  rw [tags, String.toList_ofList]
  split
  case h_1 rest =>
    have skipped : tagsFrom 0 none ('\ufeff' :: rest) =
        tagsFrom (0 + '\ufeff'.utf8Size) none rest := by
      rw [tagsFrom, if_neg (by decide)]
    rw [skipped] at whole
    obtain ⟨sameTags, sameEnd⟩ := tagsFrom_position 0 (0 + '\ufeff'.utf8Size) none rest
    exact ⟨sameTags.trans whole.1, sameEnd.mpr whole.2⟩
  case h_2 => exact whole

theorem Written.parse_text {written : Written} {tree : Element}
    (one : written.elements = [tree]) : parse written.text = .ok tree := by
  obtain ⟨found, brought, holds, bring, spells⟩ := written.exists_tags_events
  obtain ⟨areTags, noError⟩ := holds.tags_ofList
  have read : events written.text = ⟨brought, none⟩ := by
    have all := bring [] none _ [] areTags
    rw [List.append_nil] at all
    rw [events, text, noError, all]
    simp [eventsFrom, Reading.prepend, Reading.stop]
  rw [parse, read]
  exact Element.ofEvents_spelled (one ▸ spells)

/-- However a tree is written, it is what is read, and the trees that can be written are
the plain ones. -/
theorem Element.parse_written (tree : Element) :
    (∀ written : Written, written.elements = [tree] → parse written.text = .ok tree) ∧
      ((∃ written : Written, written.elements = [tree]) ↔ tree.IsPlain) :=
  ⟨fun _ one => Written.parse_text one, tree.exists_written_iff⟩

def exampleDocument : Written :=
  .aside (.declaration " ".toList (by decide)) <|
  .aside (.comment ">".toList (by decide)) <|
  .element
    { qualifier? := some { characters := ['c'] }
      name := { characters := ['a'] }
      attributes := [
        .qualifier .space { characters := ['c'] } "u".toList (by decide),
        .pair .space { characters := ['k'] } "<&>\"'" (by decide)]
      padding := .none
      distinct := by decide }
    (.aside (.text ">".toList (by decide)) <|
      .element
        { qualifier? := none
          name := { characters := ['b'] }
          attributes := []
          padding := .none
          distinct := by decide }
        .nil .none <|
      .empty
        { qualifier? := some { characters := ['x'] }
          name := { characters := ['d'] }
          attributes := []
          padding := .none
          distinct := by decide }
        .nil)
    Gap.space.toBlanks <|
  .aside (.text "!".toList (by decide)) .nil

theorem Element.parse_written_example :
    exampleDocument.text =
      "<?xml ?><!-->--><c:a xmlns:c=\"u\" k=\"&lt;&amp;&gt;&quot;&apos;\">><b></b><x:d/></c:a >!" ∧
      parse exampleDocument.text = .ok
        ⟨"a", [("k", "<&>\"'")], [⟨"b", [], []⟩, ⟨"d", [], []⟩]⟩ :=
  ⟨rfl, (Element.parse_written _).1 exampleDocument (by decide)⟩

end CommandReference.Markup
