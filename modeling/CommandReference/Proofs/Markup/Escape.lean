import CommandReference.Markup.Entity

namespace CommandReference.Markup

/-! Written forms as parts of markup. No tag begins in a written form, no quoted value ends
in it, and its ampersands only begin named references. Texts that hold none of the
characters with a reference are their own written forms, and no other texts are. -/

/-! ## Characters -/

def IsVerbatim (characters : List Char) : Prop :=
  ∀ character ∈ characters, character ∉ entities.map Prod.snd

instance : DecidablePred IsVerbatim := fun characters => List.decidableBAll _ characters

theorem escapeCharacter_cases (character : Char) :
    (character ∉ entities.map Prod.snd ∧ escapeCharacter character = [character]) ∨
      ∃ name, (name, character) ∈ entities ∧
        escapeCharacter character = '&' :: (name.toList ++ [';']) := by
  by_cases less : character = '<'
  · exact .inr ⟨"lt", by rw [less]; decide, by rw [less]; rfl⟩
  by_cases greater : character = '>'
  · exact .inr ⟨"gt", by rw [greater]; decide, by rw [greater]; rfl⟩
  by_cases ampersand : character = '&'
  · exact .inr ⟨"amp", by rw [ampersand]; decide, by rw [ampersand]; rfl⟩
  by_cases apostrophe : character = '\x27'
  · exact .inr ⟨"apos", by rw [apostrophe]; decide, by rw [apostrophe]; rfl⟩
  by_cases quote : character = '"'
  · exact .inr ⟨"quot", by rw [quote]; decide, by rw [quote]; rfl⟩
  · refine .inl ⟨?_, ?_⟩
    · simp [entities, less, greater, ampersand, apostrophe, quote]
    · simp [escapeCharacter, less, greater, ampersand, apostrophe, quote]

theorem length_le_flatMap_escapeCharacter (characters : List Char) :
    characters.length ≤ (characters.flatMap escapeCharacter).length := by
  induction characters with
  | nil => exact Nat.le_refl _
  | cons character rest induction =>
      rw [List.flatMap_cons, List.length_append, List.length_cons, Nat.add_comm]
      refine Nat.add_le_add ?_ induction
      rcases escapeCharacter_cases character with ⟨_, written⟩ | ⟨name, _, written⟩
      · exact Nat.le_of_eq (by rw [written]; rfl)
      · rw [written]
        exact Nat.le_add_left _ _

theorem flatMap_escapeCharacter_eq_self_iff (characters : List Char) :
    characters.flatMap escapeCharacter = characters ↔ IsVerbatim characters := by
  induction characters with
  | nil => exact iff_of_true rfl (List.forall_mem_nil _)
  | cons character rest induction =>
      rw [List.flatMap_cons, IsVerbatim, List.forall_mem_cons]
      rcases escapeCharacter_cases character with ⟨plain, written⟩ | ⟨name, isEntity, written⟩
      · rw [written, List.singleton_append, List.cons_inj_right, induction]
        exact (and_iff_right plain).symm
      · refine iff_of_false (fun same => ?_) fun both =>
          both.1 (List.mem_map_of_mem isEntity)
        -- A reference is longer than its character, and nothing after it is shorter.
        have longer := congrArg List.length same
        have others := length_le_flatMap_escapeCharacter rest
        rw [written] at longer
        simp only [List.length_append, List.length_cons, List.length_nil] at longer
        omega

theorem escape_eq_self_iff (value : String) : escape value = value ↔ IsVerbatim value.toList := by
  rw [← flatMap_escapeCharacter_eq_self_iff, escape, ← String.toList_inj, String.toList_ofList]

/-! ## Safe text -/

/-- Text that is safe within markup: no tag begins in it, no quoted value ends in it, and
every ampersand begins a named reference. -/
structure IsSafe (characters : List Char) : Prop where
  unmarked : ∀ character ∈ characters, character ≠ '<' ∧ character ≠ '"' ∧ character ≠ '\x27'
  referenced : ∀ before after, characters = before ++ '&' :: after →
    ∃ entity ∈ entities, entity.1.toList ++ [';'] <+: after

theorem IsSafe.append {first second : List Char} (safeFirst : IsSafe first)
    (safeSecond : IsSafe second) : IsSafe (first ++ second) where
  unmarked := List.forall_mem_append.mpr ⟨safeFirst.unmarked, safeSecond.unmarked⟩
  referenced := by
    intro before after split
    rcases List.append_eq_append_iff.mp split with
      ⟨others, rfl, inSecond⟩ | ⟨others, inFirst, rest⟩
    · exact safeSecond.referenced others after inSecond
    · cases others with
      | nil => exact safeSecond.referenced [] after rest.symm
      | cons ampersand others =>
          rcases List.cons.inj rest with ⟨rfl, rfl⟩
          rcases safeFirst.referenced before others inFirst with ⟨entity, member, begins⟩
          exact ⟨entity, member, begins.trans (List.prefix_append _ _)⟩

def IsHarmless (characters : List Char) : Prop :=
  ∀ character ∈ characters, character ∉ ['<', '"', '\x27', '&']

instance : DecidablePred IsHarmless := fun characters => List.decidableBAll _ characters

theorem IsSafe.of_harmless {characters : List Char} (harmless : IsHarmless characters) :
    IsSafe characters where
  unmarked := by
    intro character member
    have unlisted := harmless character member
    simp only [List.mem_cons, not_or] at unlisted
    exact ⟨unlisted.1, unlisted.2.1, unlisted.2.2.1⟩
  referenced := by
    rintro before after rfl
    have ampersand : '&' ∈ before ++ '&' :: after :=
      List.mem_append_right _ List.mem_cons_self
    exact absurd (by decide) (harmless '&' ampersand)

theorem IsSafe.reference {entity : String × Char} (isEntity : entity ∈ entities) :
    IsSafe ('&' :: (entity.1.toList ++ [';'])) := by
  have harmless : ∀ entity ∈ entities, IsHarmless (entity.1.toList ++ [';']) := by decide
  have tail := IsSafe.of_harmless (harmless entity isEntity)
  refine ⟨List.forall_mem_cons.mpr ⟨by decide, tail.unmarked⟩, fun before after split => ?_⟩
  cases before with
  | nil =>
      rcases List.cons.inj split with ⟨_, rfl⟩
      exact ⟨entity, isEntity, List.prefix_refl _⟩
  | cons character before => exact tail.referenced before after (List.cons.inj split).2

theorem isSafe_escapeCharacter (character : Char) : IsSafe (escapeCharacter character) := by
  rcases escapeCharacter_cases character with ⟨plain, written⟩ | ⟨name, isEntity, written⟩
  · rw [written]
    refine .of_harmless (List.forall_mem_singleton.mpr ?_)
    simp only [entities, List.map_cons, List.mem_cons, not_or] at plain
    simp [plain]
  · rw [written]
    exact .reference isEntity

theorem isSafe_escape (value : String) : IsSafe (escape value).toList := by
  rw [escape, String.toList_ofList]
  induction value.toList with
  | nil => exact .of_harmless (List.forall_mem_nil _)
  | cons character rest induction =>
      rw [List.flatMap_cons]
      exact (isSafe_escapeCharacter character).append induction

end CommandReference.Markup
