import CommandReference.Proofs.Definition.Grouping
import CommandReference.Proofs.Definition.Invariants
import CommandReference.Proofs.Markup.Escape

namespace CommandReference

/-! Where the texts of lists come from. Constants give written forms, which are safe within
markup, and lists, parameters and references only pass on what they are given. But a
delimiter or a placeholder in a list adds the way it shows, and that is not a written form:
the name of a delimiter comes into the list as it stands in the corpus. -/

open Markup (Element IsSafe escape isSafe_escape)

/-! ## Constants -/

/-- Text as a constant documents it: safe within markup, and underlined if it is a
default. -/
def IsDocumented (text : String) : Prop :=
  IsSafe text.toList ∨ ∃ inner, text = "<u>" ++ inner ++ "</u>" ∧ IsSafe inner.toList

theorem isSafe_append {first second : String} (safeFirst : IsSafe first.toList)
    (safeSecond : IsSafe second.toList) : IsSafe (first ++ second).toList := by
  rw [String.toList_append]
  exact safeFirst.append safeSecond

theorem isSafe_joiner {method? : Option String} {joiner : String}
    (known : joiner? method? = some joiner) : IsSafe joiner.toList := by
  refine .of_harmless ?_
  unfold joiner? at known
  split at known
  case h_5 => cases known
  all_goals
    cases known
    decide

theorem isDocumented_constantText {scope : Scope} {node : Element} {text : String}
    (encoded : constantText scope node = .ok text) : IsDocumented text := by
  rw [constantText] at encoded
  dsimp only at encoded
  split at encoded
  case h_1 => cases encoded
  case h_2 joiner known =>
    have part (key : String) : IsSafe (escape (node.attributeOrEmpty key)).toList :=
      isSafe_escape _
    have body := isSafe_append (isSafe_append (part "type") (part "name")) (part "value")
    have whole := isSafe_append (isSafe_append (part "prefix") (isSafe_joiner known)) body
    split at encoded
    case isTrue =>
      refine .inr ⟨_, (Except.ok.inj encoded).symm, ?_⟩
      split
      · exact body
      · exact whole
    case isFalse =>
      refine .inl ?_
      rw [← Except.ok.inj encoded]
      split
      · exact body
      · exact whole

/-! ## What items are drawn from -/

/-- Texts that show a delimiter or a placeholder among the elements, at any depth. -/
inductive ShownAmong (elements : List Element) : String → Prop
  | delimiter {node : Element} (member : node ∈ Element.namedAmong "delimiter" elements) :
      ShownAmong elements ("\\" ++ node.attributeOrEmpty "name")
  | placeholder {node : Element} (kind : Placeholder)
      (member : node ∈ Element.namedAmong kind.elementName elements) :
      ShownAmong elements kind.rendering

namespace Content

def texts : Content → List String
  | constant text => [text]
  | keywords items => items
  | assignments values => values.entries.flatMap Prod.snd
  | delimiter | placeholder _ => []

/-- Content whose texts come from constants, or from delimiters and placeholders among the
elements. A text by itself only comes from a constant. -/
structure IsDrawnFrom (elements : List Element) (content : Content) : Prop where
  constant : ∀ text, content = .constant text → IsDocumented text
  texts : ∀ text ∈ content.texts, IsDocumented text ∨ ShownAmong elements text

theorem IsDrawnFrom.delimiter (elements : List Element) :
    Content.delimiter.IsDrawnFrom elements where
  constant _ same := nomatch same
  texts := List.forall_mem_nil _

end Content

namespace Item

def texts (item : Item) : List String := item.fragments ++ item.parameters.flatMap Prod.snd

def literal? : Item → Option String
  | fragment text | argument ⟨.constant text, _, _, _⟩ => some text
  | _ => none

structure IsDrawnFrom (elements : List Element) (item : Item) : Prop where
  texts : ∀ text ∈ item.texts, IsDocumented text ∨ ShownAmong elements text
  literal : ∀ text, item.literal? = some text → IsDocumented text

variable {outer : List Element} {items : List Item}

theorem drawn_of_mem_fragments {text : String}
    (drawn : ∀ item ∈ items, item.IsDrawnFrom outer)
    (member : text ∈ items.flatMap fragments) : IsDocumented text ∨ ShownAmong outer text := by
  rcases List.mem_flatMap.mp member with ⟨item, inItems, own⟩
  exact (drawn item inItems).texts text (List.mem_append_left _ own)

theorem drawn_of_mem_mergeParameters {text : String}
    (drawn : ∀ item ∈ items, item.IsDrawnFrom outer)
    (member : text ∈ (mergeParameters items).entries.flatMap Prod.snd) :
    IsDocumented text ∨ ShownAmong outer text := by
  rcases List.mem_flatMap.mp member with ⟨⟨name, values⟩, entry, inValues⟩
  have found := ((mergeParameters items).get?_eq_some_iff name values).mpr entry
  rw [get?_mergeParameters, valuesOf?] at found
  split at found
  case isTrue => cases found
  case isFalse =>
    cases found
    rcases List.mem_flatMap.mp inValues with ⟨parameter, own, inParameter⟩
    rcases List.mem_flatMap.mp (List.mem_filter.mp own).1 with ⟨item, inItems, ofItem⟩
    exact (drawn item inItems).texts text
      (List.mem_append_right _ (List.mem_flatMap.mpr ⟨parameter, ofItem, inParameter⟩))

theorem IsDrawnFrom.of_texts {item : Item} (noLiteral : item.literal? = none)
    (drawn : ∀ text ∈ item.texts, IsDocumented text ∨ ShownAmong outer text) :
    item.IsDrawnFrom outer where
  texts := drawn
  literal text own := by
    rw [noLiteral] at own
    cases own

theorem IsDrawnFrom.fragment {text : String} (documented : IsDocumented text) :
    (Item.fragment text).IsDrawnFrom outer where
  texts other member := by
    cases List.mem_singleton.mp member
    exact .inl documented
  literal other own := by
    cases own
    exact documented

theorem IsDrawnFrom.constant {text : String} (drawn : (Item.fragment text).IsDrawnFrom outer) :
    (Content.constant text).IsDrawnFrom outer where
  constant other same := drawn.literal other (by rw [Content.constant.inj same]; rfl)
  texts := drawn.texts

theorem IsDrawnFrom.content {argument : Argument}
    (drawn : (Item.argument argument).IsDrawnFrom outer) :
    argument.content.IsDrawnFrom outer where
  constant text same := by
    refine drawn.literal text ?_
    rcases argument with ⟨content, rendering, inherits, optional⟩
    cases same
    rfl
  texts text member := by
    refine drawn.texts text ?_
    rcases argument with ⟨content, rendering, inherits, optional⟩
    cases content with
    | constant own => exact List.mem_append_left _ member
    | keywords items => exact List.mem_append_left _ member
    | assignments values => exact List.mem_append_right _ member
    | delimiter => cases member
    | placeholder kind => cases member

end Item

/-! ## One element -/

section
variable {scope : Scope} {node : Element} {outer : List Element} {items : List Item}
  (drawn : ∀ item ∈ items, item.IsDrawnFrom outer)
include drawn

theorem keywordsArgument_isDrawnFrom {argument : Argument}
    (built : keywordsArgument scope node items = .ok argument) :
    (Item.argument argument).IsDrawnFrom outer := by
  rcases keywordsArgument_eq_ok_iff.mp built with ⟨_, rendering, _, rfl⟩
  refine .of_texts rfl fun text member => ?_
  rcases List.mem_append.mp member with listed | none
  · exact Item.drawn_of_mem_fragments drawn listed
  · cases none

theorem assignmentsArgument_isDrawnFrom {argument : Argument}
    (built : assignmentsArgument scope node items = .ok argument) :
    (Item.argument argument).IsDrawnFrom outer := by
  rcases assignmentsArgument_eq_ok_iff.mp built with ⟨_, rendering, _, rfl⟩
  exact .of_texts rfl fun text member => Item.drawn_of_mem_mergeParameters drawn member

theorem parameterItem_isDrawnFrom {item : Item}
    (built : parameterItem scope node items = .ok item) : item.IsDrawnFrom outer := by
  rcases parameterItem_eq_ok_iff.mp built with ⟨_, rfl⟩
  refine .of_texts rfl fun text member => Item.drawn_of_mem_fragments drawn ?_
  rcases List.mem_flatMap.mp member with ⟨parameter, only, listed⟩
  cases List.mem_singleton.mp only
  exact listed

end

theorem passesOn_isDrawnFrom {node : Element} {outer : List Element}
    (inside : Inside [node] outer) : PassesOn (Item.IsDrawnFrom outer) node where
  constant _ _ constant := .fragment (isDocumented_constantText constant)
  keywords _ _ drawn _ := keywordsArgument_isDrawnFrom drawn
  assignments _ _ drawn _ := assignmentsArgument_isDrawnFrom drawn
  parameter _ _ drawn _ := parameterItem_isDrawnFrom drawn
  inherit _ := .of_texts rfl (List.forall_mem_nil _)
  delimiter named := by
    have here := inside _ (mem_namedAmong_cons.mpr (.inl ⟨named, rfl⟩))
    exact .of_texts rfl (List.forall_mem_singleton.mpr (.inr (.delimiter here)))
  placeholder kind named := by
    have here := inside _ (mem_namedAmong_cons.mpr (.inl ⟨named, rfl⟩))
    exact .of_texts rfl (List.forall_mem_singleton.mpr (.inr (.placeholder kind here)))

end CommandReference
