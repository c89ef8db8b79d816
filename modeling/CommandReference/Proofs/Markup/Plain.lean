import CommandReference.Markup.Written
import Mathlib.Data.List.Nodup

namespace CommandReference.Markup

/-! The trees that can be written are the plain ones: names and keys are words, and a tag
has each key once. What is written then holds some choice for all that a plain tree leaves
open. -/

namespace Name

def ofIsName {text : String} (named : IsName text) : Name := ⟨text.toList, named.1, named.2⟩

@[simp]
theorem text_ofIsName {text : String} (named : IsName text) : (ofIsName named).text = text :=
  String.ofList_toList

theorem isName (name : Name) : IsName name.text := by
  rw [IsName, text, String.toList_ofList]
  exact ⟨name.nonempty, name.plain⟩

end Name

/-! ## Written trees are plain -/

namespace Head

theorem isName_of_mem_pairs {head : Head} {pair : String × String} (member : pair ∈ head.pairs) :
    IsName pair.1 ∧ namespaceKey.isPrefixOf pair.1.toList = false := by
  obtain ⟨written, -, contributes⟩ := List.mem_filterMap.mp member
  cases written with
  | pair gap key value notNamespace =>
      obtain rfl : (key.text, value) = pair := Option.some.inj contributes
      refine ⟨key.isName, ?_⟩
      rwa [Name.text, String.toList_ofList]
  | qualifier => simp [WrittenAttribute.pair?] at contributes

theorem keys_sublist (attributes : List WrittenAttribute) :
    ((attributes.filterMap WrittenAttribute.pair?).map (·.1.toList)).Sublist
      (attributes.map WrittenAttribute.key) := by
  induction attributes with
  | nil => exact .slnil
  | cons written rest induction =>
      cases written with
      | pair gap key value =>
          simpa [WrittenAttribute.pair?, WrittenAttribute.key, Name.text] using induction
      | qualifier gap name address =>
          rw [List.filterMap_cons_none rfl, List.map_cons]
          exact induction.cons _

theorem nodup_pairs (head : Head) : (head.pairs.map Prod.fst).Nodup := by
  have keys := head.distinct.sublist (keys_sublist head.attributes)
  apply List.Nodup.of_map String.toList
  simpa [pairs, Function.comp_def] using keys

end Head

theorem Written.isPlain_of_mem_elements (written : Written) :
    ∀ element ∈ written.elements, element.IsPlain := by
  induction written with
  | nil => simp [elements]
  | aside between rest induction => exact induction
  | empty head rest induction =>
      have plain : Element.IsPlain ⟨head.name.text, head.pairs, []⟩ :=
        .intro head.name.isName (fun _ => Head.isName_of_mem_pairs) head.nodup_pairs (by simp)
      exact List.forall_mem_cons.mpr ⟨plain, induction⟩
  | element head inside padding rest inner outer =>
      have plain : Element.IsPlain ⟨head.name.text, head.pairs, inside.elements⟩ :=
        .intro head.name.isName (fun _ => Head.isName_of_mem_pairs) head.nodup_pairs inner
      exact List.forall_mem_cons.mpr ⟨plain, outer⟩

/-! ## Plain trees are written -/

theorem exists_attributes {attributes : List (String × String)}
    (keyed : ∀ pair ∈ attributes,
      IsName pair.1 ∧ namespaceKey.isPrefixOf pair.1.toList = false) :
    ∃ written : List WrittenAttribute, written.filterMap WrittenAttribute.pair? = attributes ∧
      written.map WrittenAttribute.key = attributes.map (·.1.toList) := by
  induction attributes with
  | nil => exact ⟨[], rfl, rfl⟩
  | cons pair rest induction =>
      obtain ⟨⟨named, notNamespace⟩, keyed⟩ := List.forall_mem_cons.mp keyed
      obtain ⟨written, pairs, keys⟩ := induction keyed
      refine ⟨.pair .space (.ofIsName named) pair.2 notNamespace :: written, ?_, ?_⟩
      · simp [WrittenAttribute.pair?, pairs]
      · simp [WrittenAttribute.key, Name.ofIsName, keys]

theorem exists_head {name : String} {attributes : List (String × String)} (named : IsName name)
    (keyed : ∀ pair ∈ attributes,
      IsName pair.1 ∧ namespaceKey.isPrefixOf pair.1.toList = false)
    (distinct : (attributes.map Prod.fst).Nodup) :
    ∃ head : Head, head.name.text = name ∧ head.pairs = attributes := by
  obtain ⟨written, pairs, keys⟩ := exists_attributes keyed
  have distinct : (written.map WrittenAttribute.key).Nodup := by
    rw [keys]
    simpa [Function.comp_def] using distinct.map fun _ _ => String.toList_injective
  exact ⟨⟨none, .ofIsName named, written, .none, distinct⟩, Name.text_ofIsName named, pairs⟩

theorem exists_inside {children : List Element}
    (each : ∀ child ∈ children, ∀ rest : Written,
      ∃ written : Written, written.elements = child :: rest.elements) :
    ∃ inside : Written, inside.elements = children := by
  induction children with
  | nil => exact ⟨.nil, rfl⟩
  | cons child later induction =>
      obtain ⟨first, others⟩ := List.forall_mem_cons.mp each
      obtain ⟨after, rfl⟩ := induction others
      exact first after

theorem Element.IsPlain.exists_written {element : Element} (plain : element.IsPlain)
    (rest : Written) : ∃ written : Written, written.elements = element :: rest.elements := by
  induction plain generalizing rest with
  | intro named keyed distinct below written =>
      obtain ⟨head, rfl, rfl⟩ := exists_head named keyed distinct
      obtain ⟨inside, rfl⟩ := exists_inside written
      exact ⟨.element head inside .none rest, rfl⟩

theorem Element.exists_written_iff (tree : Element) :
    (∃ written : Written, written.elements = [tree]) ↔ tree.IsPlain := by
  constructor
  · rintro ⟨written, one⟩
    apply written.isPlain_of_mem_elements
    simp [one]
  · intro plain
    exact plain.exists_written .nil

end CommandReference.Markup
