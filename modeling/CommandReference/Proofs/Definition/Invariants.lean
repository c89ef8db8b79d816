import CommandReference.Proofs.Definition.Reporting

namespace CommandReference

/-! What is true of every item. An element gives items of its own and takes up those of its
children, and a reference only repeats the items of a definition. So a property of items that
each element of a corpus passes on, from what its children give to what it gives itself, is
true of all that is encoded: of what definitions stand for, and of what the arguments of
commands are made of. -/

open Markup (Element)
open DefinitionTable (declarations)

/-! ## Elements within elements -/

theorem mem_namedAmong_cons {tag : String} {node element : Element} {rest : List Element} :
    element ∈ Element.namedAmong tag (node :: rest) ↔
      (node.name = tag ∧ element = node) ∨ element ∈ Element.namedAmong tag node.children ∨
        element ∈ Element.namedAmong tag rest := by
  rcases node with ⟨own, attributes, children⟩
  rw [Element.namedAmong, Element.named, List.mem_append]
  split
  case isTrue same => simp [same, or_assoc]
  case isFalse different => simp [different]

/-- All that is among the inner elements, at any depth, is among the outer ones. -/
def Inside (inner outer : List Element) : Prop :=
  ∀ tag, Element.namedAmong tag inner ⊆ Element.namedAmong tag outer

namespace Inside

theorem trans {inner middle outer : List Element} (first : Inside inner middle)
    (second : Inside middle outer) : Inside inner outer :=
  fun tag => List.Subset.trans (first tag) (second tag)

theorem children (node : Element) (rest : List Element) : Inside node.children (node :: rest) :=
  fun _ _ member => mem_namedAmong_cons.mpr (.inr (.inl member))

theorem tail (node : Element) (rest : List Element) : Inside rest (node :: rest) :=
  fun _ _ member => mem_namedAmong_cons.mpr (.inr (.inr member))

theorem head (node : Element) (rest : List Element) : Inside [node] (node :: rest) := by
  intro tag element member
  rcases mem_namedAmong_cons.mp member with here | below | none
  · exact mem_namedAmong_cons.mpr (.inl here)
  · exact mem_namedAmong_cons.mpr (.inr (.inl below))
  · cases none

theorem of_mem {node : Element} {elements : List Element} (member : node ∈ elements) :
    Inside [node] elements := by
  induction elements with
  | nil => cases member
  | cons first rest induction =>
      rcases List.mem_cons.mp member with rfl | later
      · exact head node rest
      · exact (induction later).trans (tail first rest)

theorem of_mem_namedAmong {tag : String} {element : Element} {elements : List Element}
    (member : element ∈ Element.namedAmong tag elements) : Inside [element] elements := by
  induction elements using elements_induction with
  | nil => cases member
  | cons node rest inChildren later =>
      rcases mem_namedAmong_cons.mp member with ⟨_, rfl⟩ | below | after
      · exact head element rest
      · exact (inChildren below).trans (children node rest)
      · exact (later after).trans (tail node rest)

end Inside

namespace InterfaceFile

def roots (files : List InterfaceFile) : List Element := files.map root

theorem namedAmong_roots (files : List InterfaceFile) (tag : String) :
    Element.namedAmong tag (roots files) = (elementsNamed files tag).map Prod.snd := by
  rw [← flatMap_named, roots, List.flatMap_map, elementsNamed, List.map_flatMap]
  refine List.flatMap_congr fun file _ => ?_
  rw [List.map_map]
  exact (List.map_id _).symm

theorem inside_roots {files : List InterfaceFile} {tag file : String} {element : Element}
    (located : (file, element) ∈ elementsNamed files tag) :
    Inside element.children (roots files) := by
  have member : element ∈ Element.namedAmong tag (roots files) := by
    rw [namedAmong_roots]
    exact List.mem_map_of_mem located
  exact (Inside.children element []).trans (.of_mem_namedAmong member)

end InterfaceFile

/-! ## Properties of items -/

/-- What an element gives has the property if what its children give has it. There is one
field for each kind of element that gives items of its own. -/
structure PassesOn (holds : Item → Prop) (node : Element) : Prop where
  constant : ∀ scope text, constantText scope node = .ok text → holds (.fragment text)
  keywords : ∀ scope items, (∀ item ∈ items, holds item) →
    ∀ argument, keywordsArgument scope node items = .ok argument → holds (.argument argument)
  assignments : ∀ scope items, (∀ item ∈ items, holds item) →
    ∀ argument, assignmentsArgument scope node items = .ok argument → holds (.argument argument)
  parameter : ∀ scope items, (∀ item ∈ items, holds item) →
    ∀ item, parameterItem scope node items = .ok item → holds item
  inherit : ∀ name, holds (.inherit name)
  delimiter : node.name = "delimiter" →
    holds (.argument ((Argument.delimiter
      ("\\" ++ node.attributeOrEmpty "name")).withOptional (node.flag "optional")))
  placeholder : ∀ kind : Placeholder, node.name = kind.elementName →
    holds (.argument (.placeholder kind (node.flag "optional")))

theorem each_built {holds : Item → Prop} {inner : Except Failure (List Item)}
    (given : ∀ items, inner = .ok items → ∀ item ∈ items, holds item)
    {build : List Item → Except Failure α} {item : α → Item}
    (step : ∀ items, (∀ item ∈ items, holds item) →
      ∀ value, build items = .ok value → holds (item value)) {found : List Item}
    (encoded : ((inner.bind build).map fun value => [item value]) = .ok found) :
    ∀ item ∈ found, holds item := by
  rcases of_map_eq_ok encoded with ⟨value, bound, rfl⟩
  rcases of_bind_eq_ok bound with ⟨items, ofChildren, built⟩
  exact List.forall_mem_singleton.mpr (step items (given items ofChildren) value built)

theorem PassesOn.ownItems {holds : Item → Prop} {node : Element} (passesOn : PassesOn holds node)
    {scope : Scope} {inner : Except Failure (List Item)} {found : List Item}
    (given : ∀ items, inner = .ok items → ∀ item ∈ items, holds item)
    (encoded : ownItems scope node inner = .ok found) : ∀ item ∈ found, holds item := by
  rw [CommandReference.ownItems] at encoded
  cases known : NodeKind.ofName? node.name with
  | none =>
      rw [known] at encoded
      cases encoded
  | some kind =>
      have named := NodeKind.elementName_of_ofName? known
      rw [known] at encoded
      cases kind with
      | constant =>
          rcases of_map_eq_ok encoded with ⟨text, constant, rfl⟩
          exact List.forall_mem_singleton.mpr (passesOn.constant scope text constant)
      | keywords => exact each_built given (passesOn.keywords scope) encoded
      | assignments => exact each_built given (passesOn.assignments scope) encoded
      | parameter => exact each_built given (passesOn.parameter scope) encoded
      | inherit =>
          cases encoded
          exact List.forall_mem_singleton.mpr (passesOn.inherit _)
      | resolve =>
          cases encoded
          exact List.forall_mem_nil _
      | delimiter =>
          cases encoded
          exact List.forall_mem_singleton.mpr (passesOn.delimiter named.symm)
      | placeholder kind =>
          cases encoded
          exact List.forall_mem_singleton.mpr (passesOn.placeholder kind named.symm)

def Resolution.Each (holds : Item → Prop) (resolution : Resolution) : Prop :=
  ∀ name items, resolution.lookup? name = some items → ∀ item ∈ items, holds item

section
variable {holds : Item → Prop} {outer : List Element} {resolution : Resolution}
  (passesOn : ∀ node, Inside [node] outer → PassesOn holds node)
  (known : resolution.Each holds)
include passesOn known

theorem encoding_each {elements : List Element} (inside : Inside elements outer)
    {found : List Item} (encoded : encoding resolution elements = some found) :
    ∀ item ∈ found, holds item := by
  induction elements using elements_induction generalizing found with
  | nil =>
      cases encoded
      exact List.forall_mem_nil _
  | cons node rest inChildren later =>
      have children := (Inside.children node rest).trans inside
      have tail := (Inside.tail node rest).trans inside
      by_cases isReference : node.name = "resolve"
      · rw [encoding_reference _ isReference] at encoded
        rcases Option.bind_eq_some_iff.mp encoded with ⟨first, resolved, mapped⟩
        rcases Option.map_eq_some_iff.mp mapped with ⟨second, further, rfl⟩
        exact List.forall_mem_append.mpr ⟨known _ first resolved, later tail further⟩
      · rw [encoding_other _ isReference] at encoded
        rcases Option.bind_eq_some_iff.mp encoded with ⟨first, own, mapped⟩
        rcases Option.map_eq_some_iff.mp mapped with ⟨second, further, rfl⟩
        refine List.forall_mem_append.mpr ⟨?_, later tail further⟩
        refine (passesOn node ((Inside.head node rest).trans inside)).ownItems ?_
          (of_toOption_eq_some own)
        intro items ofChildren
        apply inChildren children
        rw [encoding, ofChildren]
        rfl

theorem argumentsOf_each {scope : Scope} {nodes : List Element} (inside : Inside nodes outer)
    {arguments : List Argument} (encoded : argumentsOf scope resolution nodes = .ok arguments) :
    ∀ argument ∈ arguments, holds (.argument argument) ∨
      ∃ text, argument = .constant text ∧ holds (.fragment text) := by
  rw [argumentsOf_eq_inTurn] at encoded
  induction nodes generalizing arguments with
  | nil =>
      cases encoded
      exact List.forall_mem_nil _
  | cons node rest induction =>
      rcases of_bind_eq_ok encoded with ⟨first, ofNode, later⟩
      rcases of_map_eq_ok later with ⟨others, further, rfl⟩
      refine List.forall_mem_append.mpr
        ⟨?_, induction ((Inside.tail node rest).trans inside) further⟩
      rcases of_bind_eq_ok ofNode with ⟨items, own, taken⟩
      have each : ∀ item ∈ items, holds item := by
        apply encoding_each passesOn known ((Inside.head node rest).trans inside)
        rw [← toOption_itemsOfAll scope, itemsOfAll_singleton, own]
        rfl
      intro argument member
      rcases exists_of_mem_mapM taken member with ⟨item, inItems, is⟩
      have own := each item inItems
      cases item with
      | fragment text =>
          cases is
          exact .inr ⟨text, rfl, own⟩
      | argument value =>
          cases is
          exact .inl own
      | inherit name => cases is
      | parameter name values inherits => cases is

end

/-! ## Tables -/

namespace DefinitionTable

variable {holds : Item → Prop} {files : List InterfaceFile}
  (passesOn : ∀ node, Inside [node] (InterfaceFile.roots files) → PassesOn holds node)
include passesOn

theorem foldl_addDeclared_each {resolution : Resolution} (known : resolution.Each holds) :
    (Resolution.table
      ((declarations files).foldl (addDeclared resolution) .empty)).Each holds := by
  intro name items found
  rw [Resolution.lookup?, get?_foldl_eq_lastEncoded?] at found
  rcases Option.bind_eq_some_iff.mp found with ⟨declaration, last, encoded⟩
  have member := List.mem_reverse.mp (List.mem_of_find?_eq_some last)
  rcases List.mem_map.mp member with ⟨⟨file, element⟩, located, rfl⟩
  exact encoding_each passesOn known (InterfaceFile.inside_roots located) encoded

theorem ofFiles_each {policy : Policy} {table : DefinitionTable}
    (succeeds : (ofFiles policy files).result = .ok table) :
    (Resolution.table table).Each holds := by
  have deferred : Resolution.deferred.Each holds := by
    intro name items found
    cases found
    exact List.forall_mem_nil _
  rw [of_ofFiles_eq_ok succeeds]
  exact foldl_addDeclared_each passesOn (foldl_addDeclared_each passesOn deferred)

end DefinitionTable

end CommandReference
