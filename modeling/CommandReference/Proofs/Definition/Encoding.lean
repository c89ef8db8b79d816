import CommandReference.Encoding
import CommandReference.Proofs.Results
import CommandReference.Proofs.SortedMap

namespace CommandReference

/-! How the items of an element come from those of its children. The scope only names
failures, and an element whose children have fewer items is encoded whenever it is
encoded with more of them: an encoding can fail for what it finds, but never for what it
misses. -/

open Markup (Element)

namespace NodeKind

theorem elementName_of_ofName? {name : String} {kind : NodeKind}
    (found : ofName? name = some kind) : kind.elementName = name := by
  have accepted := List.find?_some (p := fun kind : NodeKind =>
    decide (kind.elementName = name)) found
  exact of_decide_eq_true accepted

end NodeKind

/-! ## One element -/

def ownItems (scope : Scope) (node : Element) (inner : Except Failure (List Item)) :
    Except Failure (List Item) :=
  match NodeKind.ofName? node.name with
  | none => .error (scope.unexpected node.name)
  | some .constant => (constantText scope node).map fun text => [.fragment text]
  | some .keywords =>
      (inner.bind (keywordsArgument scope node)).map fun argument => [.argument argument]
  | some .assignments =>
      (inner.bind (assignmentsArgument scope node)).map fun argument => [.argument argument]
  | some .parameter => (inner.bind (parameterItem scope node)).map fun item => [item]
  | some .inherit => .ok [.inherit (node.attributeOrEmpty "name")]
  | some .resolve => .ok []
  | some .delimiter =>
      .ok [.argument ((Argument.delimiter
        ("\\" ++ node.attributeOrEmpty "name")).withOptional (node.flag "optional"))]
  | some (.placeholder kind) => .ok [.argument (.placeholder kind (node.flag "optional"))]

theorem items_of_reference (scope : Scope) (resolution : Resolution) {node : Element}
    (reference : node.name = "resolve") :
    items scope resolution node = resolvedItems scope resolution node := by
  rcases node with ⟨name, attributes, children⟩
  subst reference
  have kind : NodeKind.ofName? "resolve" = some .resolve := by decide
  simp only [items, kind]

theorem items_of_not_reference (scope : Scope) (resolution : Resolution) {node : Element}
    (notReference : node.name ≠ "resolve") :
    items scope resolution node =
      ownItems scope node (itemsOfAll scope resolution node.children) := by
  rcases node with ⟨name, attributes, children⟩
  rw [items, ownItems]
  cases found : NodeKind.ofName? name with
  | none => rfl
  | some kind =>
      cases kind with
      | resolve => exact absurd (NodeKind.elementName_of_ofName? found).symm notReference
      | constant => cases constantText scope ⟨name, attributes, children⟩ <;> rfl
      | keywords =>
          cases itemsOfAll scope resolution children with
          | error failure => rfl
          | ok inner => cases keywordsArgument scope ⟨name, attributes, children⟩ inner <;> rfl
      | assignments =>
          cases itemsOfAll scope resolution children with
          | error failure => rfl
          | ok inner =>
              cases assignmentsArgument scope ⟨name, attributes, children⟩ inner <;> rfl
      | parameter =>
          cases itemsOfAll scope resolution children with
          | error failure => rfl
          | ok inner => cases parameterItem scope ⟨name, attributes, children⟩ inner <;> rfl
      | inherit => rfl
      | delimiter => rfl
      | placeholder kind => rfl

/-! ## Lists and parameters -/

section
variable {scope : Scope} {node : Element} {items : List Item}

theorem keywordsArgument_eq_ok_iff {argument : Argument} :
    keywordsArgument scope node items = .ok argument ↔
      items.flatMap Item.parameters = [] ∧
        ∃ rendering, listRendering scope node (if node.flag "list" then "...,..." else "...") =
            .ok rendering ∧
          argument = ⟨.keywords (items.flatMap Item.fragments), rendering,
            items.flatMap Item.inherits, node.flag "optional"⟩ := by
  rw [keywordsArgument]
  split
  case isFalse keys => exact iff_of_false nofun fun both => keys both.1
  case isTrue noKeys =>
    rw [and_iff_right noKeys]
    constructor
    · exact of_map_eq_ok
    · rintro ⟨rendering, rendered, rfl⟩
      rw [rendered]
      rfl

theorem assignmentsArgument_eq_ok_iff {argument : Argument} :
    assignmentsArgument scope node items = .ok argument ↔
      items.flatMap Item.fragments = [] ∧
        ∃ rendering,
          listRendering scope node (if node.flag "list" then "..,..=..,.." else "..=..") =
              .ok rendering ∧
            argument = ⟨.assignments (Item.mergeParameters items), rendering,
              items.flatMap Item.inherits, node.flag "optional"⟩ := by
  rw [assignmentsArgument]
  split
  case isFalse texts => exact iff_of_false nofun fun both => texts both.1
  case isTrue noTexts =>
    rw [and_iff_right noTexts]
    constructor
    · exact of_map_eq_ok
    · rintro ⟨rendering, rendered, rfl⟩
      rw [rendered]
      rfl

theorem parameterItem_eq_ok_iff {item : Item} :
    parameterItem scope node items = .ok item ↔
      items.flatMap Item.parameters = [] ∧
        item = .parameter (node.attributeOrEmpty "name") (items.flatMap Item.fragments)
          (items.flatMap Item.inherits) := by
  rw [parameterItem]
  split
  case isFalse keys => exact iff_of_false nofun fun both => keys both.1
  case isTrue noKeys =>
    rw [and_iff_right noKeys, Except.ok.injEq]
    exact eq_comm

end

/-! ## Results without failures -/

def joined (first second : Option (List Item)) : Option (List Item) :=
  first.bind fun items => second.map fun others => items ++ others

theorem toOption_itemsOfAll_cons (scope : Scope) (resolution : Resolution) (node : Element)
    (rest : List Element) :
    (itemsOfAll scope resolution (node :: rest)).toOption =
      joined (items scope resolution node).toOption
        (itemsOfAll scope resolution rest).toOption := by
  rw [itemsOfAll]
  cases items scope resolution node with
  | error failure => rfl
  | ok first => cases itemsOfAll scope resolution rest <;> rfl

theorem joined_assoc (first second third : Option (List Item)) :
    joined (joined first second) third = joined first (joined second third) := by
  cases first with
  | none => rfl
  | some first =>
      cases second with
      | none => rfl
      | some second =>
          cases third with
          | none => rfl
          | some third => exact congrArg some (List.append_assoc first second third)

theorem toOption_itemsOfAll_append (scope : Scope) (resolution : Resolution)
    (nodes others : List Element) :
    (itemsOfAll scope resolution (nodes ++ others)).toOption =
      joined (itemsOfAll scope resolution nodes).toOption
        (itemsOfAll scope resolution others).toOption := by
  induction nodes with
  | nil =>
      rw [List.nil_append, itemsOfAll]
      cases itemsOfAll scope resolution others <;> rfl
  | cons node rest induction =>
      rw [List.cons_append, toOption_itemsOfAll_cons, induction, toOption_itemsOfAll_cons,
        joined_assoc]

theorem toOption_constantText (scope other : Scope) (node : Element) :
    (constantText scope node).toOption = (constantText other node).toOption := by
  rw [constantText, constantText]
  dsimp only
  cases joiner? (node.attribute? "method") <;> rfl

theorem toOption_listRendering (scope other : Scope) (node : Element) (inner : String) :
    (listRendering scope node inner).toOption =
      (listRendering other node inner).toOption := by
  rw [listRendering, listRendering]
  cases brackets? (node.attribute? "delimiters") <;> rfl

theorem toOption_ownItems (scope other : Scope) (node : Element)
    {inner otherInner : Except Failure (List Item)}
    (same : inner.toOption = otherInner.toOption) :
    (ownItems scope node inner).toOption = (ownItems other node otherInner).toOption := by
  have keywords : ∀ items, (keywordsArgument scope node items).toOption =
      (keywordsArgument other node items).toOption := by
    intro items
    rw [keywordsArgument, keywordsArgument]
    split
    · rw [toOption_map, toOption_map, toOption_listRendering]
    · rfl
  have assignments : ∀ items, (assignmentsArgument scope node items).toOption =
      (assignmentsArgument other node items).toOption := by
    intro items
    rw [assignmentsArgument, assignmentsArgument]
    split
    · rw [toOption_map, toOption_map, toOption_listRendering]
    · rfl
  have parameter : ∀ items, (parameterItem scope node items).toOption =
      (parameterItem other node items).toOption := by
    intro items
    rw [parameterItem, parameterItem]
    split <;> rfl
  rw [ownItems, ownItems]
  split
  · rfl
  · rw [toOption_map, toOption_map, toOption_constantText]
  · simp only [toOption_map, toOption_bind, same, keywords]
  · simp only [toOption_map, toOption_bind, same, assignments]
  · simp only [toOption_map, toOption_bind, same, parameter]
  · rfl
  · rfl
  · rfl
  · rfl

/-! ## Fewer items -/

/-- What the grammar may refuse among some items, texts or keys, it finds among others
too. -/
structure NoMore (few many : List Item) : Prop where
  fragments : many.flatMap Item.fragments = [] → few.flatMap Item.fragments = []
  parameters : many.flatMap Item.parameters = [] → few.flatMap Item.parameters = []

def Within (fewer more : Option (List Item)) : Prop :=
  ∀ many, more = some many → ∃ few, fewer = some few ∧ NoMore few many

theorem Within.refl (items : Option (List Item)) : Within items items :=
  fun many found => ⟨many, found, id, id⟩

theorem Within.nil (more : Option (List Item)) : Within (some []) more :=
  fun _ _ => ⟨[], rfl, fun _ => rfl, fun _ => rfl⟩

theorem Within.joined {fewer more otherFewer otherMore : Option (List Item)}
    (first : Within fewer more) (second : Within otherFewer otherMore) :
    Within (joined fewer otherFewer) (joined more otherMore) := by
  intro many found
  rcases Option.bind_eq_some_iff.mp found with ⟨items, itemsFound, mapped⟩
  rcases Option.map_eq_some_iff.mp mapped with ⟨others, othersFound, rfl⟩
  rcases first items itemsFound with ⟨few, fewFound, noMore⟩
  rcases second others othersFound with ⟨less, lessFound, noMoreOthers⟩
  refine ⟨few ++ less, ?_, ?_, ?_⟩
  · rw [fewFound, lessFound]
    rfl
  · rw [List.flatMap_append, List.flatMap_append, List.append_eq_nil_iff,
      List.append_eq_nil_iff]
    exact And.imp noMore.fragments noMoreOthers.fragments
  · rw [List.flatMap_append, List.flatMap_append, List.append_eq_nil_iff,
      List.append_eq_nil_iff]
    exact And.imp noMore.parameters noMoreOthers.parameters

theorem Within.built {fewer more : Except Failure (List Item)}
    (within : Within fewer.toOption more.toOption)
    {build : List Item → Except Failure α} {item : α → Item}
    (step : ∀ few many, NoMore few many → ∀ large, build many = .ok large →
      ∃ small, build few = .ok small ∧ NoMore [item small] [item large]) :
    Within ((fewer.bind build).map fun value => [item value]).toOption
      ((more.bind build).map fun value => [item value]).toOption := by
  intro result found
  cases more with
  | error failure => cases found
  | ok many =>
      cases built : build many with
      | error failure =>
          rw [Except.bind, built] at found
          cases found
      | ok large =>
          rw [Except.bind, built] at found
          cases found
          rcases within many rfl with ⟨few, fewFound, noMore⟩
          cases fewer with
          | error failure => cases fewFound
          | ok items =>
              cases fewFound
              rcases step few many noMore large built with ⟨small, smallBuilt, itemNoMore⟩
              refine ⟨[item small], ?_, itemNoMore⟩
              rw [Except.bind, smallBuilt]
              rfl

theorem keywordsArgument_noMore (scope : Scope) (node : Element) {few many : List Item}
    (noMore : NoMore few many) {large : Argument}
    (built : keywordsArgument scope node many = .ok large) :
    ∃ small, keywordsArgument scope node few = .ok small ∧
      NoMore [.argument small] [.argument large] := by
  rcases keywordsArgument_eq_ok_iff.mp built with ⟨noKeys, rendering, rendered, rfl⟩
  refine ⟨_, keywordsArgument_eq_ok_iff.mpr ⟨noMore.parameters noKeys, rendering, rendered, rfl⟩,
    fun noTexts => ?_, fun _ => rfl⟩
  rw [List.flatMap_singleton] at noTexts ⊢
  exact noMore.fragments noTexts

theorem foldl_alter_entries_eq_nil_iff (update : List String → Option (List String) → List String)
    (parameters : List (String × List String)) (map : SortedMap String (List String)) :
    (parameters.foldl (fun map entry => map.alter entry.1 (update entry.2)) map).entries = [] ↔
      parameters = [] ∧ map.entries = [] := by
  induction parameters generalizing map with
  | nil => exact (and_iff_right rfl).symm
  | cons entry rest induction =>
      have altered : (map.alter entry.1 (update entry.2)).entries ≠ [] :=
        SortedMap.alterEntries_ne_nil _ _ _
      rw [List.foldl_cons, induction]
      exact iff_of_false (fun both => altered both.2) (fun both => List.cons_ne_nil _ _ both.1)

theorem mergeParameters_eq_nil_iff (items : List Item) :
    (Item.mergeParameters items).entries = [] ↔ items.flatMap Item.parameters = [] := by
  rw [Item.mergeParameters, foldl_alter_entries_eq_nil_iff
    (fun values present => present.getD [] ++ values)]
  exact and_iff_left rfl

theorem assignmentsArgument_noMore (scope : Scope) (node : Element) {few many : List Item}
    (noMore : NoMore few many) {large : Argument}
    (built : assignmentsArgument scope node many = .ok large) :
    ∃ small, assignmentsArgument scope node few = .ok small ∧
      NoMore [.argument small] [.argument large] := by
  rcases assignmentsArgument_eq_ok_iff.mp built with ⟨noTexts, rendering, rendered, rfl⟩
  refine ⟨_, assignmentsArgument_eq_ok_iff.mpr
    ⟨noMore.fragments noTexts, rendering, rendered, rfl⟩, fun _ => rfl, fun noKeys => ?_⟩
  rw [List.flatMap_singleton] at noKeys ⊢
  have noMany := (mergeParameters_eq_nil_iff many).mp noKeys
  exact (mergeParameters_eq_nil_iff few).mpr (noMore.parameters noMany)

theorem parameterItem_noMore (scope : Scope) (node : Element) {few many : List Item}
    (noMore : NoMore few many) {large : Item}
    (built : parameterItem scope node many = .ok large) :
    ∃ small, parameterItem scope node few = .ok small ∧ NoMore [small] [large] := by
  rcases parameterItem_eq_ok_iff.mp built with ⟨noKeys, rfl⟩
  exact ⟨_, parameterItem_eq_ok_iff.mpr ⟨noMore.parameters noKeys, rfl⟩, fun _ => rfl, nofun⟩

theorem ownItems_within (scope : Scope) (node : Element)
    {fewer more : Except Failure (List Item)} (within : Within fewer.toOption more.toOption) :
    Within (ownItems scope node fewer).toOption (ownItems scope node more).toOption := by
  rw [ownItems, ownItems]
  split
  · exact .refl _
  · exact .refl _
  · exact within.built fun _ _ noMore _ => keywordsArgument_noMore scope node noMore
  · exact within.built fun _ _ noMore _ => assignmentsArgument_noMore scope node noMore
  · exact within.built fun _ _ noMore _ => parameterItem_noMore scope node noMore
  · exact .refl _
  · exact .refl _
  · exact .refl _
  · exact .refl _

end CommandReference
