import CommandReference.Proofs.Definition.Rounds

namespace CommandReference

/-! References are transparent. A reference is encoded as the elements that its definition
was made of, wherever it stands: what is around it flattens, merges and refuses the same
items in both cases, so that nothing changes, neither a result nor a failure. -/

open Markup (Element)

/-! ## Elements one after the other -/

/-- The results of each element in order, up to the first failure. -/
def inTurn (each : Element → Except Failure (List α)) :
    List Element → Except Failure (List α)
  | [] => .ok []
  | node :: rest => (each node).bind fun first => (inTurn each rest).map (first ++ ·)

theorem inTurn_append (each : Element → Except Failure (List α)) (nodes others : List Element) :
    inTurn each (nodes ++ others) =
      (inTurn each nodes).bind fun first => (inTurn each others).map (first ++ ·) := by
  induction nodes with
  | nil =>
      rw [List.nil_append, inTurn]
      cases inTurn each others <;> rfl
  | cons node rest induction =>
      rw [List.cons_append, inTurn, inTurn, induction]
      cases each node with
      | error failure => rfl
      | ok first =>
          cases inTurn each rest with
          | error failure => rfl
          | ok second =>
              cases inTurn each others with
              | error failure => rfl
              | ok third =>
                  exact congrArg Except.ok (List.append_assoc first second third).symm

theorem inTurn_singleton (each : Element → Except Failure (List α)) (node : Element) :
    inTurn each [node] = each node := by
  rw [inTurn, inTurn]
  cases each node with
  | error failure => rfl
  | ok first => exact congrArg Except.ok (List.append_nil first)

theorem itemsOfAll_eq_inTurn (scope : Scope) (resolution : Resolution) (nodes : List Element) :
    itemsOfAll scope resolution nodes = inTurn (items scope resolution) nodes := by
  induction nodes with
  | nil => rfl
  | cons node rest induction =>
      rw [itemsOfAll, inTurn, ← induction]
      cases items scope resolution node with
      | error failure => rfl
      | ok first => cases itemsOfAll scope resolution rest <;> rfl

theorem itemsOfAll_singleton (scope : Scope) (resolution : Resolution) (node : Element) :
    itemsOfAll scope resolution [node] = items scope resolution node := by
  rw [itemsOfAll_eq_inTurn, inTurn_singleton]

def ownArguments (scope : Scope) (resolution : Resolution) (node : Element) :
    Except Failure (List Argument) :=
  (items scope resolution node).bind (·.mapM (Item.toArgument scope))

theorem argumentsOf_eq_inTurn (scope : Scope) (resolution : Resolution)
    (nodes : List Element) :
    argumentsOf scope resolution nodes = inTurn (ownArguments scope resolution) nodes := by
  induction nodes with
  | nil => rfl
  | cons node rest induction =>
      rw [argumentsOf, inTurn, ← induction, ownArguments]
      cases items scope resolution node with
      | error failure => rfl
      | ok own =>
          simp only [bind, Except.bind]
          cases own.mapM (Item.toArgument scope) with
          | error failure => rfl
          | ok first => cases argumentsOf scope resolution rest <;> rfl

variable {scope declaring : Scope} {resolution : Resolution} {content : List Element}
  {found : List Item}

theorem itemsOfAll_of_eq_ok (encodes : itemsOfAll declaring resolution content = .ok found)
    (scope : Scope) : itemsOfAll scope resolution content = .ok found := by
  apply of_toOption_eq_some
  rw [toOption_itemsOfAll, ← toOption_itemsOfAll declaring, encodes]
  rfl

theorem argumentsOf_of_eq_ok (encodes : itemsOfAll scope resolution content = .ok found) :
    argumentsOf scope resolution content = found.mapM (Item.toArgument scope) := by
  rw [itemsOfAll_eq_inTurn] at encodes
  rw [argumentsOf_eq_inTurn]
  induction content generalizing found with
  | nil =>
      cases encodes
      rfl
  | cons node rest induction =>
      rw [inTurn] at encodes ⊢
      rcases of_bind_eq_ok encodes with ⟨first, own, encodesRest⟩
      rcases of_map_eq_ok encodesRest with ⟨second, further, rfl⟩
      rw [ownArguments, own, induction further, List.mapM_append]
      rfl

/-! ## References to one definition -/

def IsReferenceTo (name : String) (node : Element) : Prop :=
  node.name = "resolve" ∧ node.attributeOrEmpty "name" = name

instance (name : String) (node : Element) : Decidable (IsReferenceTo name node) :=
  inferInstanceAs (Decidable (_ ∧ _))

mutual

/-- The elements that stand in place of an element when the references to one definition
are replaced by its content, however deep they are. -/
def replaced (name : String) (content : List Element) : Element → List Element
  | ⟨tag, attributes, children⟩ =>
      if IsReferenceTo name ⟨tag, attributes, children⟩ then content
      else [⟨tag, attributes, replacedAll name content children⟩]

def replacedAll (name : String) (content : List Element) : List Element → List Element
  | [] => []
  | node :: rest => replaced name content node ++ replacedAll name content rest

end

theorem replaced_reference {name : String} {node : Element}
    (isReference : IsReferenceTo name node) : replaced name content node = content := by
  rcases node with ⟨tag, attributes, children⟩
  rw [replaced, if_pos isReference]

theorem replaced_other {name : String} {node : Element}
    (notReference : ¬ IsReferenceTo name node) :
    replaced name content node =
      [{ node with children := replacedAll name content node.children }] := by
  rcases node with ⟨tag, attributes, children⟩
  rw [replaced, if_neg notReference]

theorem inTurn_replacedAll_cons {each : Element → Except Failure (List α)} {name : String}
    {node : Element} {rest : List Element}
    (here : inTurn each (replaced name content node) = each node)
    (later : inTurn each (replacedAll name content rest) = inTurn each rest) :
    inTurn each (replacedAll name content (node :: rest)) = inTurn each (node :: rest) := by
  rw [replacedAll, inTurn_append, here, later, inTurn]

/-- The items of an element depend on its children only through their items. -/
theorem items_withChildren {node : Element} {children : List Element}
    (same : itemsOfAll scope resolution children = itemsOfAll scope resolution node.children) :
    items scope resolution { node with children := children } = items scope resolution node := by
  by_cases isReference : node.name = "resolve"
  · have stillReference : { node with children := children }.name = "resolve" := isReference
    rw [items_of_reference _ _ isReference, items_of_reference _ _ stillReference]
    rfl
  · have stillOther : { node with children := children }.name ≠ "resolve" := isReference
    rw [items_of_not_reference _ _ isReference, items_of_not_reference _ _ stillOther, same]
    rfl

section
variable {definitions : DefinitionTable} {name : String} {node : Element}

theorem items_of_isReferenceTo (defined : definitions.get? name = some found)
    (isReference : IsReferenceTo name node) :
    items scope (.table definitions) node = .ok found := by
  rcases isReference with ⟨isReference, rfl⟩
  rw [items_of_reference _ _ isReference, resolvedItems, defined]

theorem itemsOfAll_replaced (defined : definitions.get? name = some found)
    (encodes : itemsOfAll scope (.table definitions) content = .ok found)
    (same : itemsOfAll scope (.table definitions) (replacedAll name content node.children) =
      itemsOfAll scope (.table definitions) node.children) :
    itemsOfAll scope (.table definitions) (replaced name content node) =
      items scope (.table definitions) node := by
  by_cases isReference : IsReferenceTo name node
  · rw [replaced_reference isReference, encodes, items_of_isReferenceTo defined isReference]
  · rw [replaced_other isReference, itemsOfAll_singleton, items_withChildren same]

theorem itemsOfAll_replacedAll (defined : definitions.get? name = some found)
    (encodes : itemsOfAll scope (.table definitions) content = .ok found)
    (nodes : List Element) :
    itemsOfAll scope (.table definitions) (replacedAll name content nodes) =
      itemsOfAll scope (.table definitions) nodes := by
  induction nodes using elements_induction with
  | nil => rfl
  | cons node rest children later =>
      have here := itemsOfAll_replaced defined encodes children
      rw [itemsOfAll_eq_inTurn] at here
      rw [itemsOfAll_eq_inTurn, itemsOfAll_eq_inTurn] at later ⊢
      exact inTurn_replacedAll_cons here later

theorem argumentsOf_replaced (defined : definitions.get? name = some found)
    (encodes : itemsOfAll scope (.table definitions) content = .ok found) (node : Element) :
    argumentsOf scope (.table definitions) (replaced name content node) =
      ownArguments scope (.table definitions) node := by
  by_cases isReference : IsReferenceTo name node
  · rw [replaced_reference isReference, argumentsOf_of_eq_ok encodes, ownArguments,
      items_of_isReferenceTo defined isReference]
    rfl
  · rw [replaced_other isReference, argumentsOf_eq_inTurn, inTurn_singleton, ownArguments,
      items_withChildren (itemsOfAll_replacedAll defined encodes node.children), ownArguments]

theorem argumentsOf_replacedAll (defined : definitions.get? name = some found)
    (encodes : itemsOfAll scope (.table definitions) content = .ok found)
    (nodes : List Element) :
    argumentsOf scope (.table definitions) (replacedAll name content nodes) =
      argumentsOf scope (.table definitions) nodes := by
  induction nodes with
  | nil => rfl
  | cons node rest induction =>
      have here := argumentsOf_replaced defined encodes node
      rw [argumentsOf_eq_inTurn] at here
      rw [argumentsOf_eq_inTurn, argumentsOf_eq_inTurn] at induction ⊢
      exact inTurn_replacedAll_cons here induction

/-- Replacing the references to a definition by the elements whose items it has changes
neither an argument list nor the items of any element, and no failure either. -/
theorem references_transparent (defined : definitions.get? name = some found)
    (encodes : itemsOfAll declaring (.table definitions) content = .ok found)
    (scope : Scope) :
    (∀ nodes, argumentsOf scope (.table definitions) nodes =
        argumentsOf scope (.table definitions) (replacedAll name content nodes)) ∧
      (∀ nodes, itemsOfAll scope (.table definitions) nodes =
        itemsOfAll scope (.table definitions) (replacedAll name content nodes)) ∧
      ∀ node, items scope (.table definitions) node =
        itemsOfAll scope (.table definitions) (replaced name content node) := by
  have encodesHere := itemsOfAll_of_eq_ok encodes scope
  have sameItems := itemsOfAll_replacedAll defined encodesHere
  exact ⟨fun nodes => (argumentsOf_replacedAll defined encodesHere nodes).symm,
    fun nodes => (sameItems nodes).symm,
    fun node => (itemsOfAll_replaced defined encodesHere (sameItems node.children)).symm⟩

end

private def twoLetters : List Element :=
  [⟨"constant", [("value", "a")], []⟩, ⟨"constant", [("value", "b")], []⟩]

private def lettersReference : Element := ⟨"resolve", [("name", "letters")], []⟩

private def lettersTable : DefinitionTable :=
  .ofList [("letters", [.fragment "a", .fragment "b"])]

private def listsWith (letters : List Element) : List Element :=
  [⟨"keywords", [("list", "yes")], letters⟩,
    ⟨"assignments", [], [⟨"parameter", [("name", "style")], letters⟩]⟩] ++ letters

theorem references_transparent_letters :
    argumentsOf ⟨"i-test.xml", "chapter"⟩ (.table lettersTable) (listsWith [lettersReference]) =
      argumentsOf ⟨"i-test.xml", "chapter"⟩ (.table lettersTable) (listsWith twoLetters) := by
  have defined : lettersTable.get? "letters" = some [.fragment "a", .fragment "b"] := by decide
  have encodes : itemsOfAll ⟨"i-test.xml", "letters"⟩ (.table lettersTable) twoLetters =
      .ok [.fragment "a", .fragment "b"] := by rfl
  exact (references_transparent defined encodes ⟨"i-test.xml", "chapter"⟩).1 _

end CommandReference
