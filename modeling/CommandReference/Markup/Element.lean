namespace CommandReference.Markup

/-! Element trees: what is left of a document once namespace qualifiers, text and
comments are dropped. -/

structure Element where
  name : String
  attributes : List (String × String)
  children : List Element
  deriving Repr, Inhabited

namespace Element

mutual

def decideEq : (left right : Element) → Decidable (left = right)
  | ⟨name, attributes, children⟩, ⟨otherName, otherAttributes, otherChildren⟩ =>
      match decEq name otherName, decEq attributes otherAttributes,
          decideEqAll children otherChildren with
      | .isTrue names, .isTrue pairs, .isTrue subtrees =>
          .isTrue (by rw [names, pairs, subtrees])
      | .isFalse differ, _, _ => .isFalse fun equal => differ (by injection equal)
      | _, .isFalse differ, _ => .isFalse fun equal => differ (by injection equal)
      | _, _, .isFalse differ => .isFalse fun equal => differ (by injection equal)

def decideEqAll : (left right : List Element) → Decidable (left = right)
  | [], [] => .isTrue rfl
  | [], _ :: _ => .isFalse (by simp)
  | _ :: _, [] => .isFalse (by simp)
  | left :: lefts, right :: rights =>
      match decideEq left right, decideEqAll lefts rights with
      | .isTrue heads, .isTrue tails => .isTrue (by rw [heads, tails])
      | .isFalse differ, _ => .isFalse fun equal => differ (by injection equal)
      | _, .isFalse differ => .isFalse fun equal => differ (by injection equal)

end

instance : DecidableEq Element := decideEq

def attribute? (element : Element) (key : String) : Option String :=
  element.attributes.lookup key

def attributeOrEmpty (element : Element) (key : String) : String :=
  (element.attribute? key).getD ""

def flag (element : Element) (key : String) : Bool :=
  element.attribute? key = some "yes"

def child? (element : Element) (name : String) : Option Element :=
  element.children.find? (·.name = name)

mutual

/-- The elements of a tree that have the given name, in document order. The
tree's own root is among them. -/
def named (name : String) : Element → List Element
  | ⟨own, attributes, children⟩ =>
      if own = name then ⟨own, attributes, children⟩ :: namedAmong name children
      else namedAmong name children

def namedAmong (name : String) : List Element → List Element
  | [] => []
  | element :: rest => named name element ++ namedAmong name rest

end

private def exampleTree : Element :=
  ⟨"interface", [],
    [⟨"define", [("name", "outer"), ("name", "shadowed")],
      [⟨"define", [("name", "inner")], []⟩]⟩,
     ⟨"define", [("list", "yes")], []⟩]⟩

example : (exampleTree.named "define").map (·.attribute? "name") =
    [some "outer", some "inner", none] := by decide

example : (exampleTree.named "define").map (·.flag "list") = [false, false, true] := by
  decide

end Element

end CommandReference.Markup
