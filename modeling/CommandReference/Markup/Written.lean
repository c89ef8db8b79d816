import CommandReference.Markup.Attribute
import CommandReference.Markup.Element

namespace CommandReference.Markup

/-! Documents as they may be written. A tree leaves much open: qualifiers of names,
declarations of namespaces, blanks within tags, whether an element without children has
an end tag, and all that stands between tags. What is written records these choices along
with the tree. -/

/-! ## Names and blanks -/

def isNameCharacter (character : Char) : Bool :=
  character.isAlphanum || character = '-' || character = '_'

structure Name where
  characters : List Char
  nonempty : characters ≠ [] := by decide
  plain : characters.all isNameCharacter = true := by decide

structure Blanks where
  characters : List Char
  blank : characters.all isBlank = true := by decide

structure Gap extends Blanks where
  nonempty : characters ≠ [] := by decide

def Name.text (name : Name) : String := String.ofList name.characters

def Blanks.none : Blanks := { characters := [] }

def Gap.space : Gap := { characters := [' '] }

/-! ## Tags -/

def namespaceKey : List Char := "xmlns".toList

inductive WrittenAttribute where
  /-- An attribute of the tree. References stand for the five characters that have
  one. -/
  | pair (gap : Gap) (key : Name) (value : String)
      (notNamespace : namespaceKey.isPrefixOf key.characters = false)
  /-- A declaration of a namespace. It is no part of the tree. -/
  | qualifier (gap : Gap) (name : Name) (address : List Char) (unquoted : '"' ∉ address)

namespace WrittenAttribute

def gap : WrittenAttribute → Gap
  | .pair gap .. | .qualifier gap .. => gap

def key : WrittenAttribute → List Char
  | .pair _ key _ _ => key.characters
  | .qualifier _ name _ _ => namespaceKey ++ ':' :: name.characters

def value : WrittenAttribute → List Char
  | .pair _ _ value _ => (escape value).toList
  | .qualifier _ _ address _ => address

def pair? : WrittenAttribute → Option (String × String)
  | .pair _ key value _ => some (key.text, value)
  | .qualifier .. => none

def characters (written : WrittenAttribute) : List Char :=
  written.gap.characters ++ written.key ++ '=' :: '"' :: written.value ++ ['"']

end WrittenAttribute

/-- What a tag holds that begins an element. -/
structure Head where
  qualifier? : Option Name
  name : Name
  attributes : List WrittenAttribute
  padding : Blanks
  distinct : (attributes.map WrittenAttribute.key).Nodup

namespace Head

def qualified (head : Head) : List Char :=
  match head.qualifier? with
  | none => head.name.characters
  | some qualifier => qualifier.characters ++ ':' :: head.name.characters

def characters (head : Head) : List Char :=
  head.qualified ++ head.attributes.flatMap WrittenAttribute.characters ++
    head.padding.characters

def pairs (head : Head) : List (String × String) :=
  head.attributes.filterMap WrittenAttribute.pair?

end Head

/-! ## Content -/

/-- What may stand between tags and says nothing. -/
inductive Aside where
  | text (characters : List Char) (free : '<' ∉ characters)
  | comment (characters : List Char) (free : '-' ∉ characters)
  | declaration (characters : List Char) (free : '>' ∉ characters)

def Aside.characters : Aside → List Char
  | .text characters _ => characters
  | .comment characters _ => "<!--".toList ++ characters ++ "-->".toList
  | .declaration characters _ => "<?xml".toList ++ characters ++ "?>".toList

/-- Elements in order, with what stands before, between and after them. -/
inductive Written where
  | nil
  | aside (between : Aside) (rest : Written)
  | empty (head : Head) (rest : Written)
  | element (head : Head) (inside : Written) (padding : Blanks) (rest : Written)

namespace Written

def characters : Written → List Char
  | .nil => []
  | .aside between rest => between.characters ++ rest.characters
  | .empty head rest => '<' :: head.characters ++ '/' :: '>' :: rest.characters
  | .element head inside padding rest =>
      '<' :: head.characters ++ '>' :: inside.characters ++
        '<' :: '/' :: head.qualified ++ padding.characters ++ '>' :: rest.characters

def text (written : Written) : String := String.ofList written.characters

def elements : Written → List Element
  | .nil => []
  | .aside _ rest => rest.elements
  | .empty head rest => ⟨head.name.text, head.pairs, []⟩ :: rest.elements
  | .element head inside _ rest =>
      ⟨head.name.text, head.pairs, inside.elements⟩ :: rest.elements

end Written

/-! ## Trees -/

def IsName (text : String) : Prop :=
  text.toList ≠ [] ∧ text.toList.all isNameCharacter = true

/-- Trees that leave nothing to escape but their values. -/
inductive Element.IsPlain : Element → Prop where
  | intro {name : String} {attributes : List (String × String)} {children : List Element}
      (named : IsName name)
      (keyed : ∀ pair ∈ attributes,
        IsName pair.1 ∧ namespaceKey.isPrefixOf pair.1.toList = false)
      (distinct : (attributes.map Prod.fst).Nodup)
      (below : ∀ child ∈ children, child.IsPlain) :
      IsPlain ⟨name, attributes, children⟩

end CommandReference.Markup
