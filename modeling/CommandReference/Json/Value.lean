import CommandReference.Number.Binary64
import CommandReference.SortedMap

namespace CommandReference.Json

/-! JSON values. -/

inductive Value where
  | null
  | boolean (value : Bool)
  | integer (value : Int)
  | real (negative : Bool) (magnitude : Number.Binary64)
  | text (value : String)
  | array (items : List Value)
  | object (fields : List (String × Value))
  deriving Repr, Inhabited

namespace Value

mutual

def decideEq : (left right : Value) → Decidable (left = right)
  | .null, .null => .isTrue rfl
  | .boolean left, .boolean right =>
      decidable_of_iff (left = right) ⟨congrArg _, by intro equal; injection equal⟩
  | .integer left, .integer right =>
      decidable_of_iff (left = right) ⟨congrArg _, by intro equal; injection equal⟩
  | .real negative left, .real otherNegative right =>
      decidable_of_iff (negative = otherNegative ∧ left = right) (by simp)
  | .text left, .text right =>
      decidable_of_iff (left = right) ⟨congrArg _, by intro equal; injection equal⟩
  | .array left, .array right =>
      match decideEqAll left right with
      | .isTrue equal => .isTrue (by rw [equal])
      | .isFalse differ => .isFalse fun equal => differ (by injection equal)
  | .object left, .object right =>
      match decideEqFields left right with
      | .isTrue equal => .isTrue (by rw [equal])
      | .isFalse differ => .isFalse fun equal => differ (by injection equal)
  | .null, .boolean _ | .null, .integer _ | .null, .real .. | .null, .text _
  | .null, .array _ | .null, .object _ | .boolean _, .null | .boolean _, .integer _
  | .boolean _, .real .. | .boolean _, .text _ | .boolean _, .array _
  | .boolean _, .object _ | .integer _, .null | .integer _, .boolean _
  | .integer _, .real .. | .integer _, .text _ | .integer _, .array _
  | .integer _, .object _ | .real .., .null | .real .., .boolean _
  | .real .., .integer _ | .real .., .text _ | .real .., .array _
  | .real .., .object _ | .text _, .null | .text _, .boolean _ | .text _, .integer _
  | .text _, .real .. | .text _, .array _ | .text _, .object _ | .array _, .null
  | .array _, .boolean _ | .array _, .integer _ | .array _, .real ..
  | .array _, .text _ | .array _, .object _ | .object _, .null | .object _, .boolean _
  | .object _, .integer _ | .object _, .real .. | .object _, .text _
  | .object _, .array _ => .isFalse (by simp)

def decideEqAll : (left right : List Value) → Decidable (left = right)
  | [], [] => .isTrue rfl
  | [], _ :: _ | _ :: _, [] => .isFalse (by simp)
  | left :: lefts, right :: rights =>
      match decideEq left right, decideEqAll lefts rights with
      | .isTrue heads, .isTrue tails => .isTrue (by rw [heads, tails])
      | .isFalse differ, _ => .isFalse fun equal => differ (by injection equal)
      | _, .isFalse differ => .isFalse fun equal => differ (by injection equal)

def decideEqFields : (left right : List (String × Value)) → Decidable (left = right)
  | [], [] => .isTrue rfl
  | [], _ :: _ | _ :: _, [] => .isFalse (by simp)
  | (key, left) :: lefts, (otherKey, right) :: rights =>
      match decEq key otherKey, decideEq left right, decideEqFields lefts rights with
      | .isTrue keys, .isTrue heads, .isTrue tails => .isTrue (by rw [keys, heads, tails])
      | .isFalse differ, _, _ => .isFalse fun equal => differ (by
          injection equal with heads; injection heads)
      | _, .isFalse differ, _ => .isFalse fun equal => differ (by
          injection equal with heads; injection heads)
      | _, _, .isFalse differ => .isFalse fun equal => differ (by injection equal)

end

instance : DecidableEq Value := decideEq

/-- An object whose fields are put in the order of their keys; of two fields
with one key, the later one counts. -/
def ofFields (fields : List (String × Value)) : Value :=
  .object (SortedMap.ofList fields).entries

def ofMap (map : SortedMap String Value) : Value := .object map.entries

def ofTexts (texts : List String) : Value := .array (texts.map .text)

def field? (value : Value) (key : String) : Option Value :=
  match value with
  | .object fields => fields.lookup key
  | _ => none

end Value

end CommandReference.Json
