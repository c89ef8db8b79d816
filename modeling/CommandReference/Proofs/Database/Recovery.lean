import CommandReference.Database
import CommandReference.Proofs.Results
import CommandReference.Proofs.SortedMap

namespace CommandReference

/-! Reading arguments back from what is published of them. Constants, delimiters and
placeholders are all published as texts, so the kind of an argument is not written out. It is
told by how its text and its rendering go together: a constant shows as its own text, a
placeholder never does, and a delimiter has no text but shows something. -/

open Json (Value)

/-! ## Reading values -/

namespace Json.Value

def text? : Value → Option String
  | .text value => some value
  | _ => none

def boolean? : Value → Option Bool
  | .boolean value => some value
  | _ => none

def texts? : Value → Option (List String)
  | .array items => items.mapM text?
  | _ => none

@[simp] theorem texts?_ofTexts (texts : List String) : (ofTexts texts).texts? = some texts :=
  mapM_map_of_reads fun _ _ => rfl

theorem field?_ofFields {fields : List (String × Value)}
    (sorted : (fields.map Prod.fst).Pairwise (· < ·)) (key : String) :
    (ofFields fields).field? key = fields.lookup key := by
  rw [ofFields, SortedMap.entries_ofList (List.pairwise_map.mp sorted)]
  rfl

end Json.Value

/-! ## Content -/

namespace Placeholder

def ofLabel? (label : String) : Option Placeholder :=
  all.find? (·.label = label)

theorem ofLabel?_label (kind : Placeholder) : ofLabel? kind.label = some kind := by
  cases kind <;> decide

theorem label_ne_rendering (kind : Placeholder) : kind.label ≠ kind.rendering := by
  cases kind <;> decide

theorem label_ne_empty (kind : Placeholder) : kind.label ≠ "" := by
  cases kind <;> decide

end Placeholder

namespace Content

/-- Whether content that goes by its text shows in the way that tells its kind. -/
def TellsKind (rendering : String) : Content → Prop
  | constant text => rendering = text
  | keywords _ | assignments _ => True
  | delimiter => rendering ≠ ""
  | placeholder kind => rendering = kind.rendering

def assignmentOfJson? (field : String × Value) : Option (String × List String) :=
  field.2.texts?.map fun values => (field.1, values)

def ofJson? (rendering : String) : Value → Option Content
  | .text text =>
      if text = rendering then some (constant text)
      else if text = "" then some delimiter
      else (Placeholder.ofLabel? text).map placeholder
  | .array items => (items.mapM Value.text?).map keywords
  | .object fields =>
      (fields.mapM assignmentOfJson?).map fun values => assignments (.ofList values)
  | _ => none

theorem ofJson?_toJson {content : Content} {rendering : String}
    (tells : content.TellsKind rendering) :
    ofJson? rendering content.toJson = some content := by
  cases content with
  | constant text => exact if_pos (Eq.symm tells)
  | keywords items =>
      have reads : (items.map Value.text).mapM Value.text? = some items :=
        mapM_map_of_reads fun _ _ => rfl
      rw [toJson, Value.ofTexts, ofJson?, reads]
      rfl
  | assignments values =>
      have reads : (values.entries.map fun entry => (entry.1, Value.ofTexts entry.2)).mapM
          assignmentOfJson? = some values.entries :=
        mapM_map_of_reads fun entry _ => by rw [assignmentOfJson?, Value.texts?_ofTexts]; rfl
      rw [toJson, Value.ofMap, ofJson?, SortedMap.mapValues, reads, Option.map_some,
        SortedMap.ofList_entries]
  | delimiter =>
      rw [toJson, ofJson?, if_neg (Ne.symm tells), if_pos rfl]
  | placeholder kind =>
      have shows : rendering = kind.rendering := tells
      rw [toJson, ofJson?, shows, if_neg kind.label_ne_rendering, if_neg kind.label_ne_empty,
        Placeholder.ofLabel?_label]
      rfl

end Content

/-! ## Arguments -/

namespace Argument

def TellsKind (argument : Argument) : Prop := argument.content.TellsKind argument.rendering

def ofJson? (value : Value) : Option Argument := do
  let rendering ← (← value.field? "rendering").text?
  let content ← Content.ofJson? rendering (← value.field? "content")
  let inherits ← (← value.field? "inherits").texts?
  let optional ← (← value.field? "optional").boolean?
  return ⟨content, rendering, inherits, optional⟩

theorem field?_toJson (argument : Argument) (key : String) :
    argument.toJson.field? key =
      [("content", argument.content.toJson), ("inherits", .ofTexts argument.inherits),
        ("optional", .boolean argument.optional),
        ("rendering", .text argument.rendering)].lookup key := by
  have keys : ["content", "inherits", "optional", "rendering"].Pairwise (· < ·) := by decide
  rw [toJson]
  apply Value.field?_ofFields
  exact keys

theorem ofJson?_toJson {argument : Argument} (tells : argument.TellsKind) :
    ofJson? argument.toJson = some argument := by
  have rendering : argument.toJson.field? "rendering" = some (.text argument.rendering) :=
    argument.field?_toJson "rendering"
  have content : argument.toJson.field? "content" = some argument.content.toJson :=
    argument.field?_toJson "content"
  have inherits : argument.toJson.field? "inherits" = some (.ofTexts argument.inherits) :=
    argument.field?_toJson "inherits"
  have optional : argument.toJson.field? "optional" = some (.boolean argument.optional) :=
    argument.field?_toJson "optional"
  simp only [ofJson?, rendering, content, inherits, optional, Option.bind_eq_bind,
    Option.bind_some, Value.text?, Value.boolean?, Value.texts?_ofTexts,
    Content.ofJson?_toJson tells]
  rfl

/-- Without that, different arguments may be published alike. -/
example : (constant "").toJson = (delimiter "").toJson := rfl

end Argument

namespace Signature

def argumentsOfJson? : Value → Option (List Argument)
  | .array items => items.mapM Argument.ofJson?
  | _ => none

theorem argumentsOfJson?_toJson {signature : Signature}
    (tells : ∀ argument ∈ signature.arguments, argument.TellsKind) :
    argumentsOfJson? signature.toJson = some signature.arguments :=
  mapM_map_of_reads fun argument member => Argument.ofJson?_toJson (tells argument member)

end Signature

end CommandReference
