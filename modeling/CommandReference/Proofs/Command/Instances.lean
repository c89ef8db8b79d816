import CommandReference.Proofs.Command.Environment
import CommandReference.Proofs.Definition.Transparency
import CommandReference.Proofs.Markup.Escape

namespace CommandReference

/-! Instances that a definition lists. A command takes them over as texts for display, in
which some characters have become references, while the same values written with the
command itself are names as they stand. So both ways to list instances document the same
commands exactly if these characters never come into a name. -/

open Markup (Element IsVerbatim escape)

/-! ## Constants -/

def valueConstant (value : String) : Element := ⟨"constant", [("value", value)], []⟩

def definitionReference (name : String) : Element := ⟨"resolve", [("name", name)], []⟩

theorem items_valueConstant (scope : Scope) (resolution : Resolution) (value : String) :
    items scope resolution (valueConstant value) = .ok [.fragment (escape value)] := by
  have parts : items scope resolution (valueConstant value) =
      .ok [.fragment ("" ++ "" ++ escape value)] := rfl
  rw [parts, String.empty_append, String.empty_append]

theorem itemsOfAll_valueConstants (scope : Scope) (resolution : Resolution)
    (values : List String) :
    itemsOfAll scope resolution (values.map valueConstant) =
      .ok (values.map fun value => .fragment (escape value)) := by
  induction values with
  | nil => rfl
  | cons value rest induction =>
      rw [List.map_cons, itemsOfAll, items_valueConstant, induction]
      rfl

theorem mapM_flatten_of_singletons {each : α → Except Failure (List β)} {single : γ → β}
    {source : γ → α} (alone : ∀ value, each (source value) = .ok [single value])
    (values : List γ) :
    ((values.map source).mapM each).map List.flatten = .ok (values.map single) := by
  induction values with
  | nil => rfl
  | cons value rest induction =>
      rcases of_map_eq_ok induction with ⟨found, others, flat⟩
      rw [List.map_cons, List.mapM_cons, alone, others, List.map_cons, flat]
      rfl

namespace CommandNode

/-! ## Lists of instances -/

def withInstances (node : CommandNode) (listed : List Element) : CommandNode :=
  { node with instances? := some ⟨"instances", [], listed⟩ }

variable {definitions : DefinitionTable} {values : List String} {reference : String}

theorem instances_valueConstants (scope : Scope) (definitions : DefinitionTable)
    (node : CommandNode) (values : List String) :
    (node.withInstances (values.map valueConstant)).instances scope definitions =
      .ok values := by
  have alone : ∀ value, childInstances scope definitions (valueConstant value) =
      .ok [id value] := fun _ => rfl
  have listed := mapM_flatten_of_singletons alone values
  rw [List.map_id] at listed
  exact listed

theorem instances_definitionReference (scope : Scope) (node : CommandNode)
    (defined : definitions.get? reference =
      some (values.map fun value => .fragment (escape value))) :
    (node.withInstances [definitionReference reference]).instances scope definitions =
      .ok (values.map escape) := by
  have alone : ∀ value, itemInstances scope reference (.fragment (escape value)) =
      .ok [escape value] := fun _ => rfl
  have named : (definitionReference reference).attributeOrEmpty "name" = reference := rfl
  have child : childInstances scope definitions (definitionReference reference) =
      ((values.map fun value => Item.fragment (escape value)).mapM
        (itemInstances scope reference)).map List.flatten := by
    simp only [childInstances, named, defined]
    rfl
  have listed : (node.withInstances [definitionReference reference]).instances scope
      definitions = ([definitionReference reference].mapM
        (childInstances scope definitions)).map List.flatten := rfl
  rw [listed, List.mapM_cons, child.trans (mapM_flatten_of_singletons alone values)]
  exact congrArg Except.ok (List.append_nil _)

/-! ## Names -/

theorem instanceCommands_injective {node : CommandNode} {arguments : List Argument}
    {name other : String}
    (same : node.instanceCommands arguments name = node.instanceCommands arguments other) :
    name = other := by
  rw [instanceCommands, instanceCommands] at same
  cases isType : node.type with
  | normal =>
      rw [isType] at same
      exact congrArg Prod.fst (List.cons.inj same).1
  | environment =>
      rw [isType] at same
      exact (String.append_right_inj _).mp (congrArg Prod.fst (List.cons.inj same).1)

theorem length_instanceCommands (node : CommandNode) (arguments : List Argument)
    (name other : String) :
    (node.instanceCommands arguments name).length =
      (node.instanceCommands arguments other).length := by
  rw [instanceCommands, instanceCommands]
  cases node.type <;> rfl

theorem flatMap_instanceCommands_eq_iff (node : CommandNode) (arguments : List Argument)
    (values : List String) (name other : String → String) :
    (values.flatMap fun value => node.instanceCommands arguments (name value)) =
        (values.flatMap fun value => node.instanceCommands arguments (other value)) ↔
      ∀ value ∈ values, name value = other value := by
  induction values with
  | nil => exact iff_of_true rfl (List.forall_mem_nil _)
  | cons value rest induction =>
      rw [List.flatMap_cons, List.flatMap_cons, List.forall_mem_cons, ← induction]
      constructor
      · intro same
        rcases List.append_inj same (length_instanceCommands node arguments _ _) with
          ⟨here, later⟩
        exact ⟨instanceCommands_injective here, later⟩
      · rintro ⟨here, later⟩
        rw [here, later]

/-! ## Expansion -/

section
variable {node : CommandNode} {file : String} {first second : List Element} {name : String}

theorem expand_withInstances_eq_iff {written : String → String}
    (instancesFirst : (node.withInstances first).instances ⟨file, node.name⟩ definitions =
      .ok values)
    (instancesSecond : (node.withInstances second).instances ⟨file, node.name⟩ definitions =
      .ok (values.map written)) :
    (node.withInstances second).expand file definitions =
        (node.withInstances first).expand file definitions ↔
      ∀ arguments template, node.encodedArguments file definitions = .ok arguments →
        node.template ⟨file, node.name⟩ = .ok template →
        ∀ value ∈ values,
          concreteName template (written value) = concreteName template value := by
  have staged {listed : List Element} {instances : List String}
      (known : (node.withInstances listed).instances ⟨file, node.name⟩ definitions =
        .ok instances) :
      (node.withInstances listed).expand file definitions =
        (node.encodedArguments file definitions).bind fun arguments =>
          (node.template ⟨file, node.name⟩).bind fun template =>
            .ok (instances.flatMap fun key =>
              node.instanceCommands arguments (concreteName template key)) := by
    have opened := expand_eq_bind (node.withInstances listed) file definitions
    rw [show (node.withInstances listed).instances
      ⟨file, (node.withInstances listed).name⟩ definitions = .ok instances from known] at opened
    exact opened
  rw [staged instancesFirst, staged instancesSecond]
  cases node.encodedArguments file definitions with
  | error failure => exact iff_of_true rfl nofun
  | ok arguments =>
      cases node.template ⟨file, node.name⟩ with
      | error failure => exact iff_of_true rfl nofun
      | ok template =>
          have names := flatMap_instanceCommands_eq_iff node arguments values
            (fun value => concreteName template (written value)) (concreteName template)
          simp only [Except.bind, Except.ok.injEq, List.flatMap_map]
          refine names.trans ⟨?_, fun each => each arguments template rfl rfl⟩
          rintro each _ _ rfl rfl
          exact each

end

/-- Instances that are referred to are the written forms of the values that their definition
lists. So the command documents the same as with the values themselves exactly if its names
are the same for all of them, as they are for values without characters that have
references. -/
theorem expand_referenced {declaring : Scope} {resolution : Resolution} {found : List Item}
    (encoded : itemsOfAll declaring resolution (values.map valueConstant) = .ok found)
    (defined : definitions.get? reference = some found) (node : CommandNode) (file : String) :
    (node.withInstances [definitionReference reference]).expand file definitions =
        (node.withInstances ((values.map escape).map valueConstant)).expand file definitions ∧
      ((node.withInstances [definitionReference reference]).expand file definitions =
          (node.withInstances (values.map valueConstant)).expand file definitions ↔
        ∀ arguments template, node.encodedArguments file definitions = .ok arguments →
          node.template ⟨file, node.name⟩ = .ok template →
          ∀ value ∈ values,
            concreteName template (escape value) = concreteName template value) ∧
      ((∀ value ∈ values, IsVerbatim value.toList) →
        (node.withInstances [definitionReference reference]).expand file definitions =
          (node.withInstances (values.map valueConstant)).expand file definitions) := by
  rw [itemsOfAll_valueConstants] at encoded
  cases encoded
  have referred := instances_definitionReference ⟨file, node.name⟩ node defined
  have criterion := expand_withInstances_eq_iff
    (instances_valueConstants ⟨file, node.name⟩ definitions node values) referred
  refine ⟨?_, criterion, fun verbatim => criterion.mpr fun _ _ _ _ value member => ?_⟩
  · have listed := instances_valueConstants ⟨file, node.name⟩ definitions node
      (values.map escape)
    rw [← List.map_id (values.map escape)] at referred
    refine (expand_withInstances_eq_iff listed referred).mpr ?_
    exact fun _ _ _ _ _ _ => rfl
  · rw [(Markup.escape_eq_self_iff value).mpr (verbatim value member)]

/-! ## A name with an ampersand -/

private def areaCommand : CommandNode :=
  ⟨"area", none, .environment, "start", "stop", none, none, none⟩

private def areaTable : DefinitionTable :=
  .ofList [("areas", [.fragment "arts", .fragment "R&amp;D"])]

theorem expand_referenced_ampersand :
    itemsOfAll ⟨"i-test.xml", "areas"⟩ .deferred (["arts", "R&D"].map valueConstant) =
        .ok [.fragment "arts", .fragment "R&amp;D"] ∧
      areaTable.get? "areas" = some [.fragment "arts", .fragment "R&amp;D"] ∧
      (areaCommand.withInstances [definitionReference "areas"]).expand "i-test.xml" areaTable =
        (areaCommand.withInstances ((["arts", "R&D"].map escape).map valueConstant)).expand
          "i-test.xml" areaTable := by
  have encoded : itemsOfAll ⟨"i-test.xml", "areas"⟩ .deferred
      (["arts", "R&D"].map valueConstant) =
        .ok [.fragment "arts", .fragment "R&amp;D"] := by rfl
  have defined : areaTable.get? "areas" = some [.fragment "arts", .fragment "R&amp;D"] := by
    decide
  exact ⟨encoded, defined, (expand_referenced encoded defined areaCommand "i-test.xml").1⟩

/-- A definition does not always give a command the names that its values are. -/
theorem expand_referenced_renames :
    ¬ ∀ (node : CommandNode) (file : String) (definitions : DefinitionTable)
      (reference : String) (values : List String) (declaring : Scope)
      (resolution : Resolution) (found : List Item),
      itemsOfAll declaring resolution (values.map valueConstant) = .ok found →
        definitions.get? reference = some found →
          (node.withInstances [definitionReference reference]).expand file definitions =
            (node.withInstances (values.map valueConstant)).expand file definitions := by
  intro claim
  have same := claim areaCommand "i-test.xml" areaTable "areas" ["arts", "R&D"]
    ⟨"i-test.xml", "areas"⟩ .deferred _ rfl (by decide)
  have names := congrArg (Except.map (List.map Prod.fst)) same
  have referred : Except.map (List.map Prod.fst) ((areaCommand.withInstances
      [definitionReference "areas"]).expand "i-test.xml" areaTable) =
        .ok ["startarts", "stoparts", "startR&amp;D", "stopR&amp;D"] := by rfl
  have written : Except.map (List.map Prod.fst) ((areaCommand.withInstances
      (["arts", "R&D"].map valueConstant)).expand "i-test.xml" areaTable) =
        .ok ["startarts", "stoparts", "startR&D", "stopR&D"] := by rfl
  rw [referred, written] at names
  exact absurd (Except.ok.inj names) (by decide)

end CommandNode

end CommandReference
