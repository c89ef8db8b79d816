import CommandReference.Proofs.Command.Environment
import CommandReference.Proofs.Definition.Invariants

namespace CommandReference

/-! What is true of every argument in a compiled reference. Commands hand out their arguments
as they are, environments add delimiters to them, and entries drop and sort signatures and
make arguments optional. So a property of arguments holds throughout a reference if it holds
of what elements encode and of the delimiters of environments, whether an argument may be
left out or not. -/

open Markup (Element)

theorem exists_of_mem_of_forall₂ {related : α → β → Prop} {sources : List α} {results : List β}
    (pairs : List.Forall₂ related sources results) {result : β} (member : result ∈ results) :
    ∃ source ∈ sources, related source result := by
  induction pairs with
  | nil => cases member
  | cons head _ induction =>
      rcases List.mem_cons.mp member with rfl | later
      · exact ⟨_, List.mem_cons_self, head⟩
      · rcases induction later with ⟨source, inRest, isRelated⟩
        exact ⟨source, List.mem_cons_of_mem _ inRest, isRelated⟩

/-- A property of arguments that compilation keeps. Elements of the files pass a property of
items on, from which it follows for the arguments that are made of items; the delimiters of
environments have it; and it is the same for arguments that may be left out. -/
structure Argument.IsKept (files : List InterfaceFile) (ofItem : Item → Prop)
    (kind : Argument → Prop) : Prop where
  passesOn : ∀ node, Inside [node] (InterfaceFile.roots files) → PassesOn ofItem node
  argument : ∀ argument, ofItem (.argument argument) → kind argument
  fragment : ∀ text, ofItem (.fragment text) → kind (.constant text)
  body : kind (.delimiter environmentBody)
  closing : ∀ name, kind (.delimiter ("\\" ++ name))
  optional : ∀ argument, kind argument → kind (argument.withOptional true)

/-! ## Signatures -/

namespace Signature

def EachArgument (kind : Argument → Prop) (signature : Signature) : Prop :=
  ∀ argument ∈ signature.arguments, kind argument

variable {kind : Argument → Prop}
  (optional : ∀ argument, kind argument → kind (argument.withOptional true))
include optional

theorem EachArgument.relaxed {signature relaxed : Signature}
    (each : signature.EachArgument kind) (relaxes : signature.RelaxesTo relaxed) :
    relaxed.EachArgument kind := by
  intro argument member
  rcases exists_of_mem_of_forall₂ relaxes.arguments member with ⟨original, inSignature, becomes⟩
  have own := each original inSignature
  rcases becomes with rfl | rfl
  · exact own
  · exact optional original own

theorem eachArgument_simplify {signatures : List Signature}
    (each : ∀ signature ∈ signatures, signature.EachArgument kind) :
    ∀ signature ∈ simplify signatures, signature.EachArgument kind := by
  intro signature member
  rcases simplify_relaxes signatures with ⟨originals, sublist, relaxes⟩
  rcases exists_of_mem_of_forall₂ relaxes member with ⟨original, kept, becomes⟩
  have given := (sublist.trans (dropRepeated_sublist signatures)).subset kept
  exact (each original given).relaxed optional becomes

end Signature

/-! ## Entries -/

namespace Entry

def EachArgument (kind : Argument → Prop) (entry : Entry) : Prop :=
  ∀ signature ∈ entry.signatures, signature.EachArgument kind

variable {kind : Argument → Prop} {entry : Entry}

theorem EachArgument.sorted (each : entry.EachArgument kind) :
    entry.sorted.EachArgument kind :=
  fun signature member => each signature (List.mem_mergeSort.mp member)

theorem EachArgument.simplified
    (optional : ∀ argument, kind argument → kind (argument.withOptional true))
    (each : entry.EachArgument kind) : entry.simplified.EachArgument kind := by
  have merged : ({ entry with signatures := Signature.simplify entry.signatures } :
      Entry).EachArgument kind := Signature.eachArgument_simplify optional each
  exact merged.sorted

theorem Records.eachArgument {entries : SortedMap String Entry}
    {commands : List (String × Signature)} (records : Records entries commands)
    (each : ∀ command ∈ commands, command.2.EachArgument kind) {name : String}
    (found : entries.get? name = some entry) : entry.EachArgument kind := by
  rw [records name] at found
  split at found
  case isTrue => cases found
  case isFalse =>
    cases found
    intro signature member
    rw [signatures_ofSignatures] at member
    have own := (Signature.dropRepeated_sublist _).subset member
    rcases List.mem_filterMap.mp own with ⟨command, documented, said⟩
    split at said
    case isTrue =>
      cases said
      exact each command documented
    case isFalse => cases said

end Entry

/-! ## Commands -/

namespace CommandNode

theorem arguments_of_ofElement {element : Element} {file : String} {node : CommandNode}
    (described : ofElement element file = .ok node) :
    node.arguments? = element.child? "arguments" := by
  rw [ofElement] at described
  dsimp only at described
  split at described
  · cases described
  · split at described
    · cases described
      rfl
    · cases described
      rfl
    · cases described
      rfl
    · cases described

end CommandNode

theorem Entry.exists_of_mem_documented {definitions : DefinitionTable}
    {files : List InterfaceFile} {command : String × Signature}
    (member : command ∈ documented definitions files) :
    ∃ file element node commands,
      (file, element) ∈ InterfaceFile.elementsNamed files "command" ∧
        CommandNode.ofElement element file = .ok node ∧
        node.expand file definitions = .ok commands ∧ command ∈ commands := by
  rcases List.mem_flatMap.mp member with ⟨⟨file, element⟩, located, own⟩
  rw [commandsOf] at own
  split at own
  case h_1 commands expanded =>
    rcases of_bind_eq_ok expanded with ⟨node, described, stands⟩
    exact ⟨file, element, node, commands, located, described, stands, own⟩
  case h_2 => cases own

namespace Argument.IsKept

variable {files : List InterfaceFile} {ofItem : Item → Prop} {kind : Argument → Prop}
  (kept : IsKept files ofItem kind)
include kept

theorem instanceCommands {node : CommandNode} {arguments : List Argument}
    (each : ∀ argument ∈ arguments, kind argument) (name : String) :
    ∀ command ∈ node.instanceCommands arguments name, command.2.EachArgument kind := by
  rw [CommandNode.instanceCommands]
  cases node.type with
  | normal => exact List.forall_mem_singleton.mpr each
  | environment =>
      have closed : ∀ argument ∈ arguments ++ [.delimiter environmentBody,
          .delimiter ("\\" ++ (node.closing ++ name))], kind argument :=
        List.forall_mem_append.mpr ⟨each, List.forall_mem_cons.mpr
          ⟨kept.body, List.forall_mem_singleton.mpr (kept.closing _)⟩⟩
      exact List.forall_mem_cons.mpr
        ⟨closed, List.forall_mem_singleton.mpr (List.forall_mem_nil _)⟩

theorem documented {definitions : DefinitionTable}
    (known : (Resolution.table definitions).Each ofItem) :
    ∀ command ∈ Entry.documented definitions files, command.2.EachArgument kind := by
  intro command member
  rcases Entry.exists_of_mem_documented member with
    ⟨file, element, node, commands, located, described, expanded, own⟩
  rcases CommandNode.expand_eq_ok_iff.mp expanded with
    ⟨arguments, template, instances, encoded, _, _, rfl⟩
  rcases List.mem_flatMap.mp own with ⟨name, _, ofInstance⟩
  refine kept.instanceCommands ?_ name command ofInstance
  rw [CommandNode.encodedArguments, CommandNode.arguments_of_ofElement described] at encoded
  split at encoded
  case h_1 =>
    cases encoded
    exact List.forall_mem_nil _
  case h_2 list found =>
    have inside : Inside list.children (InterfaceFile.roots files) :=
      ((Inside.children list []).trans (.of_mem (List.mem_of_find?_eq_some found))).trans
        (InterfaceFile.inside_roots located)
    intro argument inList
    rcases argumentsOf_each kept.passesOn known inside encoded argument inList with
      item | ⟨text, rfl, item⟩
    · exact kept.argument argument item
    · exact kept.fragment text item

end Argument.IsKept

/-! ## References -/

namespace Database

def EachArgument (kind : Argument → Prop) (database : Database) : Prop :=
  ∀ name entry, database.get? name = some entry → entry.EachArgument kind

variable {kind : Argument → Prop} {database : Database}

theorem eachArgument_ofEntries {entries : SortedMap String Entry}
    (each : ∀ name entry, entries.get? name = some entry → entry.EachArgument kind) :
    (ofEntries entries).EachArgument kind := by
  intro name entry found
  rw [get?, ofEntries, SortedMap.get?_mapValues] at found
  rcases Option.map_eq_some_iff.mp found with ⟨collected, present, rfl⟩
  exact (each name collected present).sorted

theorem EachArgument.simplified
    (optional : ∀ argument, kind argument → kind (argument.withOptional true))
    (each : database.EachArgument kind) : database.simplified.EachArgument kind := by
  intro name entry found
  rw [get?_simplified] at found
  rcases Option.map_eq_some_iff.mp found with ⟨stored, present, rfl⟩
  exact (each name stored present).simplified optional

theorem ofFiles_eachArgument {configuration : Configuration} {files : List InterfaceFile}
    {ofItem : Item → Prop} (kept : Argument.IsKept files ofItem kind)
    (built : (ofFiles configuration files).result = .ok database) :
    database.EachArgument kind := by
  rcases Outcome.of_bind_eq_ok built with ⟨definitions, resolved, collects⟩
  rcases Outcome.of_bind_eq_ok collects with ⟨entries, collected, published⟩
  have known := DefinitionTable.ofFiles_each kept.passesOn resolved
  have each : (ofEntries entries).EachArgument kind := eachArgument_ofEntries fun _ _ found =>
    (Entry.ofFiles_records collected).eachArgument (kept.documented known) found
  have chosen := Except.ok.inj published
  split at chosen
  case isTrue => exact chosen ▸ each.simplified kept.optional
  case isFalse => exact chosen ▸ each

end Database

end CommandReference
