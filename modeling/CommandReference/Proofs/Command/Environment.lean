import CommandReference.Proofs.Command.Collection

namespace CommandReference

/-! Environments in a compiled reference. Whatever a command says that is documented, the
entry of its name says in the end: repetitions are dropped, signatures are sorted and
merged, but none of this takes anything away. So an environment keeps both of its commands,
and the one that opens it goes on to name the one that closes it. -/

open Markup (Element)

/-! ## What entries keep -/

namespace Entry

/-- An entry that names the source file of a signature and accepts what it accepts. -/
structure Covers (entry : Entry) (signature : Signature) : Prop where
  file : ∀ file, signature.file? = some file → file ∈ entry.files.keys
  accepted : ∃ kept ∈ entry.signatures, signature.CoveredBy kept

theorem covers_ofSignatures {signatures : List Signature} {signature : Signature}
    (member : signature ∈ signatures) : (ofSignatures signatures).Covers signature where
  file _ documented := mem_files_ofSignatures.mpr ⟨signature, member, documented⟩
  accepted := by
    rw [signatures_ofSignatures]
    exact Signature.dropRepeated_covered member

variable {entry : Entry} {signature : Signature}

theorem Covers.sorted (covers : entry.Covers signature) : entry.sorted.Covers signature where
  file := covers.file
  accepted := by
    rcases covers.accepted with ⟨kept, member, covered⟩
    exact ⟨kept, List.mem_mergeSort.mpr member, covered⟩

theorem Covers.simplified (covers : entry.Covers signature) :
    entry.simplified.Covers signature := by
  have merged : ({ entry with signatures := Signature.simplify entry.signatures } :
      Entry).Covers signature := by
    refine ⟨covers.file, ?_⟩
    rcases covers.accepted with ⟨kept, member, covered⟩
    rcases Signature.simplify_covered member with ⟨last, lastMember, further⟩
    exact ⟨last, lastMember, covered.trans further⟩
  exact merged.sorted

end Entry

theorem Database.ofFiles_covers {configuration : Configuration} {files : List InterfaceFile}
    {definitions : DefinitionTable} {database : Database}
    (resolved : (DefinitionTable.ofFiles configuration.policy files).result = .ok definitions)
    (built : (Database.ofFiles configuration files).result = .ok database)
    {name : String} (named : name ≠ "") {signature : Signature}
    (documented : (name, signature) ∈ Entry.documented definitions files) :
    ∃ entry, database.get? name = some entry ∧ entry.Covers signature := by
  rcases Outcome.of_bind_eq_ok built with ⟨others, resolvedOthers, collects⟩
  cases resolved.symm.trans resolvedOthers
  rcases Outcome.of_bind_eq_ok collects with ⟨entries, collected, published⟩
  have member : signature ∈ Entry.signaturesFor name (Entry.documented definitions files) :=
    List.mem_filterMap.mpr ⟨_, documented, if_pos rfl⟩
  have covers := Entry.covers_ofSignatures member
  have found := (Entry.ofFiles_records collected name).trans
    (if_neg (not_or.mpr ⟨named, List.ne_nil_of_mem member⟩))
  have raw : (Database.ofEntries entries).get? name =
      some (Entry.ofSignatures (Entry.signaturesFor name
        (Entry.documented definitions files))).sorted := by
    rw [get?, ofEntries, SortedMap.get?_mapValues, found]
    rfl
  have chosen := Except.ok.inj published
  split at chosen
  · subst chosen
    exact ⟨_, by rw [get?_simplified, raw]; rfl, covers.sorted.simplified⟩
  · subst chosen
    exact ⟨_, raw, covers.sorted⟩

/-! ## What an element stands for -/

namespace CommandNode

def encodedArguments (node : CommandNode) (file : String) (definitions : DefinitionTable) :
    Except Failure (List Argument) :=
  match node.arguments? with
  | none => .ok []
  | some list => argumentsOf ⟨file, node.name⟩ (.table definitions) list.children

theorem expand_eq_bind (node : CommandNode) (file : String) (definitions : DefinitionTable) :
    node.expand file definitions =
      (node.encodedArguments file definitions).bind fun arguments =>
        (node.template ⟨file, node.name⟩).bind fun template =>
          (node.instances ⟨file, node.name⟩ definitions).bind fun instances =>
            .ok (instances.flatMap fun key =>
              node.instanceCommands arguments (concreteName template key)) := by
  rw [expand, encodedArguments]
  cases node.arguments? <;> rfl

theorem expand_eq_ok_iff {node : CommandNode} {file : String} {definitions : DefinitionTable}
    {commands : List (String × Signature)} :
    node.expand file definitions = .ok commands ↔
      ∃ arguments template instances,
        node.encodedArguments file definitions = .ok arguments ∧
          node.template ⟨file, node.name⟩ = .ok template ∧
          node.instances ⟨file, node.name⟩ definitions = .ok instances ∧
          commands = (instances.map (concreteName template)).flatMap
            (node.instanceCommands arguments) := by
  rw [expand_eq_bind]
  cases node.encodedArguments file definitions with
  | error failure => exact iff_of_false nofun (by rintro ⟨_, _, _, encoded, _⟩; cases encoded)
  | ok arguments =>
      cases node.template ⟨file, node.name⟩ with
      | error failure => exact iff_of_false nofun (by rintro ⟨_, _, _, _, read, _⟩; cases read)
      | ok template =>
          cases node.instances ⟨file, node.name⟩ definitions with
          | error failure =>
              exact iff_of_false nofun (by rintro ⟨_, _, _, _, _, listed, _⟩; cases listed)
          | ok instances =>
              simp only [Except.bind, Except.ok.injEq, exists_and_left, exists_eq_left',
                List.flatMap_map]
              exact eq_comm

theorem instanceCommands_environment {node : CommandNode} (environment : node.type = .environment)
    (arguments : List Argument) (name : String) :
    node.instanceCommands arguments name =
      [(node.opening ++ name,
          ⟨arguments ++ [.delimiter environmentBody,
            .delimiter ("\\" ++ (node.closing ++ name))], node.file?⟩),
        (node.closing ++ name, ⟨[], node.file?⟩)] := by
  rw [instanceCommands, environment]

end CommandNode

theorem Entry.mem_documented {definitions : DefinitionTable} {files : List InterfaceFile}
    {file : String} {element : Element} {node : CommandNode}
    {commands : List (String × Signature)}
    (located : (file, element) ∈ InterfaceFile.elementsNamed files "command")
    (described : CommandNode.ofElement element file = .ok node)
    (expanded : node.expand file definitions = .ok commands) {command : String × Signature}
    (member : command ∈ commands) : command ∈ documented definitions files := by
  have whole : expandElement definitions file element = .ok commands := by
    rw [expandElement, described]
    exact expanded
  refine List.mem_flatMap.mpr ⟨(file, element), located, ?_⟩
  rw [commandsOf, whole]
  exact member

theorem Shortens.all_optional {arguments : List Argument} (shortens : Shortens arguments []) :
    ∀ argument ∈ arguments, argument.optional = true := by
  generalize empty : ([] : List Argument) = short at shortens
  induction shortens with
  | nil => exact List.forall_mem_nil _
  | keep => cases empty
  | drop optional _ induction => exact List.forall_mem_cons.mpr ⟨optional, induction empty⟩

namespace Configuration

theorem compile_eq_ok {configuration : Configuration} {source : Source} {root : Path}
    {steps : Nat} {warnings : List Warning} {database : Database}
    (compiled : configuration.compile source root steps = some ⟨warnings, .ok database⟩) :
    ∃ noted files, configuration.load source root steps = some ⟨noted, .ok files⟩ ∧
      (Database.ofFiles configuration files).result = .ok database := by
  rcases Option.map_eq_some_iff.mp compiled with ⟨loading, loaded, built⟩
  rcases Outcome.of_bind_eq_ok (congrArg Outcome.result built) with ⟨files, read, later⟩
  rcases loading with ⟨noted, result⟩
  cases read
  exact ⟨noted, files, loaded, later⟩

/-- Compilation keeps environments. For each name that an environment in the corpus is given,
there are entries of the command that opens it and of the one that closes it, with the source
file of the environment. One signature of the first becomes the arguments of the environment,
its body and the second command when some optional arguments are left out, and one signature
of the second can be left without arguments. -/
theorem compile_keeps_environments {configuration : Configuration} {source : Source}
    {root : Path} {steps : Nat} {warnings : List Warning} {database : Database}
    (compiled : configuration.compile source root steps = some ⟨warnings, .ok database⟩) :
    ∃ noted files definitions,
      configuration.load source root steps = some ⟨noted, .ok files⟩ ∧
        (DefinitionTable.ofFiles configuration.policy files).result = .ok definitions ∧
        ∀ file element node commands,
          (file, element) ∈ InterfaceFile.elementsNamed files "command" →
          CommandNode.ofElement element file = .ok node → node.type = .environment →
          node.expand file definitions = .ok commands →
          ∃ (arguments : List Argument) (names : List String),
            node.encodedArguments file definitions = .ok arguments ∧
            (commands = names.flatMap fun name =>
              [(node.opening ++ name,
                  ⟨arguments ++ [.delimiter environmentBody,
                    .delimiter ("\\" ++ (node.closing ++ name))], node.file?⟩),
                (node.closing ++ name, ⟨[], node.file?⟩)]) ∧
            ∀ name ∈ names, node.opening ++ name ≠ "" → node.closing ++ name ≠ "" →
              ∃ first last,
                database.get? (node.opening ++ name) = some first ∧
                  database.get? (node.closing ++ name) = some last ∧
                  (∀ own, node.file? = some own →
                    own ∈ first.files.keys ∧ own ∈ last.files.keys) ∧
                  (∃ kept ∈ first.signatures, kept.Accepts
                    ((arguments ++ [Argument.delimiter environmentBody,
                      Argument.delimiter ("\\" ++ (node.closing ++ name))]).map
                        Argument.unmarked)) ∧
                  ∃ kept ∈ last.signatures, ∀ argument ∈ kept.arguments,
                    argument.optional = true := by
  rcases compile_eq_ok compiled with ⟨noted, files, loaded, built⟩
  rcases Outcome.of_bind_eq_ok built with ⟨definitions, resolved, _⟩
  refine ⟨noted, files, definitions, loaded, resolved, ?_⟩
  intro file element node commands located described environment expanded
  rcases CommandNode.expand_eq_ok_iff.mp expanded with
    ⟨arguments, template, instances, encoded, _, _, pairs⟩
  rw [funext (CommandNode.instanceCommands_environment environment arguments)] at pairs
  refine ⟨arguments, instances.map (CommandNode.concreteName template), encoded, pairs, ?_⟩
  intro name member openingNamed closingNamed
  have documented {command : String × Signature}
      (one : command ∈ [(node.opening ++ name, (⟨arguments ++ [.delimiter environmentBody,
          .delimiter ("\\" ++ (node.closing ++ name))], node.file?⟩ : Signature)),
        (node.closing ++ name, ⟨[], node.file?⟩)]) :
      command ∈ Entry.documented definitions files := by
    refine Entry.mem_documented located described expanded ?_
    rw [pairs]
    exact List.mem_flatMap.mpr ⟨name, member, one⟩
  rcases Database.ofFiles_covers resolved built openingNamed (documented List.mem_cons_self)
    with ⟨first, foundFirst, coversFirst⟩
  rcases Database.ofFiles_covers resolved built closingNamed
    (documented (List.mem_cons_of_mem _ List.mem_cons_self)) with ⟨last, foundLast, coversLast⟩
  refine ⟨first, last, foundFirst, foundLast,
    fun own documentedIn => ⟨coversFirst.file own documentedIn, coversLast.file own documentedIn⟩,
    ?_, ?_⟩
  · rcases coversFirst.accepted with ⟨kept, keptMember, covered⟩
    exact ⟨kept, keptMember, covered _ ⟨_, .refl _, rfl⟩⟩
  · rcases coversLast.accepted with ⟨kept, keptMember, covered⟩
    rcases covered [] ⟨[], .nil, rfl⟩ with ⟨short, shortens, none⟩
    rw [List.map_eq_nil_iff.mp none] at shortens
    exact ⟨kept, keptMember, shortens.all_optional⟩

private def frob (documentedIn : List (String × String)) (argument : Element) : Element :=
  ⟨"command", [("name", "frob"), ("type", "environment")] ++ documentedIn,
    [⟨"arguments", [], [argument]⟩]⟩

private def frobText (documentedIn argument : String) : String :=
  "<i><command name=\"frob\" type=\"environment\"" ++ documentedIn ++ "><arguments>" ++
    argument ++ "</arguments></command></i>"

private def frobTwice : MemorySource := .ofFiles
  [(.ofText "/c/i-common-definitions.xml",
      Utf8.encode (frobText " file=\"a\"" "<content/>")),
    (.ofText "/c/i-context.xml", Utf8.encode (frobText "" "<content optional=\"yes\"/>"))]

private def frobTwiceFiles : List InterfaceFile :=
  [⟨"i-common-definitions.xml", ⟨"i", [], [frob [("file", "a")] ⟨"content", [], []⟩]⟩⟩,
    ⟨"i-context.xml", ⟨"i", [], [frob [] ⟨"content", [("optional", "yes")], []⟩]⟩⟩]

private def frobNode : CommandNode where
  name := "frob"
  file? := some "a"
  type := .environment
  opening := "start"
  closing := "stop"
  instances? := none
  sequence? := none
  arguments? := some ⟨"arguments", [], [⟨"content", [], []⟩]⟩

private theorem load_frobTwice :
    default.load frobTwice.toSource (.ofText "/c") 1 = some ⟨[], .ok frobTwiceFiles⟩ :=
  Outcome.eq_some_of_toOption (by decide +kernel)

/-- The second of two environments with one name absorbs the first. The commands of the
first are still there. -/
theorem compile_keeps_environments_absorbed :
    ∃ database first last,
      default.compile frobTwice.toSource (.ofText "/c") 1 = some ⟨[], .ok database⟩ ∧
        database.get? "startfrob" = some first ∧ database.get? "stopfrob" = some last ∧
        "a" ∈ first.files.keys ∧ "a" ∈ last.files.keys ∧
        (∃ kept ∈ first.signatures, kept.Accepts [.placeholder .content false,
          .delimiter "...", .delimiter "\\stopfrob"]) ∧
        ∃ kept ∈ last.signatures, ∀ argument ∈ kept.arguments, argument.optional = true := by
  have compiles : ∃ database, default.compile frobTwice.toSource (.ofText "/c") 1 =
      some ⟨[], .ok database⟩ := by
    rw [compile, load_frobTwice]
    exact ⟨_, rfl⟩
  rcases compiles with ⟨database, compiled⟩
  rcases compile_keeps_environments compiled with
    ⟨noted, files, definitions, loaded, _, keeps⟩
  cases load_frobTwice.symm.trans loaded
  have expanded : frobNode.expand "i-common-definitions.xml" definitions =
      .ok (frobNode.instanceCommands [.placeholder .content false] "frob") := rfl
  rcases keeps "i-common-definitions.xml" (frob [("file", "a")] ⟨"content", [], []⟩) frobNode _
    (by decide) (by decide) rfl expanded with ⟨arguments, names, encoded, pairs, each⟩
  cases (Except.ok.inj encoded : [Argument.placeholder .content false] = arguments)
  cases names with
  | nil => cases pairs
  | cons name rest =>
      have named : frobNode.opening ++ "frob" = frobNode.opening ++ name :=
        congrArg Prod.fst (List.cons.inj pairs).1
      cases (String.append_right_inj _).mp named
      rcases each "frob" List.mem_cons_self (by decide) (by decide) with
        ⟨first, last, foundFirst, foundLast, ownFiles, accepts, optional⟩
      rcases ownFiles "a" rfl with ⟨inFirst, inLast⟩
      exact ⟨database, first, last, compiled, foundFirst, foundLast, inFirst, inLast,
        accepts, optional⟩

end Configuration

end CommandReference
