import CommandReference.CommandLine.Report
import CommandReference.Proofs.CommandLine.Options
import CommandReference.Proofs.Database.Index
import CommandReference.Proofs.FileTree.Loading
import CommandReference.Proofs.Shard.NewDirectory

namespace CommandReference.CommandLine

/-! The subcommands agree. All of them compile the corpus first, in the same way, so that
they log the same warnings and fail alike; and where they do not fail, what is printed is
what has been written. -/

open Json (Value)

variable {tree later : FileTree} {invocation other : Invocation} {name : String}

/-! ## Problems -/

def Problem.isOfCorpus : Problem → Bool
  | .unreadableConfiguration .. | .unparsableConfiguration _ | .failure _ => true
  | .compiling .. | .writing .. | .unknownCommand _ => false

/-- A failure is told with the corpus by the subcommand that writes the reference. -/
def Problem.toldBy (problem : Problem) (root : Path) (command : Subcommand) : Problem :=
  match problem, command with
  | .failure cause, .compile .. => .compiling root cause
  | problem, _ => problem

theorem configuration_congr (sameCorpus : invocation.corpus = other.corpus)
    (sameConfig : invocation.config? = other.config?) (tree : FileTree) :
    configuration tree invocation = configuration tree other := by
  rw [configuration, configuration, sameCorpus, sameConfig]

theorem configuration_error {problem : Problem}
    (failed : configuration tree invocation = .error problem) :
    problem.isOfCorpus = true ∧ ∀ root command, problem.toldBy root command = problem := by
  unfold configuration at failed
  cases given : invocation.config? with
  | none =>
      simp only [given] at failed
      cases failed
  | some path =>
      simp only [given] at failed
      cases readable : tree.readText path with
      | error reason =>
          simp only [readable] at failed
          cases failed
          exact ⟨rfl, fun _ _ => rfl⟩
      | ok text =>
          cases parsed : Configuration.ofText text with
          | none =>
              simp only [readable, parsed] at failed
              cases failed
              exact ⟨rfl, fun _ _ => rfl⟩
          | some settings =>
              simp only [readable, parsed] at failed
              cases failed

/-! ## What is printed -/

theorem lines_singleton (text : String) : lines [text] = text ++ "\n" := by
  simp [lines, String.join]

theorem read_lines_index (database : Database) :
    Json.read (lines [(Value.ofTexts database.index).indented]) =
      .ok (.ofTexts database.index) := by
  rw [lines_singleton]
  exact Json.read_indented (Json.readable_ofTexts 126 database.index)

theorem read_lines_entry (entry : Entry) :
    Json.read (lines [entry.toJson.indented]) = .ok entry.toJson := by
  rw [lines_singleton]
  exact Json.read_indented (entry.toJson_readable.mono (by decide))

/-! ## Three subcommands on one corpus -/

structure Asks (words : List String) (corpus : CorpusOptions) (config? : Option Path)
    (command : Subcommand) (invocation : Invocation) : Prop where
  read : Invocation.ofWords words = .ok invocation
  corpus : invocation.corpus = corpus
  config? : invocation.config? = config?
  command : invocation.command = command

section
variable {corpus : CorpusOptions} {config? : Option Path} {command otherCommand : Subcommand}
  {words otherWords : List String} {problem : Problem} {settings : Configuration}
  {steps : Nat}

theorem Asks.configuration_eq (asks : Asks words corpus config? command invocation)
    (asksOther : Asks otherWords corpus config? otherCommand other) (tree : FileTree) :
    configuration tree invocation = configuration tree other :=
  configuration_congr (asks.corpus.trans asksOther.corpus.symm)
    (asks.config?.trans asksOther.config?.symm) tree

theorem Asks.run_eq (asks : Asks words corpus config? command invocation) (tree : FileTree)
    (steps : Nat) :
    run tree words steps = (perform tree invocation steps).map fun performance =>
      (performance.report invocation, performance.tree) := by
  simp only [run, asks.read]

theorem Asks.run_misconfigured (asks : Asks words corpus config? command invocation)
    (failed : configuration tree invocation = .error problem) (steps : Nat) :
    run tree words steps = some (.ofProblem invocation [] problem, tree) := by
  rw [asks.run_eq, perform, failed]
  rfl

theorem Asks.perform_compiled (asks : Asks words corpus config? command invocation)
    (configured : configuration tree invocation = .ok settings) {outcome : Outcome Database}
    (compiled : settings.compile tree.toSource corpus.root steps = some outcome) :
    perform tree invocation steps =
      some ⟨outcome.warnings, (answer tree invocation settings outcome.result).1,
        (answer tree invocation settings outcome.result).2⟩ := by
  simp only [perform, configured, asks.corpus, compiled]
  rfl

theorem perform_unique {more : Nat} {first second : Performance}
    (performed : perform tree invocation steps = some first)
    (performedAgain : perform tree invocation more = some second) : first = second := by
  rw [perform] at performed performedAgain
  cases configured : configuration tree invocation with
  | error problem =>
      rw [configured] at performed performedAgain
      exact Option.some.inj (performed.symm.trans performedAgain)
  | ok settings =>
      rw [configured] at performed performedAgain
      rcases Option.map_eq_some_iff.mp performed with ⟨outcome, compiled, rfl⟩
      rcases Option.map_eq_some_iff.mp performedAgain with ⟨again, compiledAgain, rfl⟩
      rw [Configuration.CompilesTo.unique ⟨steps, compiled⟩ ⟨more, compiledAgain⟩]

theorem Asks.run_unique (asks : Asks words corpus config? command invocation) {more : Nat}
    {first second : Report × FileTree} (ran : run tree words steps = some first)
    (ranAgain : run tree words more = some second) : first = second := by
  rw [asks.run_eq] at ran ranAgain
  rcases Option.map_eq_some_iff.mp ran with ⟨performance, performed, rfl⟩
  rcases Option.map_eq_some_iff.mp ranAgain with ⟨again, performedAgain, rfl⟩
  rw [perform_unique performed performedAgain]

/-! ### Failing -/

theorem answer_error (tree : FileTree) (invocation : Invocation) (settings : Configuration)
    (failure : Failure) :
    answer tree invocation settings (.error failure) =
      (.error ((Problem.failure failure).toldBy invocation.corpus.root invocation.command),
        tree) := by
  rw [answer]
  cases invocation.command <;> rfl

theorem Asks.run_failing (asks : Asks words corpus config? command invocation)
    (configured : configuration tree invocation = .ok settings) {log : List Warning}
    {failure : Failure}
    (compiled : settings.compile tree.toSource corpus.root steps =
      some ⟨log, .error failure⟩) :
    run tree words steps =
      some (.ofProblem invocation log ((Problem.failure failure).toldBy corpus.root command),
        tree) := by
  rw [asks.run_eq, asks.perform_compiled configured compiled, answer_error, asks.command,
    asks.corpus]
  rfl

/-! ### Succeeding -/

variable {log : List Warning} {database : Database}

theorem Asks.run_compile {out : Path} {shardSize? : Option Nat}
    (asks : Asks words corpus config? (.compile out shardSize?) invocation)
    (configured : configuration tree invocation = .ok settings)
    (compiled : settings.compile tree.toSource corpus.root steps = some ⟨log, .ok database⟩)
    (written : ∀ performance, perform tree invocation steps = some performance →
      ∀ reason, performance.result ≠ .error (.writing out reason)) :
    ∃ threshold message later, (database.write out threshold).run tree = (.ok (), later) ∧
      run tree words steps = some (⟨0, message, log, ""⟩, later) := by
  have performed := asks.perform_compiled configured compiled
  have written := written _ performed
  rw [asks.run_eq, performed]
  simp only [answer, asks.command, writeReference] at written ⊢
  cases wrote : (database.write out (shardSize?.getD settings.shardThreshold)).run tree with
  | mk result later =>
      rw [wrote] at written
      cases result with
      | error reason => exact absurd rfl (written reason)
      | ok => exact ⟨_, _, later, wrote, rfl⟩

theorem Asks.run_index (asks : Asks words corpus config? .index invocation)
    (configured : configuration tree invocation = .ok settings)
    (compiled : settings.compile tree.toSource corpus.root steps = some ⟨log, .ok database⟩) :
    ∃ output, run tree words steps = some (⟨0, output, log, ""⟩, tree) ∧
      match invocation.format with
      | .text => output = lines database.index
      | .json => Json.read output = .ok (.ofTexts database.index) := by
  rw [asks.run_eq, asks.perform_compiled configured compiled]
  simp only [answer, asks.command, listIndex]
  cases invocation.format with
  | text => exact ⟨_, rfl, rfl⟩
  | json => exact ⟨_, rfl, read_lines_index database⟩

theorem Asks.run_lookup (asks : Asks words corpus config? (.lookup name) invocation)
    (configured : configuration tree invocation = .ok settings)
    (compiled : settings.compile tree.toSource corpus.root steps = some ⟨log, .ok database⟩) :
    match database.get? name with
    | none =>
        run tree words steps = some (.ofProblem invocation log (.unknownCommand name), tree)
    | some entry => ∃ output, run tree words steps = some (⟨0, output, log, ""⟩, tree) ∧
        (invocation.format = .json → Json.read output = .ok entry.toJson) := by
  rw [asks.run_eq, asks.perform_compiled configured compiled]
  simp only [answer, asks.command, lookUp]
  cases found : database.get? name with
  | none => simp [found, Except.mapError, bind, Except.bind, Performance.report]
  | some entry =>
      simp only [found, Except.mapError, bind, Except.bind]
      cases invocation.format with
      | text =>
          refine ⟨_, rfl, fun isJson => ?_⟩
          cases isJson
      | json => exact ⟨_, rfl, fun _ => read_lines_entry entry⟩

end

/-! ## Agreement -/

/-- What the subcommands make of a corpus when one of them writes it into a directory and
the others run without it, in a number of steps. -/
inductive Agreement (tree : FileTree) (corpus : CorpusOptions) (config? : Option Path)
    (out : Path) (words : List String) (steps : Nat) : Prop where
  /-- All of them fail for the same reason and change nothing. -/
  | failing (log : List Warning) (problem : Problem) (isOfCorpus : problem.isOfCorpus = true)
      (ran : ∀ command words invocation, Asks words corpus config? command invocation →
        run tree words steps =
          some (.ofProblem invocation log (problem.toldBy corpus.root command), tree))
  /-- The index that is printed has been written, and names are answered as by a reader of
  the directory. -/
  | succeeding (log : List Warning) (message stored : String) (later : FileTree)
      (texts : List String) (reader : ShardReader)
      (compile : run tree words steps = some (⟨0, message, log, ""⟩, later))
      (isStored : later.readText (out.joinText Shard.indexFile) = .ok stored)
      (isIndex : Json.read stored = .ok (.ofTexts texts))
      (index : ∀ words invocation, Asks words corpus config? .index invocation →
        ∃ output, run tree words steps = some (⟨0, output, log, ""⟩, tree) ∧
          match invocation.format with
          | .text => output = lines texts
          | .json => Json.read output = .ok (.ofTexts texts))
      (opened : ShardReader.ofDirectory later out = .ok reader)
      (lookup : ∀ name, ∃ record?, reader.lookup later name = .ok record? ∧
        (record? = none ↔ ¬ ∃ count, Database.indexLine name count ∈ texts) ∧
        ∀ words invocation, Asks words corpus config? (.lookup name) invocation →
          match record? with
          | none => run tree words steps =
              some (.ofProblem invocation log (.unknownCommand name), tree)
          | some record => ∃ output, run tree words steps =
              some (⟨0, output, log, ""⟩, tree) ∧
                (invocation.format = .json → Json.read output = .ok record))

section
variable {corpus : CorpusOptions} {config? : Option Path} {out : Path}
  {shardSize? : Option Nat} {words : List String} {settings : Configuration} {steps : Nat}
  {log : List Warning}

theorem Asks.agreement_of_misconfigured {command : Subcommand} {problem : Problem}
    (asks : Asks words corpus config? command invocation)
    (failed : configuration tree invocation = .error problem) (out : Path) (steps : Nat) :
    Agreement tree corpus config? out words steps := by
  have told := configuration_error failed
  apply Agreement.failing [] problem told.1
  intro command otherWords other asksOther
  rw [told.2]
  exact asksOther.run_misconfigured
    ((asksOther.configuration_eq asks tree).trans failed) steps

theorem Asks.agreement_of_failure {command : Subcommand} {failure : Failure}
    (asks : Asks words corpus config? command invocation)
    (configured : configuration tree invocation = .ok settings)
    (compiled : settings.compile tree.toSource corpus.root steps =
      some ⟨log, .error failure⟩) (out : Path) :
    Agreement tree corpus config? out words steps := by
  apply Agreement.failing log (.failure failure) rfl
  intro command otherWords other asksOther
  exact asksOther.run_failing
    ((asksOther.configuration_eq asks tree).trans configured) compiled

theorem Asks.agreement_of_database {database : Database}
    (asks : Asks words corpus config? (.compile out shardSize?) invocation)
    (configured : configuration tree invocation = .ok settings)
    (compiled : settings.compile tree.toSource corpus.root steps = some ⟨log, .ok database⟩)
    (grounded : tree.IsGrounded) (missing : tree.IsMissing out)
    (written : ∀ performance, perform tree invocation steps = some performance →
      ∀ reason, performance.result ≠ .error (.writing out reason)) :
    Agreement tree corpus config? out words steps := by
  rcases asks.run_compile configured compiled written with
    ⟨threshold, message, later, wrote, ran⟩
  have named := Invocation.out_ne_empty asks.read asks.command
  rcases Database.write_new grounded missing named wrote with
    ⟨isStored, reader, opened, answers⟩
  have isIndex := Json.read_ascii (Json.readable_ofTexts 126 database.index)
  apply Agreement.succeeding log message _ later database.index reader ran isStored isIndex
  case index =>
    intro indexWords indexing indexes
    exact indexes.run_index ((indexes.configuration_eq asks tree).trans configured) compiled
  case opened => exact opened
  case lookup =>
    intro name
    refine ⟨_, answers name, ?_, ?_⟩
    · rcases settings.exists_describes_of_compile compiled rfl with ⟨entries, describes⟩
      rw [describes.exists_mem_index_iff]
      simp
    · intro lookupWords looking looksUp
      have ran := looksUp.run_lookup
        ((looksUp.configuration_eq asks tree).trans configured) compiled
      cases found : database.get? name with
      | none =>
          rw [found] at ran
          exact ran
      | some entry =>
          rw [found] at ran
          exact ran

/-- From some number of steps on, the subcommands agree on every corpus, if all that is to
be written into a new directory can be. -/
theorem run_agrees (asks : Asks words corpus config? (.compile out shardSize?) invocation)
    (grounded : tree.IsGrounded) (missing : tree.IsMissing out)
    (written : ∀ steps performance, perform tree invocation steps = some performance →
      ∀ reason, performance.result ≠ .error (.writing out reason)) :
    ∃ enough, ∀ steps, enough ≤ steps →
      Agreement tree corpus config? out words steps := by
  cases configured : configuration tree invocation with
  | error problem =>
      exact ⟨0, fun steps _ => asks.agreement_of_misconfigured configured out steps⟩
  | ok settings =>
      rcases settings.compile_ends_on_tree tree corpus.root with ⟨enough, outcome, compiles⟩
      refine ⟨enough, fun steps more => ?_⟩
      have compiled := compiles steps more
      rcases outcome with ⟨log, failure | database⟩
      · exact asks.agreement_of_failure configured compiled out
      · exact asks.agreement_of_database configured compiled grounded missing (written steps)

end

/-! ## A corpus of one command -/

private def oneCommand : FileTree :=
  (FileTree.atPlace ["home"]).after do
    FileAction.makeDirectories (.ofText "corpus")
    FileAction.writeText (.ofText "corpus/i-common-definitions.xml") "<i/>"
    FileAction.writeText (.ofText "corpus/i-context.xml") "<i><command name='a'/></i>"

private def oneCorpus : CorpusOptions := ⟨.ofText "corpus", false, false, false⟩

private def writing (out : String) : Invocation :=
  ⟨.text, false, none, oneCorpus, .compile (.ofText out) none⟩

theorem run_agrees_one_command :
    (run oneCommand ["compile", "corpus", "--out", "new"] 10).map Prod.fst =
        some ⟨0, "1 commands written to new\n", [], ""⟩ ∧
      ∃ enough, ∀ steps, enough ≤ steps →
        Agreement oneCommand oneCorpus none (.ofText "new")
          ["compile", "corpus", "--out", "new"] steps := by
  have asks : Asks ["compile", "corpus", "--out", "new"] oneCorpus none
      (.compile (.ofText "new") none) (writing "new") :=
    ⟨by decide +kernel, rfl, rfl, rfl⟩
  have grounded : oneCommand.IsGrounded :=
    FileTree.isGrounded_of_keys (by decide +kernel)
  have missing : oneCommand.IsMissing (.ofText "new") :=
    .of_names (by decide +kernel) (by decide +kernel)
  have outcome : (perform oneCommand (writing "new") 10).map
      (fun performance => (performance.log, performance.result)) =
        some ([], .ok "1 commands written to new\n") := by
    decide +kernel
  rcases Option.map_eq_some_iff.mp outcome with ⟨first, performed, parts⟩
  rcases Prod.mk.inj parts with ⟨log, result⟩
  constructor
  · rw [asks.run_eq, performed, Option.map_some, Option.map_some, Performance.report, result,
      log]
  · apply run_agrees asks grounded missing
    intro steps performance otherPerformed reason failed
    rw [perform_unique otherPerformed performed, result] at failed
    cases failed

/-! ## A directory among the shards -/

private def strayWords : List String :=
  ["compile", "corpus", "--out", "x/shards/y.json/../.."]

private def strayOut : Path := .ofText "x/shards/y.json/../.."

private def strayTree : FileTree where
  nodes := .ofList
    [(["home"], .directory),
      (["home", "corpus"], .directory),
      (["home", "corpus", "i-common-definitions.xml"], .file (Utf8.encode "<i/>")),
      (["home", "corpus", "i-context.xml"], .file (Utf8.encode "<i><command name='a'/></i>")),
      (["home", "x"], .directory),
      (["home", "x", "index.json"], .file (Utf8.encode "[\"0:a\"]")),
      (["home", "x", "shards"], .directory),
      (["home", "x", "shards", "a.json"],
        .file (Utf8.encode "\x7b\"a\":\x7b\"files\":[],\"syntax_variants\":[[]]\x7d\x7d")),
      (["home", "x", "shards", "y.json"], .directory)]
  current := ["home"]

private def strayReader : ShardReader :=
  ⟨.ofText "x/shards/y.json/../../shards", ["a", "y"]⟩

private theorem run_strayWords :
    run oneCommand strayWords 10 =
      some (⟨0, "1 commands written to x/shards/y.json/../..\n", [], ""⟩, strayTree) := by
  decide +kernel

private theorem ofDirectory_strayTree :
    ShardReader.ofDirectory strayTree strayOut = .ok strayReader := by
  have listed : strayTree.list (strayOut.joinText Shard.directoryName) =
      .ok ["a.json", "y.json"] := by
    decide +kernel
  have keys : ["a.json", "y.json"].filterMap Shard.keyOfFileName? = ["a", "y"] := by
    decide +kernel
  rw [ShardReader.ofDirectory, listed, Except.map, keys,
    List.mergeSort_of_pairwise (by decide)]
  rfl

private theorem lookup_strayReader :
    strayReader.lookup strayTree "b" = .error (.file .isADirectory) := by
  have located : Shard.locate? ["a", "y"] "b" = some "y" := by decide
  have unreadable : strayTree.readText
      (strayReader.directory.joinText (Shard.fileName "y")) = .error .isADirectory := by
    decide +kernel
  rw [ShardReader.lookup, strayReader, located, ← strayReader]
  simp only [unreadable]
  rfl

/-- The directory `x` does not exist. On the way to it, the directory `x/shards/y.json` is
made, and the reader takes it for a shard. -/
theorem run_disagrees :
    oneCommand.isDirectory strayOut = false ∧
      oneCommand.node? (oneCommand.destination strayOut) = none ∧
      run oneCommand strayWords 10 =
        some (⟨0, "1 commands written to x/shards/y.json/../..\n", [], ""⟩, strayTree) ∧
      ShardReader.ofDirectory strayTree strayOut = .ok strayReader ∧
      strayReader.lookup strayTree "b" = .error (.file .isADirectory) ∧
      run oneCommand ["lookup", "corpus", "b"] 10 =
        some (⟨1, "", [], "error: command not found: b\n"⟩, oneCommand) ∧
      ∀ steps, ¬ Agreement oneCommand oneCorpus none strayOut strayWords steps := by
  have asks : Asks strayWords oneCorpus none (.compile strayOut none)
      (writing "x/shards/y.json/../..") :=
    ⟨by decide +kernel, rfl, rfl, rfl⟩
  refine ⟨by decide +kernel, by decide +kernel, run_strayWords, ofDirectory_strayTree,
    lookup_strayReader, by decide +kernel, fun steps agreement => ?_⟩
  cases agreement with
  | failing log problem isOfCorpus ran =>
      have same := asks.run_unique run_strayWords (ran _ _ _ asks)
      cases congrArg (Report.status ∘ Prod.fst) same
  | succeeding log message stored later texts reader compile _ _ _ opened answers =>
      rcases Prod.mk.inj (asks.run_unique run_strayWords compile) with ⟨_, rfl⟩
      cases ofDirectory_strayTree.symm.trans opened
      rcases answers "b" with ⟨record?, answered, _⟩
      cases lookup_strayReader.symm.trans answered

end CommandReference.CommandLine
