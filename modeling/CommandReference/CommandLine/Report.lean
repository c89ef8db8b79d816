import CommandReference.CommandLine.Invocation
import CommandReference.Compilation
import CommandReference.Shard.Store

namespace CommandReference.CommandLine

/-! What the program does on a file tree, and what it says about it. -/

open Json (Value)

/-- What is seen of a run: the exit status, the text on the output channel, and on the
channel for errors the warnings that are logged and the text after them. A warning is shown
with a time and the fields of an event, or not at all if the log level says so; that, and
events below warnings, are left out. -/
structure Report where
  status : Nat
  output : String
  log : List Warning
  errors : String
  deriving DecidableEq, Repr

inductive Problem where
  | unreadableConfiguration (path : Path) (reason : FileError)
  | unparsableConfiguration (path : Path)
  | failure (failure : Failure)
  | compiling (root : Path) (failure : Failure)
  | writing (out : Path) (reason : FileError)
  | unknownCommand (name : String)
  deriving DecidableEq, Repr

namespace Problem

def message : Problem → String
  | unreadableConfiguration path reason => s!"cannot read {path.text}: " ++ reason.message
  | unparsableConfiguration path => s!"cannot parse {path.text}: not a valid configuration"
  | failure cause => cause.message
  | compiling root cause => s!"compiling {root.text}: " ++ cause.message
  | writing out reason => s!"writing database to {out.text}: " ++ reason.message
  | unknownCommand name => s!"command not found: {name}"

def failure? : Problem → Option Failure
  | failure cause | compiling _ cause => some cause
  | _ => none

end Problem

def failureFields (failure : Failure) : List (String × Value) :=
  [("file", .text failure.file), ("kind", .text failure.kind),
    ("message", .text failure.message)]

def Problem.toJson (problem : Problem) : Value :=
  .ofFields (((problem.failure?.map failureFields).getD []) ++
    [("error", .text problem.message)])

/-- A quiet program says nothing about a problem. -/
def Report.ofProblem (invocation : Invocation) (log : List Warning) (problem : Problem) :
    Report where
  status := 1
  output := ""
  log := log
  errors :=
    if invocation.quiet then ""
    else
      match invocation.format with
      | .text => "error: " ++ problem.message ++ "\n"
      | .json => problem.toJson.compact ++ "\n"

def lines (texts : List String) : String :=
  String.join (texts.map (· ++ "\n"))

/-! ## Subcommands -/

def configuration (tree : FileTree) (invocation : Invocation) :
    Except Problem Configuration := do
  let settings ←
    match invocation.config? with
    | none => pure Configuration.default
    | some path =>
        match tree.readText path with
        | .error reason => .error (.unreadableConfiguration path reason)
        | .ok text =>
            match Configuration.ofText text with
            | none => .error (.unparsableConfiguration path)
            | some settings => pure settings
  let corpus := invocation.corpus
  return { settings with
    policy := if corpus.strict then .strict else settings.policy
    includeModules := corpus.modules || settings.includeModules
    simplify := !corpus.keepAll && settings.simplify }

def entryLines (name : String) (entry : Entry) : List String :=
  (entry.signatures.map fun signature =>
    if signature.arguments.isEmpty then "\\" ++ name
    else "\\" ++ name ++ " " ++ signature.render) ++
  (if entry.files.isEmpty then []
    else ["files: " ++ ", ".intercalate entry.files.keys])

def writeReference (tree : FileTree) (invocation : Invocation) (out : Path) (threshold : Nat)
    (compiled : Except Failure Database) : Except Problem String × FileTree :=
  match compiled with
  | .error failure => (.error (.compiling invocation.corpus.root failure), tree)
  | .ok database =>
      match (database.write out threshold).run tree with
      | (.error reason, later) => (.error (.writing out reason), later)
      | (.ok (), later) =>
          let message := lines [s!"{database.size} commands written to {out.text}"]
          (.ok (if invocation.quiet then "" else message), later)

def lookUp (invocation : Invocation) (name : String) (compiled : Except Failure Database) :
    Except Problem String := do
  let database ← compiled.mapError .failure
  match database.get? name with
  | none => .error (.unknownCommand name)
  | some entry =>
      match invocation.format with
      | .text => return lines (entryLines name entry)
      | .json => return lines [entry.toJson.indented]

def listIndex (invocation : Invocation) (compiled : Except Failure Database) :
    Except Problem String := do
  let database ← compiled.mapError .failure
  match invocation.format with
  | .text => return lines database.index
  | .json => return lines [(Value.ofTexts database.index).indented]

def answer (tree : FileTree) (invocation : Invocation) (settings : Configuration)
    (compiled : Except Failure Database) : Except Problem String × FileTree :=
  match invocation.command with
  | .compile out shardSize? =>
      writeReference tree invocation out (shardSize?.getD settings.shardThreshold) compiled
  | .lookup name => (lookUp invocation name compiled, tree)
  | .index => (listIndex invocation compiled, tree)

/-- What an invocation comes to: the warnings on the way, the text to be printed or a
problem, and the tree afterwards. -/
structure Performance where
  log : List Warning
  result : Except Problem String
  tree : FileTree

/-- Carry out an invocation. There is no performance if loading needs more than the given
number of steps. -/
def perform (tree : FileTree) (invocation : Invocation) (steps : Nat) : Option Performance :=
  match configuration tree invocation with
  | .error problem => some ⟨[], .error problem, tree⟩
  | .ok settings =>
      (settings.compile tree.toSource invocation.corpus.root steps).map fun outcome =>
        let (result, later) := answer tree invocation settings outcome.result
        ⟨outcome.warnings, result, later⟩

def Performance.report (performance : Performance) (invocation : Invocation) : Report :=
  match performance.result with
  | .ok output => ⟨0, output, performance.log, ""⟩
  | .error problem => .ofProblem invocation performance.log problem

/-! ## The program -/

def versionLine : String := "ctxdoc 0.1.0"

def usageLines : List String :=
  ["Usage: ctxdoc [--output text|json] [--quiet] [--log-level LEVEL] [--config FILE] COMMAND",
    "",
    "Commands:",
    "  compile ROOT --out DIRECTORY [--shard-size BYTES]",
    "  lookup ROOT NAME",
    "  index ROOT",
    "",
    "Every command takes --strict, --modules and --no-simplify."]

/-- Carry out a command line on a file tree, if the steps are enough for loading. -/
def run (tree : FileTree) (words : List String) (steps : Nat) : Option (Report × FileTree) :=
  match Invocation.ofWords words with
  | .error .usage => some (⟨2, "", [], lines usageLines⟩, tree)
  | .error .version => some (⟨0, lines [versionLine], [], ""⟩, tree)
  | .error .help => some (⟨0, lines usageLines, [], ""⟩, tree)
  | .ok invocation =>
      (perform tree invocation steps).map fun performance =>
        (performance.report invocation, performance.tree)

end CommandReference.CommandLine
