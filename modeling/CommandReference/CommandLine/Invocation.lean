import CommandReference.Path

namespace CommandReference.CommandLine

/-! What a command line asks for. Options of the program may stand before or after
the name of a subcommand, the options of a subcommand only after it, and two
dashes end all options. -/

inductive OutputFormat where
  | text
  | json
  deriving DecidableEq, Repr

structure CorpusOptions where
  root : Path
  strict : Bool
  modules : Bool
  keepAll : Bool
  deriving DecidableEq, Repr

inductive Subcommand where
  | compile (out : Path) (shardSize? : Option Nat)
  | lookup (name : String)
  | index
  deriving DecidableEq, Repr

structure Invocation where
  format : OutputFormat
  quiet : Bool
  config? : Option Path
  corpus : CorpusOptions
  command : Subcommand
  deriving DecidableEq, Repr

inductive Halt where
  | usage
  | version
  | help
  deriving DecidableEq, Repr

/-! ## Options -/

inductive ValueKind where
  | none
  | format
  | text
  | path
  | size
  deriving DecidableEq, Repr

/-- A decimal number that fits 64 bits; a plus sign may stand before it. -/
def size? (text : String) : Option Nat :=
  let digits :=
    match text.toList with
    | '+' :: digits => digits
    | digits => digits
  if digits.isEmpty || !digits.all Char.isDigit then none
  else
    let value := digits.foldl (fun value digit => value * 10 + (digit.toNat - 0x30)) 0
    if value < 0x10000000000000000 then some value else none

def ValueKind.accepts (kind : ValueKind) (value : String) : Bool :=
  match kind with
  | .none => false
  | .format => value = "text" || value = "json"
  | .text => true
  | .path => value != ""
  | .size => (size? value).isSome

structure OptionRule where
  name : String
  kind : ValueKind

/-- What may be given at one level of a command line: the program itself, or one
of its subcommands. -/
structure Level where
  options : List OptionRule
  /-- The values that are not options. -/
  operands : List ValueKind
  isProgram : Bool

def programOptions : List OptionRule :=
  [⟨"output", .format⟩, ⟨"quiet", .none⟩, ⟨"log-level", .text⟩, ⟨"config", .path⟩]

def corpusOptions : List OptionRule :=
  [⟨"strict", .none⟩, ⟨"modules", .none⟩, ⟨"no-simplify", .none⟩]

def Level.program : Level := ⟨programOptions, [], true⟩

def Level.ofName? (name : String) : Option Level :=
  let options := programOptions ++ corpusOptions
  if name = "compile" then
    some ⟨options ++ [⟨"out", .path⟩, ⟨"shard-size", .size⟩], [.path], false⟩
  else if name = "lookup" then some ⟨options, [.path, .text], false⟩
  else if name = "index" then some ⟨options, [.path], false⟩
  else none

structure Given where
  options : List (String × String)
  operands : List String

namespace Given

def empty : Given := ⟨[], []⟩

def value? (given : Given) (name : String) : Option String :=
  given.options.lookup name

def has (given : Given) (name : String) : Bool := (given.value? name).isSome

def addOption (given : Given) (name value : String) : Except Halt Given :=
  if given.has name then .error .usage
  else .ok { given with options := (name, value) :: given.options }

def addOperand (level : Level) (given : Given) (value : String) : Except Halt Given :=
  match level.operands[given.operands.length]? with
  | none => .error .usage
  | some kind =>
      if kind.accepts value then .ok { given with operands := given.operands ++ [value] }
      else .error .usage

end Given

inductive Word where
  | endOfOptions
  | long (name : String) (value? : Option String)
  | short (letters : List Char)
  | operand (text : String)

def Word.ofText (text : String) : Word :=
  match text.toList with
  | ['-', '-'] => .endOfOptions
  | '-' :: '-' :: rest =>
      match rest.span (· != '=') with
      | (name, []) => .long (String.ofList name) none
      | (name, _ :: value) => .long (String.ofList name) (some (String.ofList value))
  | '-' :: letter :: letters => .short (letter :: letters)
  | _ => .operand text

def isOptionValue (text : String) : Bool :=
  match Word.ofText text with
  | .operand _ => true
  | _ => false

/-- What is read at a level: what has been given and, for the program itself, the
words from the name of a subcommand on. -/
abbrev LevelResult := Except Halt (Given × List String)

def unknownOption (level : Level) (name : String) (value? : Option String) : Halt :=
  if value?.isSome then .usage
  else if name = "help" then .help
  else if name = "version" && level.isProgram then .version
  else .usage

def shortOption (level : Level) : List Char → Halt
  | 'h' :: _ => .help
  | 'V' :: _ => if level.isProgram then .version else .usage
  | _ => .usage

def readLevel (level : Level) (given : Given) : List String → LevelResult
  | [] => .ok (given, [])
  | text :: rest =>
      match Word.ofText text with
      | .endOfOptions => do
          let given ← rest.foldlM (Given.addOperand level) given
          return (given, [])
      | .short letters => .error (shortOption level letters)
      | .operand operand =>
          if level.isProgram then .ok (given, operand :: rest)
          else (given.addOperand level operand).bind fun given => readLevel level given rest
      | .long name value? =>
          match level.options.find? (·.name = name), value?, rest with
          | none, _, _ => .error (unknownOption level name value?)
          | some ⟨_, .none⟩, none, rest =>
              (given.addOption name "").bind fun given => readLevel level given rest
          | some ⟨_, .none⟩, some _, _ => .error .usage
          | some ⟨_, kind⟩, some value, rest =>
              if kind.accepts value then
                (given.addOption name value).bind fun given => readLevel level given rest
              else .error .usage
          | some _, none, [] => .error .usage
          | some ⟨_, kind⟩, none, value :: rest =>
              if isOptionValue value && kind.accepts value then
                (given.addOption name value).bind fun given => readLevel level given rest
              else .error .usage

/-! ## Invocations -/

def subcommand? (name : String) (given : Given) : Option Subcommand :=
  match name, given.operands with
  | "compile", [_] =>
      (given.value? "out").map fun out =>
        .compile (.ofText out) ((given.value? "shard-size").bind size?)
  | "lookup", [_, name] => some (.lookup name)
  | "index", [_] => some .index
  | _, _ => none

/-- What the words of a command line ask for. Of a program option given before and
after the name of the subcommand, the latter counts. -/
def Invocation.ofWords (words : List String) : Except Halt Invocation := do
  let (given, rest) ← readLevel .program .empty words
  match rest with
  | [] => .error .usage
  | name :: rest =>
      match Level.ofName? name with
      | none => .error (if name = "help" then .help else .usage)
      | some level => do
          let (own, _) ← readLevel level .empty rest
          let value? (key : String) := (own.value? key).or (given.value? key)
          match subcommand? name own, own.operands.head? with
          | some command, some root =>
              return {
                format := if value? "output" = some "json" then .json else .text
                quiet := (value? "quiet").isSome
                config? := (value? "config").map .ofText
                corpus :=
                  { root := .ofText root
                    strict := own.has "strict"
                    modules := own.has "modules"
                    keepAll := own.has "no-simplify" }
                command }
          | _, _ => .error .usage

private def formatOf (words : List String) : Option OutputFormat :=
  match Invocation.ofWords words with
  | .ok invocation => some invocation.format
  | .error _ => none

example : formatOf ["--output", "text", "index", "corpus", "--output=json"] =
    some .json := by decide +kernel

example : formatOf ["index", "corpus", "extra"] = none := by decide +kernel

end CommandReference.CommandLine
