import CommandReference.Configuration
import CommandReference.Corpus
import CommandReference.Markup.Document
import CommandReference.Source

namespace CommandReference

/-! Loading a corpus: the common file first, then the manifest and what files
include, file by file in the order in which they are asked for. Whether a file
has been visited is decided by its path up to redundant parts. Inclusions that
keep spelling new paths to one file never run out, so loading is given a number
of steps, and a result says whether they were enough. -/

namespace InterfaceFile

def read (source : Source) (path : Path) : Except Failure InterfaceFile :=
  let name := path.displayName
  match source.read? path with
  | none => .error (.notFound name)
  | some contents =>
      match Utf8.decode contents with
      | .error malformation =>
          .error (.malformed name ("not valid UTF-8: " ++ malformation.message))
      | .ok text =>
          match Markup.parse text with
          | .error reason => .error (.malformed name reason.message)
          | .ok root => .ok ⟨name, root⟩

end InterfaceFile

/-- The first file of this name in the search directories, or else next to the
file that refers to it. -/
def locate (source : Source) (search : List Path) (referrer? : Option Path)
    (name : String) : Except Failure Path :=
  let candidates := (search ++ referrer?.toList).map (·.joinText name)
  match candidates.find? source.isFile with
  | some path => .ok path
  | none => .error (.notFound name)

inductive Request where
  | named (name : String) (referrer? : Option Path)
  | listed (path : Path)
  deriving DecidableEq, Repr

structure LoaderSettings where
  source : Source
  search : List Path
  policy : Policy

structure Loader where
  queue : List Request
  visited : List Path.Identity
  files : List InterfaceFile
  deriving DecidableEq, Repr

namespace Loader

def inclusion (path : Path) (element : Markup.Element) : Outcome (List Request) :=
  let name := element.attributeOrEmpty "filename"
  if name = "" then do
    Outcome.warn (.unnamedInclusion path.text)
    return []
  else pure [.named name path.parent?]

def accept (loader : Loader) (path : Path) (file : InterfaceFile) : Outcome Loader := do
  let requests ← (file.root.named "interfacefile").mapM (inclusion path)
  return { loader with
    queue := loader.queue ++ requests.flatten
    files := loader.files ++ [file] }

def visit (settings : LoaderSettings) (loader : Loader) (path : Path) : Outcome Loader :=
  let identity := path.identity
  if loader.visited.contains identity then pure loader
  else
    let loader := { loader with visited := identity :: loader.visited }
    match InterfaceFile.read settings.source path with
    | .ok file => loader.accept path file
    | .error failure => do
        settings.policy.handle failure
        return loader

def step (settings : LoaderSettings) (loader : Loader) : Request → Outcome Loader
  | .listed path => loader.visit settings path
  | .named name referrer? =>
      match locate settings.source settings.search referrer? name with
      | .ok path => loader.visit settings path
      | .error failure => do
          settings.policy.handle failure
          return loader

/-- Deal with requests until there are none left; `noted` are the warnings so far.
With too few steps there is no outcome. -/
def run (settings : LoaderSettings) : (steps : Nat) → (noted : List Warning) → Loader →
    Option (Outcome (List InterfaceFile))
  | steps, noted, loader =>
      match loader.queue, steps with
      | [], _ => some ⟨noted, .ok loader.files⟩
      | _ :: _, 0 => none
      | request :: queue, steps + 1 =>
          let outcome := step settings { loader with queue } request
          let noted := noted ++ outcome.warnings
          match outcome.result with
          | .error failure => some ⟨noted, .error failure⟩
          | .ok next => run settings steps noted next

end Loader

namespace Configuration

def search (configuration : Configuration) (root : Path) : List Path :=
  root :: configuration.searchDirectories.map root.join

def moduleRequests (configuration : Configuration) (source : Source) (root : Path) :
    List Request :=
  if configuration.includeModules then
    ((source.list (root.join configuration.moduleDirectory)).filter
      fun path => path.extension? = some "xml").map .listed
  else []

/-- The state of loading once the common file has been read. That file must be
there, whatever the policy. -/
def firstLoader (configuration : Configuration) (source : Source) (root : Path) :
    Outcome Loader := do
  let path ← .ofExcept (locate source (configuration.search root) none
    configuration.commonFile)
  let file ← .ofExcept (InterfaceFile.read source path)
  let loader ← Loader.accept ⟨[], [path.identity], []⟩ path file
  return { loader with
    queue := loader.queue ++ .named configuration.manifestFile none ::
      configuration.moduleRequests source root }

/-- Load the corpus under a root directory, in at most the given number of
steps. -/
def load (configuration : Configuration) (source : Source) (root : Path) (steps : Nat) :
    Option (Outcome (List InterfaceFile)) :=
  let first := configuration.firstLoader source root
  match first.result with
  | .error failure => some ⟨first.warnings, .error failure⟩
  | .ok loader =>
      loader.run ⟨source, configuration.search root, configuration.policy⟩ steps
        first.warnings

end Configuration

end CommandReference
