namespace CommandReference

/-! Paths as written and paths as meant. A written path is its text cut at every
slash; it keeps redundant parts, because diagnostics show it as it was built.
Two coarser readings forget spelling: `components` drops repeated slashes and
interior dots, and `location` also resolves `..` without asking any directory. -/

/-- The segments of a written path: the text before the first slash, and the
texts after each slash. -/
structure Path where
  first : String
  rest : List String
  deriving DecidableEq, Repr, Inhabited

/-- A path in normal form: its names from the outermost in. A leading empty
name stands for the root directory, so absolute locations come first in order. -/
abbrev Location := List String

namespace Path

/-- Cut characters at every slash; `current` is the segment read so far,
reversed. -/
def cutSegments (current : List Char) : List Char → String × List String
  | [] => (String.ofList current.reverse, [])
  | character :: rest =>
      if character = '/' then
        let (first, others) := cutSegments [] rest
        (String.ofList current.reverse, first :: others)
      else cutSegments (character :: current) rest

def ofText (text : String) : Path :=
  let (first, rest) := cutSegments [] text.toList
  ⟨first, rest⟩

def text (path : Path) : String :=
  "/".intercalate (path.first :: path.rest)

def empty : Path := ⟨"", []⟩

def isAbsolute (path : Path) : Bool :=
  path.first = "" && !path.rest.isEmpty

/-- A segment after the first one that does not change what a path means. -/
def isRedundant (segment : String) : Bool :=
  segment = "" || segment = "."

/-- The segments that matter. A leading empty one is the root directory and a
leading dot stays. -/
def components (path : Path) : List String :=
  (if path.first = "" && path.rest.isEmpty then [] else [path.first]) ++
    path.rest.filter (!isRedundant ·)

/-- What two paths have in common when they are the same up to repeated slashes,
interior dots and a trailing slash. Long paths often begin alike, and their numbers
of components tell most of them apart at once. -/
structure Identity where
  count : Nat
  components : List String
  deriving DecidableEq, Repr

def identity (path : Path) : Identity := ⟨path.components.length, path.components⟩

/-- `path` seen from the directory `directory`: an absolute path stays as it is. -/
def join (directory path : Path) : Path :=
  if path.isAbsolute || directory = empty then path
  else
    match directory.rest.reverse with
    | [] => ⟨directory.first, path.first :: path.rest⟩
    | last :: others =>
        if last = "" then ⟨directory.first, others.reverse ++ path.first :: path.rest⟩
        else ⟨directory.first, directory.rest ++ path.first :: path.rest⟩

def joinText (directory : Path) (text : String) : Path :=
  directory.join (ofText text)

def parent? (path : Path) : Option Path :=
  match path.rest.reverse.dropWhile isRedundant with
  | [] => if path.first = "" then none else some empty
  | _ :: outer =>
      match outer.dropWhile isRedundant with
      | [] => some ⟨path.first, if path.first = "" then [""] else []⟩
      | kept => some ⟨path.first, kept.reverse⟩

def fileName? (path : Path) : Option String :=
  match path.rest.reverse.dropWhile isRedundant with
  | [] => if isRedundant path.first || path.first = ".." then none else some path.first
  | last :: _ => if last = ".." then none else some last

def displayName (path : Path) : String :=
  path.fileName?.getD ""

/-- The part of a file name after its last dot. A name that only begins with a
dot has none. -/
def extension? (path : Path) : Option String :=
  path.fileName?.bind fun name =>
    let (ending, stem) := name.toList.reverse.span (· != '.')
    match stem with
    | [] | [_] => none
    | _ => some (String.ofList ending.reverse)

/-- One component applied to a location written innermost name first. A parent
step removes whatever was last, the root directory included. -/
def enter (reversed : List String) (component : String) : List String :=
  if component = "." then reversed
  else if component = ".." then reversed.tail
  else component :: reversed

def location (path : Path) : Location :=
  (path.components.foldl enter []).reverse

def ofLocation : Location → Path
  | [] => empty
  | [""] => ⟨"", [""]⟩
  | first :: rest => ⟨first, rest⟩

example : (ofText "/c//m/./a.xml/").components = ["", "c", "m", "a.xml"] := by decide

example : (ofText "/c/../../rel/x.xml").location = ["rel", "x.xml"] := by decide

example : ((ofText "/c/sub/..").joinText "x").text = "/c/sub/../x" := by decide

example : ((ofText "c/").joinText "").text = "c/" := by decide

example : ((ofText "//a").parent?.map text) = some "/" := by decide

example : (ofText "/c/.xml").extension? = none := by decide

end Path

def Location.parent? (location : Location) : Option Location :=
  match location with
  | [] | [""] => none
  | _ => some location.dropLast

end CommandReference
