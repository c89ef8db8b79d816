import CommandReference.Path
import CommandReference.SortedMap
import CommandReference.Text.Utf8

namespace CommandReference

/-! A tree of files and directories, as far as commands that run on it can tell.
Paths are followed one segment at a time, so a parent step leads out of the
directory that has really been entered. -/

/-- The names on the way from the outermost directory to a file or directory. -/
abbrev Place := List String

inductive Node where
  | file (contents : Bytes)
  | directory
  deriving DecidableEq, Repr

/-- The files and directories below the outermost directory, and the directory
that relative paths start from. -/
structure FileTree where
  nodes : SortedMap Place Node
  current : Place
  deriving DecidableEq, Repr

inductive FileError where
  | notFound
  | notADirectory
  | isADirectory
  | alreadyExists
  | nameTooLong
  | nulInName
  | notText
  deriving DecidableEq, Repr

def FileError.message : FileError → String
  | .notFound => "No such file or directory (os error 2)"
  | .notADirectory => "Not a directory (os error 20)"
  | .isADirectory => "Is a directory (os error 21)"
  | .alreadyExists => "File exists (os error 17)"
  | .nameTooLong => "File name too long (os error 36)"
  | .nulInName => "file name contained an unexpected NUL byte"
  | .notText => "stream did not contain valid UTF-8"

namespace FileTree

def atPlace (current : Place) : FileTree where
  nodes := (List.range current.length).foldl
    (fun nodes length => nodes.insert (current.take (length + 1)) .directory) .empty
  current := current

def node? (tree : FileTree) (place : Place) : Option Node :=
  if place.isEmpty then some .directory else tree.nodes.get? place

def nameLimit : Nat := 255

def pathLimit : Nat := 4095

/-! ## Following paths -/

/-- Where the segments of a path lead from a place. Each segment is looked up in a
directory, and a name must be found there. -/
def follow (tree : FileTree) (place : Place) : List String → Except FileError Place
  | [] => .ok place
  | segment :: rest =>
      if tree.node? place ≠ some .directory then .error .notADirectory
      else if Path.isRedundant segment then tree.follow place rest
      else if segment = ".." then tree.follow place.dropLast rest
      else if nameLimit < segment.utf8ByteSize then .error .nameTooLong
      else if (tree.node? (place ++ [segment])).isNone then .error .notFound
      else tree.follow (place ++ [segment]) rest

def start (tree : FileTree) (path : Path) : Except FileError (Place × List String) :=
  if path.text.toList.contains '\x00' then .error .nulInName
  else if path = Path.empty then .error .notFound
  else if pathLimit < path.text.utf8ByteSize then .error .nameTooLong
  else if path.isAbsolute then .ok ([], path.rest)
  else .ok (tree.current, path.first :: path.rest)

def resolve (tree : FileTree) (path : Path) : Except FileError Place :=
  (tree.start path).bind fun (place, segments) => tree.follow place segments

/-- The directory that a path's last segment is to be looked up in, and that
segment. Slashes at the end do not count. -/
def resolveParent (tree : FileTree) (path : Path) :
    Except FileError (Place × Option String) := do
  let (place, segments) ← tree.start path
  match segments.reverse.dropWhile (· = "") with
  | [] => return (place, none)
  | last :: outer =>
      let parent ← tree.follow place outer.reverse
      if tree.node? parent ≠ some .directory then .error .notADirectory
      else if last = "." || last = ".." then return (parent, none)
      else if nameLimit < last.utf8ByteSize then .error .nameTooLong
      else return (parent, some last)

/-! ## Looking -/

def isFile (tree : FileTree) (path : Path) : Bool :=
  match tree.resolve path with
  | .ok place => tree.node? place != some .directory
  | .error _ => false

def isDirectory (tree : FileTree) (path : Path) : Bool :=
  match tree.resolve path with
  | .ok place => tree.node? place = some .directory
  | .error _ => false

def read (tree : FileTree) (path : Path) : Except FileError Bytes :=
  (tree.resolve path).bind fun place =>
    match tree.node? place with
    | some (.file contents) => .ok contents
    | some .directory => .error .isADirectory
    | none => .error .notFound

def readText (tree : FileTree) (path : Path) : Except FileError String :=
  (tree.read path).bind fun contents =>
    match Utf8.decode contents with
    | .ok text => .ok text
    | .error _ => .error .notText

def list (tree : FileTree) (path : Path) : Except FileError (List String) :=
  (tree.resolve path).bind fun place =>
    if tree.node? place = some .directory then
      .ok (tree.nodes.keys.filterMap fun inner =>
        if inner.dropLast = place then inner.getLast? else none)
    else .error .notADirectory

end FileTree

/-! ## Changing -/

/-- An operation on a file tree. What it has done before it fails stays done. -/
abbrev FileAction := ExceptT FileError (StateM FileTree)

namespace FileAction

def ask (question : FileTree → Except FileError α) : FileAction α :=
  fun tree => (question tree, tree)

def put (place : Place) (node : Node) : FileAction Unit :=
  fun tree => (.ok (), { tree with nodes := tree.nodes.insert place node })

def makeDirectory (path : Path) : FileAction Unit := do
  match ← ask (·.resolveParent path) with
  | (_, none) => throw .alreadyExists
  | (parent, some name) =>
      let place := parent ++ [name]
      match ← ask (.ok <| ·.node? place) with
      | some _ => throw .alreadyExists
      | none => put place .directory

/-- Go on if there is a directory at the path after all. -/
def unlessDirectory (path : Path) (error : FileError) : FileAction Unit := do
  if ← ask (.ok <| ·.isDirectory path) then return else throw error

/-- Make a directory and the missing ones among the nearest `depth` that hold
it. -/
def makeDirectoriesWithin : (depth : Nat) → Path → FileAction Unit
  | 0, _ => throw .notFound
  | depth + 1, path => do
      if path = Path.empty then return
      else
        tryCatch (makeDirectory path) fun error =>
          match error, path.parent? with
          | .notFound, none => throw .notFound
          | .notFound, some parent => do
              makeDirectoriesWithin depth parent
              tryCatch (makeDirectory path) (unlessDirectory path)
          | error, _ => unlessDirectory path error

def makeDirectories (path : Path) : FileAction Unit :=
  makeDirectoriesWithin (path.components.length + 1) path

def writeFile (path : Path) (contents : Bytes) : FileAction Unit := do
  match ← ask (·.resolveParent path) with
  | (_, none) => throw .isADirectory
  | (parent, some name) =>
      let place := parent ++ [name]
      let node? ← ask (.ok <| ·.node? place)
      if node? = some .directory || path.rest.getLast? = some "" then throw .isADirectory
      else put place (.file contents)

def writeText (path : Path) (text : String) : FileAction Unit :=
  writeFile path (Utf8.encode text)

def removeFile (path : Path) : FileAction Unit := do
  let place ← ask (·.resolve path)
  match ← ask (.ok <| ·.node? place) with
  | some (.file _) =>
      modify fun tree => { tree with nodes := tree.nodes.filterKeys (· != place) }
  | _ => throw .isADirectory

end FileAction

namespace FileTree

def filesBelow (tree : FileTree) (place : Place) : List (Place × Bytes) :=
  tree.nodes.entries.filterMap fun (inner, node) =>
    match node with
    | .file contents =>
        if place.isPrefixOf inner then some (inner.drop place.length, contents) else none
    | .directory => none

def after (tree : FileTree) (action : FileAction Unit) : FileTree :=
  (action.run tree).2

private def smallTree : FileTree :=
  (atPlace ["home"]).after do
    FileAction.makeDirectories (.ofText "a/b")
    FileAction.writeText (.ofText "a/f") "x"

example : smallTree.isFile (.ofText "a/b/../f") = true := by decide

/-- The directory that a parent step leaves must exist. -/
example : smallTree.isFile (.ofText "a/c/../f") = false := by decide

/-- A file is no directory, not even for a slash at its end. -/
example : smallTree.isFile (.ofText "a/f/") = false := by decide

example : smallTree.filesBelow ["home"] = [(["a", "f"], [0x78])] := by decide

end FileTree

end CommandReference
