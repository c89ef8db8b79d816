import CommandReference.FileTree

namespace CommandReference

/-! Where interface files come from. The loader only asks three questions of its
source, whether that holds its files in memory or is a directory tree. -/

structure Source where
  /-- The contents of a file, if it can be read. -/
  read? : Path → Option Bytes
  isFile : Path → Bool
  /-- The files directly inside a directory, in order. -/
  list : Path → List Path

/-- Files kept by the normal forms of their paths. -/
abbrev MemorySource := SortedMap Location Bytes

namespace MemorySource

/-- The source that holds the given files. Of two files with one normal form,
the later one counts. -/
def ofFiles (files : List (Path × Bytes)) : MemorySource :=
  SortedMap.ofList (files.map fun (path, contents) => (path.location, contents))

def read? (source : MemorySource) (path : Path) : Option Bytes :=
  source.get? path.location

def isFile (source : MemorySource) (path : Path) : Bool :=
  source.contains path.location

def missingMessage (path : Path) : String :=
  "file not found in memory: " ++ (Path.ofLocation path.location).text

def list (source : MemorySource) (directory : Path) : List Path :=
  (source.keys.filter fun location =>
    Location.parent? location = some directory.location).map .ofLocation

def toSource (source : MemorySource) : Source where
  read? := source.read?
  isFile := source.isFile
  list := source.list

end MemorySource

namespace FileTree

/-- The files directly inside a directory, in order. A directory that cannot be
listed holds none. -/
def listFiles (tree : FileTree) (directory : Path) : List Path :=
  match tree.list directory with
  | .ok names => (names.map directory.joinText).filter tree.isFile
  | .error _ => []

def toSource (tree : FileTree) : Source where
  read? path := (tree.read path).toOption
  isFile := tree.isFile
  list := tree.listFiles

end FileTree

end CommandReference
