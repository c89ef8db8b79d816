import CommandReference.FileTree
import CommandReference.Json.Reader
import CommandReference.Shard.Basic
import CommandReference.Shard.FileName

namespace CommandReference

/-! References in directories: an index and the files of the shards beside it. -/

open Json (Value)

namespace Shard

def indexFile : String := "index.json"

def directoryName : String := "shards"

def write (shard : Shard) (directory : Path) : FileAction Unit :=
  FileAction.writeText (directory.joinText (fileName shard.key)) shard.toJson.ascii

end Shard

/-- Write a reference into a directory. Files that are there already stay, unless
they are written again. -/
def Database.write (database : Database) (directory : Path) (threshold : Nat) :
    FileAction Unit := do
  let shardDirectory := directory.joinText Shard.directoryName
  FileAction.makeDirectories shardDirectory
  FileAction.writeText (directory.joinText Shard.indexFile)
    (Value.ofTexts database.index).ascii
  (database.shards threshold).forM fun shard => shard.write shardDirectory

inductive LookupError where
  | file (reason : FileError)
  | json (reason : Json.ReadError)
  deriving DecidableEq, Repr

structure ShardReader where
  directory : Path
  keys : List String
  deriving DecidableEq, Repr

namespace ShardReader

def ofDirectory (tree : FileTree) (directory : Path) : Except FileError ShardReader :=
  let shardDirectory := directory.joinText Shard.directoryName
  (tree.list shardDirectory).map fun names =>
    { directory := shardDirectory
      keys := (names.filterMap Shard.keyOfFileName?).mergeSort
        fun left right => decide (left ≤ right) }

/-- The record of a name, if the reference has one. Only the shard that can hold
it is read. -/
def lookup (reader : ShardReader) (tree : FileTree) (name : String) :
    Except LookupError (Option Value) :=
  match Shard.locate? reader.keys name with
  | none => .ok none
  | some key => do
      let text ← (tree.readText (reader.directory.joinText (Shard.fileName key))).mapError
        LookupError.file
      let records ← (Json.readObject text).mapError LookupError.json
      return records.get? name

end ShardReader

end CommandReference
