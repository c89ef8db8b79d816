import CommandReference.Database
import CommandReference.Json.Printer

namespace CommandReference

/-! Shards: consecutive records of a reference that are published together, so
that one of them can be looked up without reading the others. -/

open Json (Value)

/-- Records in the order of their names. The key is the last name. -/
structure Shard where
  key : String
  records : List (String × Value)
  deriving DecidableEq, Repr

namespace Shard

def recordSize (name : String) (value : Value) : Nat :=
  name.utf8ByteSize + value.ascii.utf8ByteSize

/-- Cut records into shards. A shard is complete as soon as its size reaches the
threshold; `reversed` and `size` belong to the one that is not yet. -/
def cut (threshold : Nat) (reversed : List (String × Value)) (size : Nat) :
    List (String × Value) → List Shard
  | [] =>
      match reversed with
      | [] => []
      | (key, _) :: _ => [⟨key, reversed.reverse⟩]
  | (name, value) :: rest =>
      let size := size + recordSize name value
      let reversed := (name, value) :: reversed
      if threshold ≤ size then ⟨name, reversed.reverse⟩ :: cut threshold [] 0 rest
      else cut threshold reversed size rest

def toJson (shard : Shard) : Value := .object shard.records

/-- The shard that can hold a name: the first of the ordered keys that is not
before it. -/
def locate? (keys : List String) (name : String) : Option String :=
  keys.find? fun key => decide (name ≤ key)

end Shard

def Database.shards (database : Database) (threshold : Nat) : List Shard :=
  Shard.cut threshold [] 0 database.records.entries

private def exampleRecords : List (String × Value) :=
  [("a", .null), ("b", .null), ("c", .null)]

example : (Shard.cut 6 [] 0 exampleRecords).map (·.key) = ["b", "c"] := by decide

example : (Shard.cut 0 [] 0 exampleRecords).map (·.key) = ["a", "b", "c"] := by decide

example : Shard.locate? ["b", "d"] "c" = some "d" := by decide

end CommandReference
