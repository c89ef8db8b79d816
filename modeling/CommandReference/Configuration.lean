import CommandReference.Failure
import CommandReference.Path
import CommandReference.Text.Utf8
import CommandReference.Toml.Reader

namespace CommandReference

/-! Settings of a compilation. Every setting has a default, so a configuration
text need not mention it. -/

structure Configuration where
  policy : Policy
  /-- Also load the interface files of modules. -/
  includeModules : Bool
  /-- Drop signatures that others cover. -/
  simplify : Bool
  /-- Shared definitions, loaded before any other file. They must exist. -/
  commonFile : String
  /-- The file that includes all others. -/
  manifestFile : String
  /-- The directory that holds the interface files of modules. -/
  moduleDirectory : Path
  /-- Directories that are searched after the root of the corpus. -/
  searchDirectories : List Path
  /-- The size in bytes at which a shard is complete. -/
  shardThreshold : Nat
  deriving DecidableEq, Repr

namespace Configuration

def default : Configuration where
  policy := .tolerant
  includeModules := false
  simplify := true
  commonFile := "i-common-definitions.xml"
  manifestFile := "i-context.xml"
  moduleDirectory := .ofText "modules"
  searchDirectories := []
  shardThreshold := 64 * 1024

instance : Inhabited Configuration := ⟨default⟩

open Toml (Value Fields)

/-! ## Settings from a configuration text -/

def policyOfName? (name : String) : Option Policy :=
  if name = "tolerant" then some .tolerant
  else if name = "strict" then some .strict
  else none

/-- A policy is given by its name, or by a table whose only field has that name
and holds nothing. -/
def policy? : Value → Option Policy
  | .text name => policyOfName? name
  | .table _ [(name, .table _ [])] => policyOfName? name
  | .table _ [(name, .array [])] => policyOfName? name
  | _ => none

def boolean? : Value → Option Bool
  | .boolean value => some value
  | _ => none

def text? : Value → Option String
  | .text value => some value
  | _ => none

def path? (value : Value) : Option Path := (text? value).map .ofText

def paths? : Value → Option (List Path)
  | .array items => items.mapM path?
  | _ => none

def size? : Value → Option Nat
  | .integer value => if 0 ≤ value then some value.toNat else none
  | _ => none

def setting (fields : Fields) (key : String) (convert : Value → Option α)
    (standard : α) : Option α :=
  match fields.lookup key with
  | none => some standard
  | some value => convert value

/-- The settings that the fields of a configuration text make. Fields that are
no settings do not matter. -/
def ofFields (fields : Fields) : Option Configuration := do
  return {
    policy := ← setting fields "policy" policy? default.policy
    includeModules := ← setting fields "include_modules" boolean? default.includeModules
    simplify := ← setting fields "simplify" boolean? default.simplify
    commonFile := ← setting fields "common_file" text? default.commonFile
    manifestFile := ← setting fields "manifest_file" text? default.manifestFile
    moduleDirectory := ← setting fields "module_dir" path? default.moduleDirectory
    searchDirectories := ← setting fields "search_dirs" paths? default.searchDirectories
    shardThreshold := ← setting fields "shard_threshold" size? default.shardThreshold }

def ofText (text : String) : Option Configuration :=
  (Toml.read text).bind ofFields

end Configuration

end CommandReference
