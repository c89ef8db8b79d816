namespace CommandReference

/-! What can go wrong while a reference is compiled, and what is done about it.
Every failure is scoped to one interface file and, where it applies, to one
command or definition in it. -/

inductive Failure where
  /-- No search directory holds an interface file of this name. -/
  | notFound (file : String)
  /-- The file is no text, or its text is no document. -/
  | malformed (file message : String)
  /-- An element that has no place where it stands in `name`. -/
  | unexpectedTag (file name tag : String)
  /-- A reference in `name` to a definition that does not exist. -/
  | unresolved (file name reference : String)
  /-- An attribute value in `name` without a meaning. -/
  | unsupported (file name key value : String)
  deriving DecidableEq, Repr

namespace Failure

def file : Failure → String
  | notFound file | malformed file _ | unexpectedTag file _ _
  | unresolved file _ _ | unsupported file _ _ _ => file

def kind : Failure → String
  | notFound .. => "LocateError"
  | malformed .. => "XmlParseError"
  | unexpectedTag .. => "UnexpectedTagError"
  | unresolved .. => "UnresolvedReferenceError"
  | unsupported .. => "UnsupportedValueError"

def message : Failure → String
  | notFound file => s!"interface file not found: {file}"
  | malformed file message => s!"malformed interface file {file}: {message}"
  | unexpectedTag file name tag => s!"unexpected tag <{tag}> in '{name}' ({file})"
  | unresolved file name reference =>
      s!"unresolved reference '{reference}' in '{name}' ({file})"
  | unsupported file name key value =>
      s!"unsupported {key}=\"{value}\" in '{name}' ({file})"

end Failure

/-- What is noted about a corpus without giving up on it. -/
inductive Warning where
  /-- The scope of a failure was left out. -/
  | skipped (failure : Failure)
  /-- An inclusion in the file with this path names no file. -/
  | unnamedInclusion (path : String)
  /-- A command in this file has an instance without a name. -/
  | unnamedCommand (file : String)
  deriving DecidableEq, Repr

namespace Warning

def file : Warning → String
  | skipped failure => failure.file
  | unnamedInclusion path => path
  | unnamedCommand file => file

def message : Warning → String
  | skipped failure => "skipped: " ++ failure.message
  | unnamedInclusion _ => "interfacefile without filename"
  | unnamedCommand _ => "command expanded to an empty name; skipped"

end Warning

/-! ## Outcomes -/

/-- The result of a stage together with the warnings noted on the way to it, in
order. A failure keeps the warnings noted before it. -/
structure Outcome (α : Type u) where
  warnings : List Warning
  result : Except Failure α

namespace Outcome

def andThen (outcome : Outcome α) (next : α → Outcome β) : Outcome β :=
  match outcome.result with
  | .error failure => ⟨outcome.warnings, .error failure⟩
  | .ok value => ⟨outcome.warnings ++ (next value).warnings, (next value).result⟩

instance : Monad Outcome where
  pure value := ⟨[], .ok value⟩
  bind := andThen

def ofExcept (result : Except Failure α) : Outcome α := ⟨[], result⟩

def warn (warning : Warning) : Outcome Unit := ⟨[warning], .ok ()⟩

theorem pure_eq (value : α) : (pure value : Outcome α) = ⟨[], .ok value⟩ := rfl

theorem bind_ok {outcome : Outcome α} {value : α} (success : outcome.result = .ok value)
    (next : α → Outcome β) :
    outcome >>= next =
      ⟨outcome.warnings ++ (next value).warnings, (next value).result⟩ := by
  show andThen outcome next = _
  simp [andThen, success]

theorem bind_error {outcome : Outcome α} {failure : Failure}
    (failed : outcome.result = .error failure) (next : α → Outcome β) :
    outcome >>= next = ⟨outcome.warnings, .error failure⟩ := by
  show andThen outcome next = _
  simp [andThen, failed]

end Outcome

/-- How a compilation treats failures that concern only part of a corpus. -/
inductive Policy where
  | tolerant
  | strict
  deriving DecidableEq, Repr, Inhabited

/-- A tolerant compilation notes the failure and leaves its scope out; a strict
one stops at it. -/
def Policy.handle (policy : Policy) (failure : Failure) : Outcome Unit :=
  match policy with
  | .tolerant => .warn (.skipped failure)
  | .strict => ⟨[], .error failure⟩

end CommandReference
