namespace CommandReference.Json

/-! Why a text is not a JSON value. -/

inductive ReadError where
  /-- The text ends before the value does. -/
  | incomplete
  /-- The text is not the beginning of a value. -/
  | malformed
  deriving DecidableEq, Repr

end CommandReference.Json
