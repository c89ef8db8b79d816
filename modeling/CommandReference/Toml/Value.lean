namespace CommandReference.Toml

/-! Tables of a configuration text, and how its lines build them up. A key may be
given once. A table may be opened by one header, or be made by dotted keys, but
not both; tables that only lie on the way to others may still be opened. -/

inductive Origin where
  /-- By its own header. -/
  | header
  /-- On the way to a table with a header. -/
  | implied
  /-- On the way along a dotted key. -/
  | dotted
  /-- Written in braces, and closed to additions. -/
  | inline
  deriving DecidableEq, Repr

/-- A value. Of fractions and of dates and times only their presence is kept. -/
inductive Value where
  | text (value : String)
  | integer (value : Int)
  | fraction
  | boolean (value : Bool)
  | moment
  | array (items : List Value)
  | table (origin : Origin) (fields : List (String × Value))
  /-- Tables that share a header, in reverse order. -/
  | tables (reversed : List (List (String × Value)))
  deriving Repr, Inhabited

abbrev Fields := List (String × Value)

namespace Fields

def replace (fields : Fields) (key : String) (value : Value) : Fields :=
  fields.map fun field => if field.1 = key then (key, value) else field

def add (fields : Fields) (key : String) (value : Value) : Option Fields :=
  if (fields.lookup key).isSome then none else some (fields ++ [(key, value)])

/-- Add a field under a dotted key. The tables on the way must not have headers of
their own, and the last one must have been made by dotted keys. -/
def addDotted (value : Value) : (path : List String) → (key : String) → Fields →
    Option Fields
  | [], key, fields => fields.add key value
  | step :: path, key, fields =>
      match fields.lookup step with
      | none => (addDotted value path key []).bind fun inner =>
          fields.add step (.table .dotted inner)
      | some (.table .dotted inner) => (addDotted value path key inner).map fun inner =>
          fields.replace step (.table .dotted inner)
      | some (.table .implied inner) =>
          if path.isEmpty then none
          else (addDotted value path key inner).map fun inner =>
            fields.replace step (.table .implied inner)
      | some (.tables (last :: others)) =>
          if path.isEmpty then none
          else (addDotted value path key last).map fun last =>
            fields.replace step (.tables (last :: others))
      | some _ => none

/-- Change the table that the path leads to. Missing tables are made on the way,
and of tables that share a header the last one is meant. -/
def updateAt (update : Fields → Option Fields) : (path : List String) → Fields →
    Option Fields
  | [], fields => update fields
  | step :: path, fields =>
      match fields.lookup step with
      | none => (updateAt update path []).bind fun inner =>
          fields.add step (.table .implied inner)
      | some (.table .inline _) => none
      | some (.table origin inner) => (updateAt update path inner).map fun inner =>
          fields.replace step (.table origin inner)
      | some (.tables (last :: others)) => (updateAt update path last).map fun last =>
          fields.replace step (.tables (last :: others))
      | some _ => none

def openTable (key : String) (fields : Fields) : Option Fields :=
  match fields.lookup key with
  | none => fields.add key (.table .header [])
  | some (.table .implied inner) => some (fields.replace key (.table .header inner))
  | some _ => none

def appendTable (key : String) (fields : Fields) : Option Fields :=
  match fields.lookup key with
  | none => fields.add key (.tables [[]])
  | some (.tables reversed) => some (fields.replace key (.tables ([] :: reversed)))
  | some _ => none

end Fields

end CommandReference.Toml
