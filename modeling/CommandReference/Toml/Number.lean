import CommandReference.Number.Binary64
import CommandReference.Toml.Text
import CommandReference.Toml.Value

namespace CommandReference.Toml

/-! Numbers, dates and times of configuration texts. Only integers keep their
value; of the others it matters that they are well formed. -/

/-! ## Numbers -/

/-- Digits, where single underscores may stand between any two. -/
def readDigits (base : Nat) : (steps : Nat) → List Char → Option (List Char × List Char)
  | 0, _ => none
  | steps + 1, characters =>
      match characters.span (isDigitOf base) with
      | ([], _) => none
      | (digits, '_' :: rest) => do
          let (more, rest) ← readDigits base steps rest
          return (digits ++ more, rest)
      | (digits, rest) => some (digits, rest)

def readSign : List Char → Int × List Char
  | '+' :: rest => (1, rest)
  | '-' :: rest => (-1, rest)
  | rest => (1, rest)

def readDecimal (characters : List Char) : Option (List Char × List Char) :=
  match characters with
  | '0' :: rest => some (['0'], rest)
  | _ => readDigits 10 (characters.length + 1) characters

def integer? (value : Int) : Option Value :=
  if -0x8000000000000000 ≤ value ∧ value < 0x8000000000000000 then some (.integer value)
  else none

def readInteger (characters : List Char) : Option (Value × List Char) :=
  let based (base : Nat) (rest : List Char) := do
    let (digits, rest) ← readDigits base (rest.length + 1) rest
    return (← integer? (valueOf base digits), rest)
  match characters with
  | '0' :: 'x' :: rest => based 16 rest
  | '0' :: 'o' :: rest => based 8 rest
  | '0' :: 'b' :: rest => based 2 rest
  | _ => do
      let (sign, rest) := readSign characters
      let (digits, rest) ← readDecimal rest
      return (← integer? (sign * valueOf 10 digits), rest)

def readExponent : List Char → Option (Int × List Char)
  | mark :: rest =>
      if mark = 'e' || mark = 'E' then do
        let (sign, rest) := readSign rest
        let (digits, rest) ← readDigits 10 (rest.length + 1) rest
        return (sign * valueOf 10 digits, rest)
      else none
  | [] => none

/-- Fractions are binary floating-point numbers. One that is greater than them all
is refused, but one that is less stands for minus infinity. -/
def fraction? (sign : Int) (digits : List Char) (exponent : Int) : Option Value :=
  let magnitude? := Number.Binary64.ofDecimal? (valueOf 10 digits) exponent
  if 0 < sign ∧ magnitude?.isNone then none else some .fraction

def readFraction (characters : List Char) : Option (Value × List Char) :=
  let (sign, rest) := readSign characters
  match rest with
  | 'i' :: 'n' :: 'f' :: rest => some (.fraction, rest)
  | 'n' :: 'a' :: 'n' :: rest => some (.fraction, rest)
  | rest => do
      let (whole, rest) ← readDecimal rest
      match rest with
      | '.' :: rest => do
          let (fraction, rest) ← readDigits 10 (rest.length + 1) rest
          let (exponent, rest) := (readExponent rest).getD (0, rest)
          let value ← fraction? sign (whole ++ fraction) (exponent - fraction.length)
          return (value, rest)
      | _ => do
          let (exponent, rest) ← readExponent rest
          return (← fraction? sign whole exponent, rest)

/-! ## Dates and times -/

def readField (count low high : Nat) (characters : List Char) : Option (Nat × List Char) :=
  let digits := characters.take count
  let value := valueOf 10 digits
  if digits.length = count && digits.all Char.isDigit && low ≤ value && value ≤ high then
    some (value, characters.drop count)
  else none

def readCharacter (expected : Char) : List Char → Option (List Char)
  | character :: rest => if character = expected then some rest else none
  | [] => none

def daysInMonth (year month : Nat) : Nat :=
  if month = 2 then
    if year % 4 = 0 ∧ (year % 100 ≠ 0 ∨ year % 400 = 0) then 29 else 28
  else if month = 4 ∨ month = 6 ∨ month = 9 ∨ month = 11 then 30
  else 31

def readDate (characters : List Char) : Option (List Char) := do
  let (year, rest) ← readField 4 0 9999 characters
  let rest ← readCharacter '-' rest
  let (month, rest) ← readField 2 1 12 rest
  let rest ← readCharacter '-' rest
  let (_, rest) ← readField 2 1 (daysInMonth year month) rest
  return rest

def readTime (characters : List Char) : Option (List Char) := do
  let (_, rest) ← readField 2 0 23 characters
  let rest ← readCharacter ':' rest
  let (_, rest) ← readField 2 0 59 rest
  let rest ← readCharacter ':' rest
  let (_, rest) ← readField 2 0 60 rest
  match rest with
  | '.' :: fraction =>
      match fraction.span Char.isDigit with
      | ([], _) => none
      | (_, rest) => some rest
  | _ => some rest

def readOffset : List Char → Option (List Char)
  | mark :: rest =>
      if mark = 'Z' || mark = 'z' then some rest
      else if mark = '+' || mark = '-' then do
        let (_, rest) ← readField 2 0 23 rest
        let rest ← readCharacter ':' rest
        let (_, rest) ← readField 2 0 59 rest
        return rest
      else none
  | [] => none

def readMoment (characters : List Char) : Option (Value × List Char) :=
  match readDate characters with
  | none => (readTime characters).map fun rest => (.moment, rest)
  | some rest =>
      let withTime :=
        match rest with
        | mark :: time =>
            if mark = 'T' || mark = 't' || mark = ' ' then readTime time else none
        | [] => none
      match withTime with
      | none => some (.moment, rest)
      | some rest => some (.moment, (readOffset rest).getD rest)

end CommandReference.Toml
