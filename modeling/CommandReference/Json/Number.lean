import CommandReference.Json.Error
import CommandReference.Json.Value

namespace CommandReference.Json

/-! Numbers in JSON texts. A whole number that fits a 64-bit word, signed or not, is
an integer. Every other number is converted in steps that are each rounded to
nearest: as many digits as fit a 64-bit word are taken as a whole number, and that
is multiplied or divided by a power of ten. -/

open Number (Binary64)

/-! ## Conversion -/

def wordLimit : Nat := 0x10000000000000000

/-- Append digits to a number as long as it fits a word. The digits that are left
over come with it. -/
def gather (value : Nat) : List Char → Nat × List Char
  | [] => (value, [])
  | digit :: rest =>
      let longer := value * 10 + (digit.toNat - 0x30)
      if longer < wordLimit then gather longer rest else (value, digit :: rest)

def powerOfTen? (power : Nat) : Option Binary64 := Binary64.ofNat? (Nat.pow 10 power)

/-- A number times a power of ten. There is no result when it is too great. Below
the least power of ten, the division is done in several steps. -/
def scale? (value : Binary64) (exponent : Int) : Option Binary64 :=
  if exponent.natAbs ≤ Binary64.greatestPower then
    (powerOfTen? exponent.natAbs).bind fun power =>
      if 0 ≤ exponent then value.multiply? power else value.divide? power
  else if value.units = 0 then some value
  else if 0 < exponent then none
  else
    ((powerOfTen? Binary64.greatestPower).bind value.divide?).bind fun value =>
      scale? value (exponent + Binary64.greatestPower)
termination_by exponent.natAbs
decreasing_by simp only [Binary64.greatestPower] at *; omega

/-- The value of a whole number. What is not a positive number in an unsigned word
or a negative one in a signed word has no integer. -/
def wholeValue? (negative : Bool) (value : Nat) : Option Value :=
  if negative then
    if 0 < value ∧ value ≤ 0x8000000000000000 then some (.integer (-value))
    else (Binary64.ofNat? value).map (.real true)
  else some (.integer value)

def numberValue? (negative : Bool) (whole fraction : List Char) (exponent? : Option Int) :
    Option Value :=
  let (leading, dropped) := gather 0 whole
  if fraction.isEmpty && exponent?.isNone && dropped.isEmpty then
    wholeValue? negative leading
  else
    let (significand, unused) := gather leading fraction
    let shift : Int := dropped.length - (fraction.length - unused.length : Nat)
    ((Binary64.ofNat? significand).bind fun value =>
      scale? value (shift + exponent?.getD 0)).map (.real negative)

/-! ## Reading -/

def readDigits (characters : List Char) : Except ReadError (List Char × List Char) :=
  match characters.span Char.isDigit with
  | ([], []) => .error .incomplete
  | ([], _ :: _) => .error .malformed
  | parsed => .ok parsed

/-- The digits before a fraction: a leading zero stands alone. -/
def readWhole (characters : List Char) : Except ReadError (List Char × List Char) :=
  match characters with
  | '0' :: rest =>
      if (rest.head?.map Char.isDigit).getD false then .error .malformed else .ok (['0'], rest)
  | _ => readDigits characters

def readFraction : List Char → Except ReadError (List Char × List Char)
  | '.' :: rest => readDigits rest
  | rest => .ok ([], rest)

def digitsValue (digits : List Char) : Nat :=
  digits.foldl (fun value digit => value * 10 + (digit.toNat - 0x30)) 0

def readExponent (characters : List Char) :
    Except ReadError (Option Int × List Char) :=
  match characters with
  | mark :: rest =>
      if mark = 'e' || mark = 'E' then
        let (negative, rest) :=
          match rest with
          | '+' :: rest => (false, rest)
          | '-' :: rest => (true, rest)
          | _ => (false, rest)
        (readDigits rest).map fun (digits, rest) =>
          let size : Int := digitsValue digits
          (some (if negative then -size else size), rest)
      else .ok (none, characters)
  | [] => .ok (none, [])

def readUnsigned (negative : Bool) (characters : List Char) :
    Except ReadError (Value × List Char) := do
  let (whole, rest) ← readWhole characters
  let (fraction, rest) ← readFraction rest
  let (exponent?, rest) ← readExponent rest
  match numberValue? negative whole fraction exponent? with
  | some value => return (value, rest)
  | none => .error .malformed

example : (readUnsigned false "18446744073709551615,".toList).toOption =
    some (.integer 18446744073709551615, [',']) := by decide +kernel

example : (readUnsigned true "0".toList).toOption = some (.real true ⟨0⟩, []) := by
  decide +kernel

example : (readUnsigned false "1e400".toList).toOption = none := by decide +kernel

end CommandReference.Json
