import CommandReference.Number.Binary64

namespace CommandReference.Number

/-! The text of a binary floating-point number: the fewest digits from which it
can be read back. -/

structure Decimal where
  digits : Nat
  exponent : Int
  deriving DecidableEq, Repr

namespace Binary64

/-- The least power of ten that is greater than a positive number. -/
def magnitude (value : Binary64) : Int :=
  if one ≤ value.units then decimalLength (value.units / one)
  else 1 - (decimalLength (one / value.units) : Int)

def multiplesOf (value : Binary64) (exponent : Int) : Nat × Nat :=
  match exponent with
  | .ofNat power => (value.units, one * Nat.pow 10 power)
  | .negSucc less => (value.units * Nat.pow 10 (less + 1), one)

/-- The multiple of a power of ten from which the number can be read back, if
there is one; of two, the nearer one. -/
def onGrid? (value : Binary64) (exponent : Int) : Option Decimal :=
  let (numerator, denominator) := value.multiplesOf exponent
  let below := numerator / denominator
  let nearer :=
    if 2 * (numerator % denominator) < denominator then [below, below + 1]
    else [below + 1, below]
  (nearer.find? fun digits => ofDecimal? digits exponent = some value).map (⟨·, exponent⟩)

/-- Seventeen digits are enough to tell any two numbers apart. -/
def digitLimit : Nat := 17

def exact (value : Binary64) : Decimal := ⟨value.units * Nat.pow 5 1074, -1074⟩

/-- The decimal with the fewest digits from which a positive number can be read
back. -/
def shortest (value : Binary64) : Decimal :=
  let grids := (List.range digitLimit).map fun count : Nat =>
    value.magnitude - ((count : Int) + 1)
  (grids.findSome? value.onGrid?).getD value.exact

end Binary64

namespace Decimal

/-- The decimal without zeros at the end of its digits, of which at most `steps`
are dropped. -/
def stripZeros : (steps : Nat) → Decimal → Decimal
  | 0, decimal => decimal
  | steps + 1, decimal =>
      if decimal.digits % 10 = 0 then
        stripZeros steps ⟨decimal.digits / 10, decimal.exponent + 1⟩
      else decimal

def zeros (count : Nat) : List Char := List.replicate count '0'

/-- The characters of a decimal. From 0.00001 on and below ten to the sixteenth it
is written with a point, elsewhere with an exponent. -/
def characters (decimal : Decimal) : List Char :=
  let digits := decimal.digits.repr.toList
  let point := digits.length + decimal.exponent
  if 0 ≤ decimal.exponent ∧ point ≤ 16 then
    digits ++ zeros decimal.exponent.toNat ++ ['.', '0']
  else if 0 < point ∧ point ≤ 16 then
    digits.take point.toNat ++ '.' :: digits.drop point.toNat
  else if -5 < point ∧ point ≤ 0 then
    '0' :: '.' :: zeros (-point).toNat ++ digits
  else
    let fraction := if digits.length = 1 then [] else '.' :: digits.drop 1
    digits.take 1 ++ fraction ++ 'e' :: (point - 1).repr.toList

end Decimal

def Binary64.characters (value : Binary64) : List Char :=
  if value.units = 0 then ['0', '.', '0']
  else (value.shortest.stripZeros digitLimit).characters

end CommandReference.Number
