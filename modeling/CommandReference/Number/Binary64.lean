namespace CommandReference.Number

/-! Binary floating-point numbers with 53 significant bits, without signs. Every
such number is a multiple of the least positive one, so exact arithmetic on
natural numbers describes them all. Numbers with up to 53 bits are all there;
above, only every second, fourth, … multiple is. -/

/-- A number as a multiple of the least positive one, which is two to the power
-1074. -/
structure Binary64 where
  units : Nat
  deriving DecidableEq, Repr, Inhabited

/-- The natural number nearest to a quotient; a half goes to the even neighbour. -/
def roundQuotient (numerator denominator : Nat) : Nat :=
  let quotient := numerator / denominator
  let remainder := numerator % denominator
  if denominator < 2 * remainder then quotient + 1
  else if 2 * remainder = denominator ∧ quotient % 2 = 1 then quotient + 1
  else quotient

namespace Binary64

def one : Nat := Nat.pow 2 1074

def limit : Nat := Nat.pow 2 2098

/-- The number nearest to a quotient of units; a half goes to the neighbour whose
last significant bit is zero. There is none for a quotient that is too great. -/
def ofQuotient? (numerator denominator : Nat) : Option Binary64 :=
  let bits := (numerator / denominator).log2 + 1
  let spacing := Nat.pow 2 (bits - 53)
  let units := roundQuotient numerator (denominator * spacing) * spacing
  if units < limit then some ⟨units⟩ else none

def ofNat? (value : Nat) : Option Binary64 := ofQuotient? (value * one) 1

def multiply? (left right : Binary64) : Option Binary64 :=
  ofQuotient? (left.units * right.units) one

def divide? (left right : Binary64) : Option Binary64 :=
  ofQuotient? (left.units * one) right.units

def decimalLength (value : Nat) : Nat := value.repr.length

def greatestPower : Nat := 308

/-- The number nearest to `digits` times a power of ten. Exponents so great or so
small that they alone decide the result are not computed with. -/
def ofDecimal? (digits : Nat) (exponent : Int) : Option Binary64 :=
  if digits = 0 then some ⟨0⟩
  else
    match exponent with
    | .ofNat power =>
        if greatestPower < power then none
        else ofQuotient? (digits * Nat.pow 10 power * one) 1
    | .negSucc less =>
        if decimalLength digits + 400 < less then some ⟨0⟩
        else ofQuotient? (digits * one) (Nat.pow 10 (less + 1))

example : roundQuotient 5 2 = 2 ∧ roundQuotient 7 2 = 4 ∧ roundQuotient 8 3 = 3 := by
  decide

/-- A third bit beyond the 53 significant ones is lost. -/
example : ofNat? (Nat.pow 2 53 + 1) = ofNat? (Nat.pow 2 53) := by decide +kernel

example : ofDecimal? 1 400 = none ∧ ofDecimal? 1 (-400) = some ⟨0⟩ := by decide +kernel

/-- Half of the least positive number is the watershed to zero. -/
example : ofDecimal? 24703282292062327 (-340) = some ⟨0⟩ ∧
    ofDecimal? 24703282292062328 (-340) = some ⟨1⟩ := by decide +kernel

end Binary64

end CommandReference.Number
