import CommandReference.Json.Printer
import CommandReference.Json.Reader
import Mathlib.Data.List.TakeDrop

namespace CommandReference.Json

/-! Whole numbers that fit a word are read back from their decimal digits, whatever may
follow a value. -/

inductive EndsValue : List Char → Prop
  | nothing : EndsValue []
  | comma (rest : List Char) : EndsValue (',' :: rest)
  | bracket (rest : List Char) : EndsValue (']' :: rest)
  | brace (rest : List Char) : EndsValue ('\x7d' :: rest)
  | newLine (rest : List Char) : EndsValue ('\n' :: rest)

theorem EndsValue.not_digit {rest : List Char} (ends : EndsValue rest) :
    rest.span Char.isDigit = ([], rest) := by
  cases ends <;> rfl

/-! ## Digits -/

theorem head?_toDigits (value : Nat) (positive : 0 < value) :
    (Nat.toDigits 10 value).head? ≠ some '0' := by
  induction value using Nat.strongRecOn with
  | ind value induction =>
      by_cases single : value < 10
      · rw [Nat.toDigits_of_lt_base single]
        have nonzero : ∀ digit < 10, 0 < digit → [digit.digitChar].head? ≠ some '0' := by
          decide
        exact nonzero value single positive
      · have shorter := induction (value / 10) (by omega) (by omega)
        rw [Nat.toDigits_of_base_le (by decide) (by omega), List.head?_append,
          List.head?_eq_some_head Nat.toDigits_ne_nil, Option.some_or]
        rw [List.head?_eq_some_head Nat.toDigits_ne_nil] at shorter
        exact shorter

theorem le_ofDigitChars (digits : List Char) (value : Nat) :
    value ≤ Nat.ofDigitChars 10 digits value := by
  induction digits generalizing value with
  | nil => exact Nat.ofDigitChars_nil ▸ Nat.le_refl value
  | cons digit digits induction =>
      rw [Nat.ofDigitChars_cons]
      have later := induction (10 * value + (digit.toNat - '0'.toNat))
      omega

theorem gather_digits {digits : List Char} {value : Nat}
    (fits : Nat.ofDigitChars 10 digits value < wordLimit) :
    gather value digits = (Nat.ofDigitChars 10 digits value, []) := by
  induction digits generalizing value with
  | nil => rw [gather, Nat.ofDigitChars_nil]
  | cons digit digits induction =>
      rw [Nat.ofDigitChars_cons, Nat.mul_comm 10 value] at fits
      have below : value * 10 + (digit.toNat - 0x30) < wordLimit :=
        Nat.lt_of_le_of_lt (le_ofDigitChars digits _) fits
      rw [gather, Nat.ofDigitChars_cons, Nat.mul_comm 10 value, if_pos below]
      exact induction fits

/-! ## Numbers -/

theorem readWhole_toDigits (value : Nat) {rest : List Char} (ends : EndsValue rest) :
    readWhole (Nat.toDigits 10 value ++ rest) = .ok (Nat.toDigits 10 value, rest) := by
  by_cases zero : value = 0
  · subst zero
    cases ends <;> rfl
  have positive := head?_toDigits value (Nat.pos_of_ne_zero zero)
  have digits : ∀ character ∈ Nat.toDigits 10 value, character.isDigit = true :=
    fun _ => Nat.isDigit_of_mem_toDigits (by decide) (by decide)
  have spanned : (Nat.toDigits 10 value ++ rest).span Char.isDigit =
      (Nat.toDigits 10 value, rest) := by
    have none := ends.not_digit
    rw [List.span_eq_takeWhile_dropWhile, Prod.mk.injEq] at none
    rw [List.span_eq_takeWhile_dropWhile, List.takeWhile_append_of_pos digits,
      List.dropWhile_append_of_pos digits, none.1, none.2, List.append_nil]
  cases written : Nat.toDigits 10 value with
  | nil => exact absurd written Nat.toDigits_ne_nil
  | cons digit others =>
      rw [written] at positive spanned
      rw [List.cons_append, readWhole]
      · rw [readDigits, ← List.cons_append, spanned]
      · intro _ equal
        exact positive (congrArg some (List.cons.inj equal).1)

theorem readUnsigned_toDigits (negative : Bool) {value : Nat} (fits : value < wordLimit)
    {rest : List Char} (ends : EndsValue rest) {result : Value}
    (whole : wholeValue? negative value = some result) :
    readUnsigned negative (Nat.toDigits 10 value ++ rest) = .ok (result, rest) := by
  have fraction : readFraction rest = .ok ([], rest) := by cases ends <;> rfl
  have exponent : readExponent rest = .ok (none, rest) := by cases ends <;> rfl
  have gathered : gather 0 (Nat.toDigits 10 value) = (value, []) := by
    rw [gather_digits (by rw [Nat.ofDigitChars_ten_toDigits]; exact fits),
      Nat.ofDigitChars_ten_toDigits]
  have number : numberValue? negative (Nat.toDigits 10 value) [] none = some result := by
    simp only [numberValue?, gathered, List.isEmpty_nil, Option.isNone_none, Bool.and_self,
      if_true, whole]
  simp only [readUnsigned, readWhole_toDigits value ends, bind, Except.bind, fraction,
    exponent, number]
  rfl

theorem readScalar_digit {character : Char} (digit : character.isDigit = true)
    (rest : List Char) :
    readScalar (character :: rest) = readUnsigned false (character :: rest) := by
  have different : ∀ other : Char, other.isDigit = false → character ≠ other := by
    intro other notDigit equal
    rw [equal, notDigit] at digit
    cases digit
  rw [readScalar, if_pos digit]
  · exact different 'n' rfl
  · exact different 't' rfl
  · exact different 'f' rfl
  · exact different '"' rfl
  · exact different '-' rfl

theorem toList_integer (value : Int) :
    (toString value).toList =
      if value < 0 then '-' :: Nat.toDigits 10 value.natAbs
      else Nat.toDigits 10 value.natAbs := by
  rw [Int.toString_eq_repr, Int.repr_eq_if]
  split
  case isTrue notNegative =>
    have size : value.toNat = value.natAbs := by omega
    rw [Nat.toList_repr, size, if_neg (by omega)]
  case isFalse negative =>
    have size : (-value).toNat = value.natAbs := by omega
    rw [String.toList_append, Nat.toList_repr, size, if_pos (by omega)]
    rfl

theorem readScalar_integer {value : Int} (low : -0x8000000000000000 ≤ value)
    (high : value < wordLimit) {rest : List Char} (ends : EndsValue rest) :
    readScalar ((toString value).toList ++ rest) = .ok (.integer value, rest) := by
  rw [toList_integer]
  split
  case isTrue negative =>
    have size : -(value.natAbs : Int) = value := by omega
    have fits : value.natAbs < wordLimit := by
      rw [wordLimit]
      omega
    have whole : wholeValue? true value.natAbs = some (.integer value) := by
      rw [wholeValue?, if_pos rfl, if_pos (by omega), size]
    rw [List.cons_append, readScalar]
    exact readUnsigned_toDigits true fits ends whole
  case isFalse notNegative =>
    have size : (value.natAbs : Int) = value := by omega
    have whole : wholeValue? false value.natAbs = some (.integer value) := by
      rw [wholeValue?, if_neg (by decide), size]
    have read := readUnsigned_toDigits false (by omega) ends whole
    cases written : Nat.toDigits 10 value.natAbs with
    | nil => exact absurd written Nat.toDigits_ne_nil
    | cons digit others =>
        have first : digit.isDigit = true :=
          Nat.isDigit_of_mem_toDigits (by decide) (by decide) (written ▸ List.mem_cons_self)
        rw [written] at read
        rw [List.cons_append, readScalar_digit first]
        exact read

end CommandReference.Json
