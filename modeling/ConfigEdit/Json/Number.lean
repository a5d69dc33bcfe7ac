import ConfigEdit.Number.Basic
import ConfigEdit.Number.Decimal

/-!
# Numbers of JSON

A number without fraction and exponent is an integer if 64 bits can hold it; any
other number, and `-0`, is a binary number, which must be finite.

The digits of a binary number are held in 64 bits as long as they fit.  What
they make is rounded, and its product or quotient with a power of ten is rounded
once more, so the number that is read can miss the nearest one.
-/

namespace ConfigEdit

namespace Binary64

/-- The number nearest to a product, if it is not too large. -/
def times? (left right : Binary64) : Option Binary64 :=
  ofRatio? (left.negative != right.negative) (left.numerator * right.numerator)
    (left.denominator * right.denominator)

/-- The number nearest to a quotient, if it is not too large. -/
def over? (left right : Binary64) : Option Binary64 :=
  ofRatio? (left.negative != right.negative)
    (left.numerator * right.denominator) (left.denominator * right.numerator)

/-- The greatest exponent of a power of ten that the format has. -/
def maxPowerOfTen : Nat := 308

/-- The number nearest to a power of ten. -/
def powerOfTen? (exponent : Nat) : Option Binary64 :=
  Decimal.toBinary64? ⟨false, 1, exponent⟩

/-- A number divided by the greatest power of ten so many times, or until it is
zero. -/
def shrink? : (times : Nat) → Binary64 → Option Binary64
  | 0, number => some number
  | times + 1, number =>
      if number.significand = 0 then some number
      else
        ((powerOfTen? maxPowerOfTen).bind number.over?).bind (shrink? times)

/-- A number with a power of ten, by one product or by as many quotients as the
exponent needs. -/
def scale? (number : Binary64) (exponent : Int) : Option Binary64 :=
  if number.significand = 0 then some number
  else if 0 ≤ exponent then
    if exponent.toNat ≤ maxPowerOfTen then
      (powerOfTen? exponent.toNat).bind number.times?
    else none
  else
    let times := ((-exponent).toNat - 1) / maxPowerOfTen
    (number.shrink? times).bind fun shrunk =>
      (powerOfTen? ((-exponent).toNat - times * maxPowerOfTen)).bind
        shrunk.over?

end Binary64

namespace Json

/-- A coefficient with digits behind it, as long as 64 bits hold them, and how
many digits are left. -/
def holdDigits : (coefficient : Nat) → (digits : Text) → Nat × Nat
  | coefficient, [] => (coefficient, 0)
  | coefficient, digit :: others =>
      let longer := coefficient * 10 + (digitValue? 10 digit).getD 0
      if longer < UInt64.size then holdDigits longer others
      else (coefficient, others.length + 1)

/-- The decimal that is made of the digits of a number.  A digit that is not
held counts as zero in the whole part, and not at all in the fraction. -/
def heldDecimal (negative : Bool) (whole fraction : Text)
    (exponent : Int) : Decimal :=
  let (coefficient, behind) := holdDigits 0 whole
  let (coefficient, dropped) := holdDigits coefficient fraction
  ⟨negative, coefficient, behind - (fraction.length - dropped) + exponent⟩

/-- The binary number of a decimal: the coefficient is rounded first, and then
its product or quotient with the power of ten. -/
def roundHeld? (decimal : Decimal) : Option Binary64 :=
  (Binary64.ofRatio? false decimal.coefficient 1).bind fun coefficient =>
    (coefficient.scale? decimal.exponent).map fun magnitude =>
      { magnitude with negative := decimal.negative }

/-- The number of a whole part, a fraction and an exponent.  The last two begin
with their marks, and are empty if the number has none. -/
def numberOfParts? (negative : Bool)
    (whole fraction exponent : Text) : Option Number :=
  let integer :=
    if fraction.isEmpty && exponent.isEmpty then
      (natOfDigits? 10 whole).bind fun value =>
        if negative then
          if value = 0 then none else Number.ofInt? (-Int.ofNat value)
        else Number.ofInt? value
    else none
  match integer with
  | some value => some value
  | none =>
      let power := (intOfText? 10 exponent.tail).getD 0
      (roundHeld? (heldDecimal negative whole fraction.tail power)).map .float

end Json

end ConfigEdit
