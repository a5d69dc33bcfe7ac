import ConfigEdit.Number.Binary64
import ConfigEdit.Text.Digits

/-!
# Decimal numbers

A decimal number is a coefficient and a power of ten with a sign.  This module
reads one from its digits and rounds it to a binary number.
-/

namespace ConfigEdit

/-- The number `coefficient * 10 ^ exponent` with a sign. -/
structure Decimal where
  negative : Bool
  coefficient : Nat
  exponent : Int
deriving DecidableEq, Repr

namespace Decimal

/-- Digits with an optional point among them or at either end, and an optional
exponent.  There is at least one digit before the exponent. -/
def ofUnsigned? (negative : Bool) (text : Text) : Option Decimal :=
  let whole := text.takeWhile Char.isDigit
  let afterWhole := text.dropWhile Char.isDigit
  let (fraction, rest) :=
    match afterWhole with
    | '.' :: others =>
        (others.takeWhile Char.isDigit, others.dropWhile Char.isDigit)
    | others => ([], others)
  match natOfDigits? 10 (whole ++ fraction) with
  | none => none
  | some coefficient =>
      let scale : Int := Int.ofNat fraction.length
      match rest with
      | [] => some ⟨negative, coefficient, -scale⟩
      | mark :: exponent =>
          if mark = 'e' || mark = 'E' then
            (intOfText? 10 exponent).map fun value =>
              ⟨negative, coefficient, value - scale⟩
          else none

/-- A decimal number with an optional sign of either kind. -/
def ofText? : Text → Option Decimal
  | '-' :: rest => ofUnsigned? true rest
  | '+' :: rest => ofUnsigned? false rest
  | text => ofUnsigned? false text

/-- The binary number nearest to a decimal number.  Numbers of `10 ^ 400` and
more are too large, and those below `10 ^ -400` round to zero, so that no
greater power of ten has to be computed. -/
def toBinary64? (decimal : Decimal) : Option Binary64 :=
  let size : Int :=
    Int.ofNat (digitCount 10 decimal.coefficient) + decimal.exponent
  if decimal.coefficient = 0 || size < -400 then
    some (Binary64.zero decimal.negative)
  else if 400 < size then none
  else
    Binary64.ofRatio? decimal.negative
      (decimal.coefficient * Nat.pow 10 decimal.exponent.toNat)
      (Nat.pow 10 (-decimal.exponent).toNat)

end Decimal

end ConfigEdit
