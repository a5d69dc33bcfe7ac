/-!
# Binary floating-point numbers

The finite numbers of the 64-bit binary format, as a sign, a significand below
`2 ^ 53` and a power of two.  Every value has one representation: the
significand is at least `2 ^ 52` unless the exponent is the least one.

`Binary64.ofRatio?` rounds a quotient to the nearest number; a tie goes to the
even significand.  A quotient too large for the format has no number.
-/

namespace ConfigEdit

/-- A significand and an exponent that stand for a number of the format.  The
significand is below `2 ^ 53`, and at least `2 ^ 52` above the least
exponent. -/
def Binary64.Represents (significand : Nat) (exponent : Int) : Prop :=
  significand < 9007199254740992 ∧ -1074 ≤ exponent ∧ exponent ≤ 971 ∧
    (4503599627370496 ≤ significand ∨ exponent = -1074)

instance (significand : Nat) (exponent : Int) :
    Decidable (Binary64.Represents significand exponent) :=
  inferInstanceAs (Decidable (_ ∧ _ ∧ _ ∧ _))

/-- Finite numbers of the 64-bit binary format: `significand * 2 ^ exponent`
with a sign. -/
structure Binary64 where
  negative : Bool
  significand : Nat
  exponent : Int
  represents : Binary64.Represents significand exponent
deriving DecidableEq, Repr

namespace Binary64

/-- Zero with a sign. -/
def zero (negative : Bool) : Binary64 := ⟨negative, 0, -1074, by decide⟩

/-- The number without its sign. -/
def magnitude (number : Binary64) : Binary64 :=
  { number with negative := false }

/-- The numerator of the magnitude as a quotient. -/
def numerator (number : Binary64) : Nat :=
  number.significand * Nat.pow 2 number.exponent.toNat

/-- The denominator of the magnitude as a quotient. -/
def denominator (number : Binary64) : Nat :=
  Nat.pow 2 (-number.exponent).toNat

/-- The nearest integer to a quotient; a tie goes to the even one. -/
def roundEven (numerator denominator : Nat) : Nat :=
  let quotient := numerator / denominator
  let twice := 2 * (numerator % denominator)
  if twice < denominator then quotient
  else if denominator < twice then quotient + 1
  else if quotient % 2 = 0 then quotient else quotient + 1

/-- The greatest power of two that is not above a quotient of positive
numbers. -/
def floorLog2 (numerator denominator : Nat) : Int :=
  let guess : Int := Int.ofNat numerator.log2 - Int.ofNat denominator.log2
  if numerator * Nat.pow 2 (-guess).toNat <
    denominator * Nat.pow 2 guess.toNat then
    guess - 1
  else guess

/-- A significand that may have been rounded up to the next power of two. -/
def ofParts? (negative : Bool) (significand : Nat)
    (exponent : Int) : Option Binary64 :=
  if represents : Represents significand exponent then
    some ⟨negative, significand, exponent, represents⟩
  else if represents : Represents (significand / 2) (exponent + 1) then
    some ⟨negative, significand / 2, exponent + 1, represents⟩
  else none

/-- The number nearest to a quotient, with a sign. -/
def ofRatio? (negative : Bool)
    (numerator denominator : Nat) : Option Binary64 :=
  if numerator = 0 || denominator = 0 then some (zero negative)
  else
    let exponent := max (floorLog2 numerator denominator - 52) (-1074)
    let significand :=
      roundEven (numerator * Nat.pow 2 (-exponent).toNat)
        (denominator * Nat.pow 2 exponent.toNat)
    ofParts? negative significand exponent

/-- The weight `2 ^ 52` of the bit of a significand that `toBits` does not
write. -/
def hiddenBit : Nat := 4503599627370496

/-- The 64 bits of a number: sign, biased exponent and fraction. -/
def toBits (number : Binary64) : Nat :=
  (if number.negative then 2048 * hiddenBit else 0) +
    if number.significand < hiddenBit then number.significand
    else (number.exponent + 1075).toNat * hiddenBit +
      (number.significand - hiddenBit)

end Binary64

end ConfigEdit
