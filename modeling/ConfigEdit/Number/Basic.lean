import ConfigEdit.Number.Binary64

/-!
# Numbers

The numbers of values: integers of 64 bits, with or without a sign, and finite
binary numbers.  An integer and a binary number are different numbers even if
they have the same value.
-/

namespace ConfigEdit

/-- Integers that 64 bits can hold with a sign: from `-2 ^ 63` to below
`2 ^ 63`. -/
def FitsSigned (value : Int) : Prop :=
  -9223372036854775808 ≤ value ∧ value < 9223372036854775808

instance (value : Int) : Decidable (FitsSigned value) :=
  inferInstanceAs (Decidable (_ ∧ _))

/-- Integers that 64 bits can hold, with or without a sign: from `-2 ^ 63` to
below `2 ^ 64`. -/
def FitsInteger (value : Int) : Prop :=
  -9223372036854775808 ≤ value ∧ value < 18446744073709551616

instance (value : Int) : Decidable (FitsInteger value) :=
  inferInstanceAs (Decidable (_ ∧ _))

/-- Numbers of values. -/
inductive Number where
  | integer (value : Int) (fits : FitsInteger value)
  | float (value : Binary64)
deriving DecidableEq, Repr

namespace Number

/-- An integer as a number, if it fits. -/
def ofInt? (value : Int) : Option Number :=
  if fits : FitsInteger value then some (.integer value fits) else none

/-- The value of an integer of 64 bits without a sign. -/
def toNat? : Number → Option Nat
  | .integer value _ => if 0 ≤ value then some value.toNat else none
  | .float _ => none

end Number

end ConfigEdit
