import ConfigEdit.Number.Decimal

/-!
# Shortest decimal digits

A binary number is written with the fewest decimal digits that read back as
the same number; of those, with the ones nearest to it.  For each number of
digits only the two neighbours of the number on the grid with so many digits
can read back, and the first grid on which one does is the answer.  Two
neighbours at the same distance are told apart by a `Tie`.
-/

namespace ConfigEdit

/-- Which of two decimals at the same distance is taken. -/
inductive Tie where
  | up
  | even
deriving DecidableEq, Repr

/-- Decimal digits with a power of ten; zero has none. -/
structure ShortestDigits where
  digits : Text
  exponent : Int
deriving DecidableEq, Repr

namespace Binary64

/-- The least power of ten above the quotient of positive numbers. -/
def ceilLog10 (numerator denominator : Nat) : Int :=
  if denominator ≤ numerator then
    Int.ofNat (digitCount 10 (numerator / denominator))
  else below 400 0 numerator
where
  /-- Multiplies the numerator by ten until it is not below the denominator. -/
  below : (fuel : Nat) → Int → Nat → Int
    | 0, power, _ => power
    | fuel + 1, power, scaled =>
        if denominator ≤ scaled * 10 then power
        else below fuel (power - 1) (scaled * 10)

/-- A decimal reads back as the given magnitude. -/
def readsBack (number : Binary64) (coefficient : Nat) (exponent : Int) : Bool :=
  Decimal.toBinary64? ⟨false, coefficient, exponent⟩ = some number.magnitude

/-- The decimal with a power of ten as its last place that reads back, if one
of the two neighbours does. -/
def onGrid? (tie : Tie) (number : Binary64) (exponent : Int) : Option Decimal :=
  let scaled := number.numerator * Nat.pow 10 (-exponent).toNat
  let unit := number.denominator * Nat.pow 10 exponent.toNat
  let lower := scaled / unit
  let twice := 2 * (scaled % unit)
  let upper :=
    unit < twice || (unit = twice && (tie = .up || lower % 2 = 1))
  match number.readsBack lower exponent,
    number.readsBack (lower + 1) exponent with
  | true, true => some ⟨false, if upper then lower + 1 else lower, exponent⟩
  | true, false => some ⟨false, lower, exponent⟩
  | false, true => some ⟨false, lower + 1, exponent⟩
  | false, false => none

/-- All the digits of a number. -/
def exactDecimal (number : Binary64) : Decimal :=
  ⟨false, number.numerator * Nat.pow 5 (-number.exponent).toNat,
    min number.exponent 0⟩

/-- The decimal with the fewest digits that reads back as the magnitude. -/
def shortestDecimal (tie : Tie) (number : Binary64) : Decimal :=
  let power := ceilLog10 number.numerator number.denominator
  ((List.range 17).findSome? fun count =>
    number.onGrid? tie (power - Int.ofNat (count + 1))).getD number.exactDecimal

end Binary64

/-- The digits of a decimal without the zeros at the end. -/
def Decimal.digits (decimal : Decimal) : ShortestDigits :=
  let text := natText decimal.coefficient
  let kept := (text.reverse.dropWhile (· = '0')).reverse
  ⟨kept, decimal.exponent + Int.ofNat (text.length - kept.length)⟩

/-- The fewest digits that read back as the magnitude of a number. -/
def Binary64.shortest (tie : Tie) (number : Binary64) : ShortestDigits :=
  (number.shortestDecimal tie).digits

namespace ShortestDigits

/-- The power of ten of the first digit. -/
def leadingPower (shortest : ShortestDigits) : Int :=
  Int.ofNat shortest.digits.length + shortest.exponent - 1

/-- The digits with a point at its place and zeros where they are needed. -/
def positional (shortest : ShortestDigits) : Text :=
  let power := shortest.leadingPower
  if 0 ≤ shortest.exponent then
    shortest.digits ++ List.replicate shortest.exponent.toNat '0'
  else if 0 ≤ power then
    let whole := power.toNat + 1
    shortest.digits.take whole ++ '.' :: shortest.digits.drop whole
  else '0' :: '.' :: List.replicate (-power - 1).toNat '0' ++ shortest.digits

/-- One digit, the other digits behind a point, and the power of ten.  `signed`
gives a sign also to powers that are not negative. -/
def scientific (signed : Bool) (shortest : ShortestDigits) : Text :=
  let mantissa :=
    match shortest.digits with
    | first :: second :: others => first :: '.' :: second :: others
    | digits => digits
  let power := shortest.leadingPower
  let sign := if signed && 0 ≤ power then ['+'] else []
  mantissa ++ 'e' :: sign ++ intText power

end ShortestDigits

end ConfigEdit
