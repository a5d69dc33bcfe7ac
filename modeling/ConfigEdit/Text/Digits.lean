import ConfigEdit.Text.Numeral

/-!
# Digits

Natural numbers and integers as digits in a base between 2 and 36.  Writing
uses lower-case letters.  Reading takes letters of either case and refuses a
text without digits; `natOfText?` also takes a sign `+`, and `intOfText?` a
sign of either kind.
-/

namespace ConfigEdit

/-- The value of a digit in a base. -/
def digitValue? (base : Nat) (character : Char) : Option Nat :=
  let value :=
    if character.isDigit then character.toNat - '0'.toNat
    else if 'a' ≤ character && character ≤ 'z' then
      character.toNat - 'a'.toNat + 10
    else if 'A' ≤ character && character ≤ 'Z' then
      character.toNat - 'A'.toNat + 10
    else base
  if value < base then some value else none

/-- The character of a digit below 36. -/
def digitCharacter (value : Nat) : Char :=
  if value < 10 then Char.ofNat ('0'.toNat + value)
  else Char.ofNat ('a'.toNat + (value - 10))

/-- The value of a run of digits, the first of which weighs most, behind the
digits of `high`. -/
def foldDigits? (base : Nat) (high : Nat) : Text → Option Nat
  | [] => some high
  | character :: rest =>
      match digitValue? base character with
      | some value => foldDigits? base (high * base + value) rest
      | none => none

/-- The value of one or more digits. -/
def natOfDigits? (base : Nat) : Text → Option Nat
  | [] => none
  | digits => foldDigits? base 0 digits

/-- The value of one or more digits with an optional sign `+`. -/
def natOfText? (base : Nat) : Text → Option Nat
  | '+' :: digits => natOfDigits? base digits
  | digits => natOfDigits? base digits

/-- The value of one or more digits with an optional sign. -/
def intOfText? (base : Nat) : Text → Option Int
  | '+' :: digits => (natOfDigits? base digits).map Int.ofNat
  | '-' :: digits =>
      (natOfDigits? base digits).map fun value => -Int.ofNat value
  | digits => (natOfDigits? base digits).map Int.ofNat

/-- The lowest `width` digits of a number. -/
def fixedDigits (base : Nat) : (width : Nat) → Nat → Text
  | 0, _ => []
  | width + 1, value =>
      fixedDigits base width (value / base) ++ [digitCharacter (value % base)]

/-- How many digits a number has, at least one. -/
def digitCount (base value : Nat) : Nat :=
  go value 1 value
where
  go : (fuel count rest : Nat) → Nat
    | 0, count, _ => count
    | fuel + 1, count, rest =>
        if rest < base then count else go fuel (count + 1) (rest / base)

/-- A number in decimal digits. -/
def natText (value : Nat) : Text :=
  fixedDigits 10 (digitCount 10 value) value

/-- An integer in decimal digits. -/
def intText : Int → Text
  | .ofNat value => natText value
  | .negSucc value => '-' :: natText (value + 1)

end ConfigEdit
