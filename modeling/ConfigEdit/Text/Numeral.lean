import ConfigEdit.Text.Basic

/-!
# Numerals

The shapes of number literals: hexadecimal, octal and binary integers, and
decimal numbers with an optional fraction and exponent, all with separators
`_`, an optional minus sign in front and an optional `n` behind.  This module
says which texts are numerals; their values are in `ConfigEdit.Number`.
-/

namespace ConfigEdit

/-- Hexadecimal digits. -/
def isHexDigit (character : Char) : Bool :=
  character.isDigit || ('a' ≤ character && character ≤ 'f') ||
    ('A' ≤ character && character ≤ 'F')

/-- Octal digits. -/
def isOctalDigit (character : Char) : Bool :=
  '0' ≤ character && character ≤ '7'

/-- Binary digits. -/
def isBinaryDigit (character : Char) : Bool :=
  character = '0' || character = '1'

namespace Text

/-- A run of one or more digits and separators. -/
def isDigitRun (isDigit : Char → Bool) (text : Text) : Bool :=
  !text.isEmpty &&
    text.all fun character => isDigit character || character = '_'

/-- A text without the decimal digits and separators it begins with. -/
def dropDigits (text : Text) : Text :=
  text.dropWhile fun character => character.isDigit || character = '_'

/-- What follows the digits of a decimal number and its fraction.  A number
begins with a digit, or with a point and a digit. -/
def afterFraction? : Text → Option Text
  | [] => none
  | [character] => if character.isDigit then some [] else none
  | first :: second :: rest =>
      if first.isDigit then
        match dropDigits (second :: rest) with
        | '.' :: fraction => some (dropDigits fraction)
        | others => some others
      else if first = '.' && second.isDigit then some (dropDigits rest)
      else none

/-- An exponent, or nothing. -/
def isExponent : Text → Bool
  | [] => true
  | mark :: rest =>
      (mark = 'e' || mark = 'E') &&
        match rest with
        | [] => false
        | sign :: digits =>
            if sign = '+' || sign = '-' then
              !digits.isEmpty && digits.all Char.isDigit
            else (sign :: digits).all Char.isDigit

/-- Decimal numbers: digits, an optional fraction and an optional exponent. -/
def isDecimal (text : Text) : Bool :=
  match afterFraction? text with
  | some rest => isExponent rest
  | none => false

/-- A text without the sign `-` in front. -/
def withoutMinus : Text → Text
  | '-' :: rest => rest
  | text => text

theorem withoutMinus_of_ne
    {first : Char} (notMinus : first ≠ '-') (rest : Text) :
    withoutMinus (first :: rest) = first :: rest := by
  rw [withoutMinus]
  intro others same
  exact notMinus (List.cons.inj same).1

/-- A text without the mark `n` behind. -/
def withoutBigMark (text : Text) : Text :=
  if text.getLast? = some 'n' then text.dropLast else text

/-- Number literals, with an optional minus sign. -/
def isNumeral (text : Text) : Bool :=
  match withoutBigMark (withoutMinus text) with
  | '0' :: mark :: digits =>
      if mark = 'x' || mark = 'X' then isDigitRun isHexDigit digits
      else if mark = 'o' || mark = 'O' then isDigitRun isOctalDigit digits
      else if mark = 'b' || mark = 'B' then isDigitRun isBinaryDigit digits
      else isDecimal ('0' :: mark :: digits)
  | decimal => isDecimal decimal

end Text

end ConfigEdit
