import ConfigEdit.Json.Value
import ConfigEdit.Number.Decimal
import ConfigEdit.Text.Numeral

/-!
# Numbers and truth values of TOML

Integers have 64 bits with a sign.  Binary numbers round to the nearest one; a
positive number too large for them is malformed, while a negative one becomes
infinite.  JSON has no infinite numbers, so these are null.
-/

namespace ConfigEdit.Toml

/-- What follows further digits of a number.  Between two digits there may be
a separator `_`. -/
def skipMoreDigits (isDigit : Char → Bool) : Text → Text
  | '_' :: digit :: rest =>
      if isDigit digit then skipMoreDigits isDigit rest
      else '_' :: digit :: rest
  | digit :: rest =>
      if isDigit digit then skipMoreDigits isDigit rest else digit :: rest
  | [] => []

/-- What follows one or more digits. -/
def skipDigits? (isDigit : Char → Bool) : Text → Option Text
  | digit :: rest =>
      if isDigit digit then some (skipMoreDigits isDigit rest) else none
  | [] => none

/-- A text without the sign it begins with. -/
def withoutSign : Text → Text
  | '+' :: rest => rest
  | '-' :: rest => rest
  | text => text

/-- What follows a decimal integer: a sign, and `0` or digits that do not begin
with `0`. -/
def skipInteger? (text : Text) : Option Text :=
  match withoutSign text with
  | '0' :: rest => some rest
  | digits => skipDigits? Char.isDigit digits

/-- What follows an exponent. -/
def skipExponent? : Text → Option Text
  | mark :: rest =>
      if mark = 'e' || mark = 'E' then
        skipDigits? Char.isDigit (withoutSign rest) else none
  | [] => none

/-- What follows the fraction or exponent of a binary number, or both. -/
def skipFractionOrExponent? (text : Text) : Option Text :=
  match text with
  | '.' :: rest =>
      (skipDigits? Char.isDigit rest).map
        fun rest => (skipExponent? rest).getD rest
  | _ => skipExponent? text

/-- The digits of a number, given the texts before and behind it, without
separators. -/
def digitsBetween (text rest : Text) : Text := (text.upTo rest).filter (· ≠ '_')

/-- An integer of 64 bits with a sign. -/
def integerOf? (value : Int) : Option Json :=
  if FitsSigned value then (Number.ofInt? value).map .number else none

/-- The binary number of some digits. -/
def floatOf? (digits : Text) : Option Json :=
  match Decimal.ofText? digits with
  | none => none
  | some decimal =>
      match decimal.toBinary64? with
      | some value => some (.number (.float value))
      | none => if decimal.negative then some .null else none

/-- An infinite number or no number, and what follows it. -/
def readSpecial? (text : Text) : Option (Json × Text) :=
  match withoutSign text with
  | 'i' :: 'n' :: 'f' :: rest => some (.null, rest)
  | 'n' :: 'a' :: 'n' :: rest => some (.null, rest)
  | _ => none

/-- An integer in a base behind its mark, and what follows it. -/
def readBased? (base : Nat) (isDigit : Char → Bool)
    (text : Text) : Option (Json × Text) := do
  let rest ← skipDigits? isDigit text
  let value ← natOfDigits? base (digitsBetween text rest)
  return (← integerOf? value, rest)

/-- A number, and what follows it. -/
def readNumber? (text : Text) : Option (Json × Text) :=
  match text with
  | '0' :: 'x' :: digits => readBased? 16 isHexDigit digits
  | '0' :: 'o' :: digits => readBased? 8 isOctalDigit digits
  | '0' :: 'b' :: digits => readBased? 2 isBinaryDigit digits
  | _ =>
      match skipInteger? text with
      | none => readSpecial? text
      | some afterInteger =>
          match skipFractionOrExponent? afterInteger with
          | some rest => (floatOf? (digitsBetween text rest)).map
              fun value => (value, rest)
          | none => do
              let value ← intOfText? 10 (digitsBetween text afterInteger)
              return (← integerOf? value, afterInteger)

/-- A number or truth value, and what follows it. -/
def readScalar? (text : Text) : Option (Json × Text) :=
  match text with
  | 't' :: 'r' :: 'u' :: 'e' :: rest => some (.boolean true, rest)
  | 'f' :: 'a' :: 'l' :: 's' :: 'e' :: rest => some (.boolean false, rest)
  | _ => readNumber? text

end ConfigEdit.Toml
