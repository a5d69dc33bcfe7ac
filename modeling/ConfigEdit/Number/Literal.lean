import ConfigEdit.Number.Basic
import ConfigEdit.Number.Shortest
import ConfigEdit.Text.Numeral

/-!
# Number literals

How a number is written in a document, and the number a literal stands for.

Integers are written in decimal digits.  Other numbers have the fewest digits
that read back, positional from `10 ^ -6` up to below `10 ^ 21` and with an
exponent outside; both zeros are written `0`.

Literals with a base are signed integers of 64 bits.  Decimal literals are
integers where they can be and binary numbers otherwise.  Literals with the
mark `n`, and those without a finite value, have no number.
-/

namespace ConfigEdit

namespace Number

/-- A number as a literal. -/
def literal : Number → Text
  | .integer value _ => intText value
  | .float value =>
      if value.significand = 0 then ['0']
      else
        let shortest := value.shortest .up
        let magnitude :=
          if -6 ≤ shortest.leadingPower && shortest.leadingPower < 21 then
            shortest.positional
          else shortest.scientific false
        if value.negative then '-' :: magnitude else magnitude

/-- A signed integer of 64 bits in a base, with its sign changed if asked for.
The change of sign is the one of 64 bits. -/
def ofBase? (base : Nat) (negative : Bool) (digits : Text) : Option Number :=
  match intOfText? base digits with
  | none => none
  | some value =>
      if FitsSigned value then
        ofInt? (if negative then Int.bmod (-value) UInt64.size else value)
      else none

/-- The number of a decimal literal: an integer if it can be read as one that
fits, and otherwise a binary number. -/
def ofDecimal? (text : Text) : Option Number :=
  match (intOfText? 10 text).bind ofInt? with
  | some number => some number
  | none =>
      let normal :=
        match text with
        | '-' :: '.' :: rest => '-' :: '0' :: '.' :: rest
        | '.' :: rest => '0' :: '.' :: rest
        | others => others
      ((Decimal.ofText? normal).bind Decimal.toBinary64?).map .float

/-- The number a literal stands for.  Separators are left out first. -/
def ofLiteral? (text : Text) : Option Number :=
  let cleaned : Text := text.filter (· ≠ '_')
  let digits := cleaned.withoutMinus
  let negative := cleaned.head? = some '-'
  if digits.getLast? = some 'n' then none
  else
    match digits with
    | '0' :: mark :: rest =>
        if mark = 'x' || mark = 'X' then ofBase? 16 negative rest
        else if mark = 'o' || mark = 'O' then ofBase? 8 negative rest
        else if mark = 'b' || mark = 'B' then ofBase? 2 negative rest
        else ofDecimal? cleaned
    | _ => ofDecimal? cleaned

end Number

end ConfigEdit
