import ConfigEdit.Json.Value
import ConfigEdit.Number.Shortest

/-!
# Printing JSON

Values are printed on several lines with two spaces for each level.  Binary
numbers have the fewest digits that read back: positional from `10 ^ -5` up to
below `10 ^ 16`, always with a point, and with a signed exponent outside.
-/

namespace ConfigEdit

/-- A number of JSON. -/
def Number.jsonText : Number → Text
  | .integer value _ => intText value
  | .float value =>
      let magnitude :=
        if value.significand = 0 then ['0', '.', '0']
        else
          let shortest := value.shortest .even
          if -5 ≤ shortest.leadingPower && shortest.leadingPower < 16 then
            shortest.positional ++
              if 0 ≤ shortest.exponent then ['.', '0'] else []
          else shortest.scientific true
      if value.negative then '-' :: magnitude else magnitude

namespace Json

/-- A character of a string. -/
def escapeCharacter (character : Char) : Text :=
  if character = '\x22' then ['\\', '\x22']
  else if character = '\\' then ['\\', '\\']
  else if character = '\x08' then ['\\', 'b']
  else if character = '\x0c' then ['\\', 'f']
  else if character = '\n' then ['\\', 'n']
  else if character = '\r' then ['\\', 'r']
  else if character = '\t' then ['\\', 't']
  else if character.toNat < 0x20 then
    '\\' :: 'u' :: fixedDigits 16 4 character.toNat
  else [character]

/-- A string. -/
def quoted (text : Text) : Text :=
  '\x22' :: text.flatMap escapeCharacter ++ ['\x22']

/-- A new line at a level. -/
def newLine (level : Nat) : Text := '\n' :: List.replicate (2 * level) ' '

mutual

/-- A value at a level. -/
def pretty (level : Nat) : Json → Text
  | null => ['n', 'u', 'l', 'l']
  | boolean true => ['t', 'r', 'u', 'e']
  | boolean false => ['f', 'a', 'l', 's', 'e']
  | number value => value.jsonText
  | string text => quoted text
  | array [] => ['[', ']']
  | array (item :: items) =>
      '[' :: newLine (level + 1) ++ pretty (level + 1) item ++
        prettyItems (level + 1) items ++ newLine level ++ [']']
  | object [] => ['{', '}']
  | object ((key, value) :: entries) =>
      '{' :: newLine (level + 1) ++ quoted key ++ [':', ' '] ++
        pretty (level + 1) value ++
        prettyEntries (level + 1) entries ++ newLine level ++ ['}']

/-- Further items of an array. -/
def prettyItems (level : Nat) : List Json → Text
  | [] => []
  | item :: items =>
      ',' :: newLine level ++ pretty level item ++ prettyItems level items

/-- Further entries of an object. -/
def prettyEntries (level : Nat) : List (Text × Json) → Text
  | [] => []
  | (key, value) :: entries =>
      ',' :: newLine level ++ quoted key ++ [':', ' '] ++ pretty level value ++
        prettyEntries level entries

end

end Json

end ConfigEdit
