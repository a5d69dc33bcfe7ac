import ConfigEdit.Json.Number
import ConfigEdit.Json.Value
import ConfigEdit.Text.Quoted

/-!
# Reading JSON

Strings must not hold raw control characters or lone surrogates, and numbers
must fit.  Arrays and objects nest at most 127 deep.  A key that comes twice
keeps its first place and its last value.
-/

namespace ConfigEdit.Json

/-- Blanks between the tokens of JSON. -/
def isGap (character : Char) : Bool :=
  character = ' ' || character = '\t' || character = '\n' || character = '\r'

/-- A text without the blanks it begins with. -/
def skipGap (text : Text) : Text := text.dropWhile isGap

/-- Four hexadecimal digits and what follows them. -/
def readHex4? (text : Text) : Option (Nat × Text) :=
  let digits := text.take 4
  if digits.length = 4 then
    (natOfDigits? 16 digits).map fun code => (code, text.drop 4)
  else none

/-- The character of an escape `u` and what follows it. -/
def readUnicode? (text : Text) : Option (Char × Text) :=
  match readHex4? text with
  | none => none
  | some (code, rest) =>
      if Text.isLowSurrogate code then none
      else if Text.isHighSurrogate code then
        match rest with
        | '\\' :: 'u' :: second =>
            match readHex4? second with
            | some (low, after) =>
                if Text.isLowSurrogate low then
                  some (characterOrReplacement (Text.surrogatePair code low),
                    after)
                else none
            | none => none
        | _ => none
      else some (characterOrReplacement code, rest)

/-- The character of an escape and what follows it. -/
def readEscape? : Text → Option (Char × Text)
  | '\x22' :: rest => some ('\x22', rest)
  | '\\' :: rest => some ('\\', rest)
  | '/' :: rest => some ('/', rest)
  | 'b' :: rest => some ('\x08', rest)
  | 'f' :: rest => some ('\x0c', rest)
  | 'n' :: rest => some ('\n', rest)
  | 'r' :: rest => some ('\r', rest)
  | 't' :: rest => some ('\t', rest)
  | 'u' :: rest => readUnicode? rest
  | _ => none

/-- The characters of a string whose opening mark has been read, and what
follows its closing mark.  `limit` bounds the number of characters, and `read`
holds those that have been read, the last one first. -/
def readStringBody? : (limit : Nat) → (read text : Text) → Option (Text × Text)
  | 0, _, _ => none
  | _ + 1, _, [] => none
  | limit + 1, read, character :: rest =>
      if character = '\x22' then some (read.reverse, rest)
      else if character = '\\' then
        match readEscape? rest with
        | some (escaped, after) => readStringBody? limit (escaped :: read) after
        | none => none
      else if character.toNat < 0x20 then none
      else readStringBody? limit (character :: read) rest

/-- A string whose opening mark has been read, and what follows it. -/
def readString? (text : Text) : Option (Text × Text) :=
  readStringBody? (text.length + 1) [] text

/-- One or more digits and what follows them. -/
def skipDigits? (text : Text) : Option Text :=
  match text with
  | first :: rest =>
      if first.isDigit then some (rest.dropWhile Char.isDigit) else none
  | [] => none

/-- What follows the whole part of a number: `0`, or digits that do not begin
with `0`. -/
def skipWhole? : Text → Option Text
  | '0' :: first :: rest => if first.isDigit then none else some (first :: rest)
  | text => skipDigits? text

/-- What follows the fraction of a number, if it has one. -/
def skipFraction? : Text → Option Text
  | '.' :: rest => skipDigits? rest
  | text => some text

/-- What follows the exponent of a number, if it has one. -/
def skipExponent? : Text → Option Text
  | [] => some []
  | mark :: rest =>
      if mark = 'e' || mark = 'E' then
        match rest with
        | '+' :: digits => skipDigits? digits
        | '-' :: digits => skipDigits? digits
        | digits => skipDigits? digits
      else some (mark :: rest)

/-- A number and what follows it. -/
def readNumber? (text : Text) : Option (Number × Text) := do
  let digits := text.withoutMinus
  let fraction ← skipWhole? digits
  let exponent ← skipFraction? fraction
  let rest ← skipExponent? exponent
  let value ← numberOfParts? (text.head? = some '-') (digits.upTo fraction)
    (fraction.upTo exponent) (exponent.upTo rest)
  return (value, rest)

/-- What follows a word. -/
def skipWord? : (word text : Text) → Option Text
  | [], text => some text
  | _ :: _, [] => none
  | expected :: word, character :: text =>
      if expected = character then skipWord? word text else none

/-- The items of an array behind its bracket or a comma, and what follows the
array.  `limit` bounds the number of items. -/
def readItems? (read : Text → Option (Json × Text)) :
    (limit : Nat) → Text → Option (List Json × Text)
  | 0, _ => none
  | limit + 1, text => do
      let (item, rest) ← read text
      match skipGap rest with
      | ',' :: after =>
          let (items, rest) ← readItems? read limit after
          return (item :: items, rest)
      | ']' :: after => return ([item], after)
      | _ => none

/-- The entries of an object behind its brace or a comma, and what follows the
object.  `limit` bounds the number of entries. -/
def readEntries? (read : Text → Option (Json × Text)) :
    (limit : Nat) → Text → Option (List (Text × Json) × Text)
  | 0, _ => none
  | limit + 1, text =>
      match skipGap text with
      | '\x22' :: quoted => do
          let (key, rest) ← readString? quoted
          match skipGap rest with
          | ':' :: rest =>
              let (value, rest) ← read rest
              match skipGap rest with
              | ',' :: after =>
                  let (entries, rest) ← readEntries? read limit after
                  return ((key, value) :: entries, rest)
              | '}' :: after => return ([(key, value)], after)
              | _ => none
          | _ => none
      | _ => none

/-- A value and what follows it.  Arrays and objects nest at most `depth`
deep. -/
def readValue? : (depth : Nat) → Text → Option (Json × Text)
  | depth, text =>
      match skipGap text with
      | [] => none
      | 'n' :: rest => (skipWord? ['u', 'l', 'l'] rest).map ((null, ·))
      | 't' :: rest => (skipWord? ['r', 'u', 'e'] rest).map ((boolean true, ·))
      | 'f' :: rest =>
          (skipWord? ['a', 'l', 's', 'e'] rest).map ((boolean false, ·))
      | '\x22' :: rest =>
          (readString? rest).map
            fun (characters, rest) => (string characters, rest)
      | '[' :: rest =>
          match depth with
          | 0 => none
          | depth + 1 =>
              match skipGap rest with
              | ']' :: after => some (array [], after)
              | items =>
                  (readItems? (readValue? depth) (items.length + 1) items).map
                    fun (items, rest) => (array items, rest)
      | '{' :: rest =>
          match depth with
          | 0 => none
          | depth + 1 =>
              match skipGap rest with
              | '}' :: after => some (object [], after)
              | entries =>
                  (readEntries? (readValue? depth)
                    (entries.length + 1) entries).map fun (entries, rest) =>
                    (object (Entries.ofList entries), rest)
      | first :: rest =>
          if first = '-' || first.isDigit then
            (readNumber? (first :: rest)).map
              fun (value, rest) => (number value, rest)
          else none

/-- How deep arrays and objects may nest. -/
def maxDepth : Nat := 127

/-- The value that a text is. -/
def ofText? (text : Text) : Option Json :=
  match readValue? maxDepth text with
  | some (value, rest) => if (skipGap rest).isEmpty then some value else none
  | none => none

end ConfigEdit.Json
