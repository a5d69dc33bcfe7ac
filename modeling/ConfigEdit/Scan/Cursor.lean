import ConfigEdit.Scan.Expression
import ConfigEdit.Scan.Identifier

/-!
# Cursors

A cursor is a byte offset in a text.  Its operations are the scans of this
library, started at that offset; a scan that fails leaves the cursor where it
stopped.  An offset may lie inside a character or past the end.  The bytes
that are left of a character count as ordinary text: they are stepped over by
`skipExpression` and `skipTemplate` and begin nothing else.
-/

namespace ConfigEdit

/-- The bytes of a text in UTF-8. -/
def Text.utf8Bytes (text : Text) : List UInt8 :=
  text.flatMap String.utf8EncodeChar

/-- A byte offset in a text. -/
structure Cursor where
  text : Text
  offset : Nat
deriving DecidableEq, Repr

namespace Cursor

/-- The cursor at the beginning of a text. -/
def ofText (text : Text) : Cursor := ⟨text, 0⟩

/-- The cursor has reached the end of the text. -/
def atEnd (cursor : Cursor) : Bool := cursor.text.utf8Size ≤ cursor.offset

/-- The byte some way ahead of the cursor. -/
def peek (cursor : Cursor) (ahead : Nat) : Option UInt8 :=
  cursor.text.utf8Bytes[cursor.offset + ahead]?

/-- The cursor one byte on, unless the text is at its end. -/
def bump (cursor : Cursor) : Cursor :=
  if cursor.atEnd then cursor else { cursor with offset := cursor.offset + 1 }

/-- The cursor at an offset, or at the end if the offset lies behind it. -/
def moveTo (cursor : Cursor) (offset : Nat) : Cursor :=
  { cursor with offset := min offset cursor.text.utf8Size }

/-- What is left of the text. -/
def rest (cursor : Cursor) : Text := (cursor.text.seek cursor.offset).1

/-- How far the cursor lies inside a character or past the end. -/
def inside (cursor : Cursor) : Nat := (cursor.text.seek cursor.offset).2

/-- The offset at which a part of the text begins that reaches to its end. -/
def offsetOf (cursor : Cursor) (place : Text) : Nat :=
  cursor.text.utf8Size - place.utf8Size

/-- The cursor after a scan, with its fault if it failed. -/
def after (cursor : Cursor) : Except Fault Text → Cursor × Option SyntaxError
  | .ok place => ({ cursor with offset := cursor.offsetOf place }, none)
  | .error fault =>
      ({ cursor with offset := cursor.offsetOf fault.stop },
        some (fault.located cursor.text))

/-- A fault at the cursor, which stays there. -/
def refuse (cursor : Cursor) (cause : Cause) : Cursor × Option SyntaxError :=
  (cursor, some (SyntaxError.at cursor.text cursor.offset cause))

/-- Steps over blanks and comments. -/
def skipTrivia (cursor : Cursor) : Cursor × Option SyntaxError :=
  if cursor.inside = 0 then cursor.after (ConfigEdit.skipTrivia cursor.rest)
  else (cursor, none)

/-- Steps over a string literal. -/
def skipString (cursor : Cursor) : Cursor × Option SyntaxError :=
  if cursor.inside = 0 then cursor.after (ConfigEdit.skipString cursor.rest)
  else cursor.refuse .expectedString

/-- Steps over a bracketed group. -/
def skipGroup (cursor : Cursor) : Cursor × Option SyntaxError :=
  if cursor.inside = 0 then cursor.after (ConfigEdit.skipGroup cursor.rest)
  else cursor.refuse .expectedBracket

/-- Steps over a template literal.  The first byte is taken for the opening
mark whatever it is, even past the end of the text. -/
def skipTemplate (cursor : Cursor) : Cursor × Option SyntaxError :=
  match cursor.rest with
  | [] =>
      ({ cursor with offset := cursor.offset + 1 },
        some (SyntaxError.at cursor.text cursor.offset .unterminatedTemplate))
  | opener :: rest =>
      match cursor.after (ConfigEdit.skipTemplate (opener :: rest)) with
      | (moved, none) => (moved, none)
      | (moved, some error) =>
          if error.offset = cursor.offsetOf (opener :: rest) then
            (moved, some (SyntaxError.at cursor.text cursor.offset error.cause))
          else (moved, some error)

/-- Steps over an expression and the trivia behind it.  The answer is the
offset at which the expression ends. -/
def skipExpression (cursor : Cursor) : Cursor × Except SyntaxError Nat :=
  let rest :=
    if cursor.inside = 0 then cursor.rest else cursor.rest.tail
  match ConfigEdit.skipExpression rest with
  | .error fault =>
      ({ cursor with offset := cursor.offsetOf fault.stop },
        .error (fault.located cursor.text))
  | .ok finish =>
      if cursor.atEnd then (cursor, .ok cursor.offset)
      else
        ((cursor.after (ConfigEdit.skipTrivia finish.1)).1,
          .ok (cursor.offsetOf finish.1))

/-- Steps over an identifier, if one begins at the cursor. -/
def scanIdentifier (cursor : Cursor) : Cursor × Option Text :=
  if cursor.inside = 0 then
    match scanIdentifier? cursor.rest with
    | some (word, rest) =>
        ({ cursor with offset := cursor.offsetOf rest }, some word)
    | none => (cursor, none)
  else (cursor, none)

end Cursor

end ConfigEdit
