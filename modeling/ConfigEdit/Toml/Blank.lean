import ConfigEdit.Text.Basic

/-!
# Blanks, comments and line ends of TOML

Blanks are spaces and tabs.  A comment runs up to the end of its line and holds
no control characters but tabs.  A statement has the rest of its line to
itself, while inside brackets line breaks and comments count as blanks.
-/

namespace ConfigEdit.Toml

/-- Blanks within a line. -/
def isBlank (character : Char) : Bool := character = ' ' || character = '\t'

/-- Characters that comments and strings can hold as they are. -/
def isPlain (character : Char) : Bool :=
  character = '\t' || (0x20 ≤ character.toNat && character.toNat ≠ 0x7f)

/-- A text without the blanks it begins with. -/
def skipBlanks (text : Text) : Text := text.dropWhile isBlank

/-- What follows the line break that a text begins with. -/
def skipNewline? : Text → Option Text
  | '\n' :: rest => some rest
  | '\r' :: '\n' :: rest => some rest
  | _ => none

/-- A text without the comment it begins with. -/
def skipComment : Text → Text
  | '#' :: rest => rest.dropWhile isPlain
  | text => text

/-- The next line, if nothing but blanks and a comment is left of this one. -/
def skipLine? (text : Text) : Option Text :=
  match skipComment (skipBlanks text) with
  | [] => some []
  | rest => skipNewline? rest

/-- A text without the blanks and line breaks it begins with. -/
def skipBlankLines : Text → Text
  | [] => []
  | '\r' :: '\n' :: rest => skipBlankLines rest
  | character :: rest =>
      if isBlank character || character = '\n' then skipBlankLines rest
      else character :: rest

/-- A text without the blanks, line breaks and comments it begins with.
`inComment` says whether the text begins inside a comment. -/
def skipGap (inComment : Bool) : Text → Text
  | [] => []
  | '\n' :: rest => skipGap false rest
  | '\r' :: '\n' :: rest => skipGap false rest
  | character :: rest =>
      if inComment then
        if isPlain character then skipGap true rest else character :: rest
      else if isBlank character then skipGap false rest
      else if character = '#' then skipGap true rest
      else character :: rest

end ConfigEdit.Toml
