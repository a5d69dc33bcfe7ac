import ConfigEdit.Text.Basic

/-!
# Identifiers

An identifier in a document may hold any character outside ASCII
(`isIdentifierStart`, `isIdentifierPart`).  A property key is written without
quotes only when it is an identifier of ASCII characters (`isIdentifier`).
-/

namespace ConfigEdit

/-- Characters that may begin an identifier of a document. -/
def isIdentifierStart (character : Char) : Bool :=
  character.isAlpha || character = '_' || character = '$' ||
    0x80 ≤ character.toNat

/-- Characters that may continue an identifier of a document. -/
def isIdentifierPart (character : Char) : Bool :=
  isIdentifierStart character || character.isDigit

/-- The characters of a plain key: ASCII letters, `_` and `$`. -/
def isPlainStart (character : Char) : Bool :=
  character.isAlpha || character = '_' || character = '$'

namespace Text

/-- Texts that can be written as a property key without quotes. -/
def isIdentifier : Text → Bool
  | [] => false
  | first :: rest =>
      isPlainStart first &&
        rest.all fun character => isPlainStart character || character.isDigit

/-- Identifiers joined by points, such as `a.b.c`. -/
def isIdentifierPath (text : Text) : Bool :=
  !text.isEmpty && (pieces '.' text).all isIdentifier

end Text

end ConfigEdit
