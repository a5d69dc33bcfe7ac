import ConfigEdit.Text.Basic

/-!
# Faults

A scan that fails names a cause and a place.  While the text is read a place
is what is left of the text, so a `Fault` does not depend on what came before;
`Fault.located` turns it into a `SyntaxError` with offset, line and column in
the whole text.
-/

namespace ConfigEdit

/-- What can be wrong with a text. -/
inductive Cause where
  | unterminatedComment
  | expectedString
  | unterminatedString
  | unterminatedTemplate
  | expectedBracket
  | mismatched (expected found : Char)
  | unclosed (opener : Char)
  | emptyArgument
  | unexpected (found : Char)
  | expectedExpression
  | trailingInput
  | unmatched (closer : Char)
  | expectedExport
  | unclosedDocument
  | unclosedCall
  | expectedArgumentEnd
  | unclosedObject
  | expectedMemberEnd
  | expectedColon
  | expectedMember
deriving DecidableEq, Repr

/-- A character between apostrophes. -/
private def Cause.shown (character : Char) : String :=
  "'" ++ character.toString ++ "'"

/-- The cause in words. -/
def Cause.message : Cause → String
  | .unterminatedComment => "unterminated block comment"
  | .expectedString => "expected string literal"
  | .unterminatedString => "unterminated string literal"
  | .unterminatedTemplate => "unterminated template literal"
  | .expectedBracket => "expected opening bracket"
  | .mismatched expected found =>
      "expected " ++ Cause.shown expected ++ " but found " ++ Cause.shown found
  | .unclosed opener => "unclosed " ++ Cause.shown opener
  | .emptyArgument => "empty argument"
  | .unexpected found => "unexpected " ++ Cause.shown found
  | .expectedExpression => "expected expression"
  | .trailingInput => "unexpected input after expression"
  | .unmatched closer => "unmatched " ++ Cause.shown closer
  | .expectedExport => "expected expression after 'export default'"
  | .unclosedDocument => "unexpected end of input: unclosed bracket"
  | .unclosedCall => "unclosed '(' in call expression"
  | .expectedArgumentEnd => "expected ',' or ')' in argument list"
  | .unclosedObject => "unclosed '\x7b' in object literal"
  | .expectedMemberEnd => "expected ',' or '\x7d' in object literal"
  | .expectedColon => "expected ':' after property key"
  | .expectedMember => "expected object member"

/-- A failed scan: the cause, the place it is reported at, and the place where
reading stopped. -/
structure Fault where
  cause : Cause
  site : Text
  stop : Text
deriving DecidableEq, Repr

/-- A fault that is reported where reading stopped. -/
def Fault.here (cause : Cause) (place : Text) : Fault := ⟨cause, place, place⟩

/-- A cause with the byte offset it is reported at, and the position of that
offset. -/
structure SyntaxError where
  cause : Cause
  offset : Nat
  position : Position
deriving DecidableEq, Repr

/-- An error at a byte offset of a text, or at the end if the offset lies
behind it. -/
def SyntaxError.at (source : Text) (offset : Nat)
    (cause : Cause) : SyntaxError :=
  let offset := min offset source.utf8Size
  { cause, offset, position := Position.ofOffset source offset }

/-- A fault in a text as an error with its position. -/
def Fault.located (source : Text) (fault : Fault) : SyntaxError :=
  SyntaxError.at source (source.utf8Size - fault.site.utf8Size) fault.cause

/-- The error as it is shown to users. -/
def SyntaxError.message (error : SyntaxError) : String :=
  "syntax error at line " ++ toString error.position.line ++ ", column " ++
    toString error.position.column ++ ": " ++ error.cause.message

end ConfigEdit
