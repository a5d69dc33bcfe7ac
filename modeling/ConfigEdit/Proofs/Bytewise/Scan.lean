import ConfigEdit.Proofs.Bytewise.Walk
import ConfigEdit.Scan.Arguments

/-!
# The scanner over bytes

The scans of this library once more, as walks over the bytes of the text: each
keeps an offset and moves it by one byte, or by two behind a backslash, and a
loop is a loop.  Where a scan returns the end of an expression, its walk also
returns the cursor, which stands behind the trivia that follows.
-/

namespace ConfigEdit.Walk

/-- The text whose bytes a walk reads; a loop goes on over the same tape. -/
abbrev Tape := Text

namespace Tape

/-- Steps over blanks and comments. -/
def trivia (text : Tape) (offset : Nat) : Walk Nat :=
  match peek text offset with
  | none => return offset
  | some byte =>
      if isGap byte then do
        let next ← moveTo text (offset + 1)
        text |>.trivia next
      else if byte = '/' && peek text (offset + 1) = some '/' then do
        let rest ← sliceFrom text offset
        match Text.find? ['\n'] rest with
        | some length =>
            let next ← moveTo text (offset + length)
            text |>.trivia next
        | none =>
            let next ← moveTo text text.utf8Size
            text |>.trivia next
      else if byte = '/' && peek text (offset + 1) = some '*' then do
        let rest ← sliceFrom text (offset + 2)
        match Text.find? ['*', '/'] rest with
        | some length =>
            let next ← moveTo text (offset + (length + 4))
            text |>.trivia next
        | none => refuse text offset .unterminatedComment
      else return offset
partial_fixpoint

/-- Steps over the inside of a string literal that begins at `opener`. -/
def stringBody (text : Tape) (opener : Nat) (mark : Char)
    (offset : Nat) : Walk Nat :=
  match peek text offset with
  | none => refuse text opener .unterminatedString
  | some byte =>
      if byte = '\n' then refuse text opener .unterminatedString
      else if byte = '\\' then do
        let next ← moveTo text (clamp text (offset + 2))
        text |>.stringBody opener mark next
      else if byte = mark then moveTo text (offset + 1)
      else do
        let next ← moveTo text (offset + 1)
        text |>.stringBody opener mark next
partial_fixpoint

/-- Steps over a string literal. -/
def string (text : Tape) (offset : Nat) : Walk Nat :=
  match peek text offset with
  | none => refuse text offset .expectedString
  | some byte =>
      if isQuotationMark byte then do
        let next ← moveTo text (offset + 1)
        stringBody text offset byte next
      else refuse text offset .expectedString

mutual

/-- Steps over the inside of a template literal that begins at `opener`. -/
def templateBody (text : Tape) (opener offset : Nat) : Walk Nat :=
  match peek text offset with
  | none => refuse text opener .unterminatedTemplate
  | some byte =>
      if byte = '\\' then do
        let next ← moveTo text (clamp text (offset + 2))
        text |>.templateBody opener next
      else if byte = '\x60' then moveTo text (offset + 1)
      else if byte = '$' && peek text (offset + 1) = some '{' then do
        let brace ← moveTo text (offset + 1)
        let next ← text |>.group brace
        text |>.templateBody opener next
      else do
        let next ← moveTo text (offset + 1)
        text |>.templateBody opener next
partial_fixpoint

/-- Steps over a bracketed group. -/
def group (text : Tape) (offset : Nat) : Walk Nat :=
  match (peek text offset).bind closerOf? with
  | none => refuse text offset .expectedBracket
  | some closer => do
      let next ← moveTo text (offset + 1)
      text |>.groupBody offset closer next
partial_fixpoint

/-- Steps over the inside of a group whose opening bracket stands at
`opener`. -/
def groupBody (text : Tape) (opener : Nat) (closer : Char)
    (offset : Nat) : Walk Nat := do
  let (_, offset) ← text |>.expression [] offset offset
  match peek text offset with
  | none =>
      let byte ← byteAt text opener
      refuse text opener (.unclosed byte)
  | some byte =>
      if byte = closer then moveTo text (offset + 1)
      else if isSeparator byte then
        let next ← moveTo text (offset + 1)
        text |>.groupBody opener closer next
      else refuse text offset (.mismatched closer byte)
partial_fixpoint

/-- Steps over an expression, while brackets with the given closers are open at
the given offsets.  `finish` is the end of the last token so far. -/
def expression (text : Tape) (stack : List (Char × Nat)) (finish offset : Nat) :
    Walk (Nat × Nat) := do
  let offset ← trivia text offset
  match peek text offset with
  | none =>
      match stack with
      | [] => return (finish, offset)
      | (_, opener) :: _ =>
          let byte ← byteAt text opener
          refuse text opener (.unclosed byte)
  | some byte =>
      match closerOf? byte with
      | some closer =>
          let next ← moveTo text (offset + 1)
          text |>.expression ((closer, offset) :: stack) next next
      | none =>
          if isCloser byte then
            match stack with
            | [] => return (finish, offset)
            | (expected, _) :: others =>
                if expected = byte then
                  let next ← moveTo text (offset + 1)
                  text |>.expression others next next
                else refuse text offset (.mismatched expected byte)
          else if isSeparator byte && stack.isEmpty then return (finish, offset)
          else if isQuotationMark byte then
            let next ← string text offset
            text |>.expression stack next next
          else if byte = '\x60' then
            let inner ← moveTo text (offset + 1)
            let next ← text |>.templateBody offset inner
            text |>.expression stack next next
          else
            let next ← moveTo text (offset + 1)
            text |>.expression stack next next
partial_fixpoint

end

/-- Steps over an expression.  The results are where it ends, and the cursor
behind the trivia that follows. -/
def item (text : Tape) (offset : Nat) : Walk (Nat × Nat) :=
  expression text [] offset offset

/-- Steps over a template literal. -/
def template (text : Tape) (offset : Nat) : Walk Nat := do
  let next ← moveTo text (offset + 1)
  templateBody text offset next

/-- Steps over the bytes that continue an identifier. -/
def identifierEnd (text : Tape) (offset : Nat) : Walk Nat :=
  match peek text offset with
  | none => return offset
  | some byte =>
      if isIdentifierPart byte then do
        let next ← moveTo text (offset + 1)
        text |>.identifierEnd next
      else return offset
partial_fixpoint

/-- Steps over an identifier, if one begins at the cursor. -/
def identifier (text : Tape) (offset : Nat) : Walk (Option Text × Nat) :=
  match peek text offset with
  | none => return (none, offset)
  | some byte =>
      if isIdentifierStart byte then do
        let next ← moveTo text (offset + 1)
        let finish ← identifierEnd text next
        let word ← slice text offset finish
        return (some word, finish)
      else return (none, offset)

/-- The offsets between which the arguments of a call stand. -/
def arguments (text : Tape) (offset : Nat) : Walk (List (Nat × Nat)) := do
  let start ← trivia text offset
  if text.utf8Size ≤ start then return []
  else
    let (finish, offset) ← item text start
    match peek text offset with
    | none => return [(start, finish)]
    | some byte =>
        if byte = ',' then
          if start < finish then
            let others ← text |>.arguments (bump text offset)
            return (start, finish) :: others
          else refuse text start .emptyArgument
        else refuse text offset (.unexpected byte)
partial_fixpoint

end Tape

end ConfigEdit.Walk
