import ConfigEdit.Document.Parse
import ConfigEdit.Proofs.Bytewise.Scan

/-!
# Reading documents over bytes

The readers of documents once more, as walks over the bytes of the text.  A
reader that gives an attempt up moves its cursor back to where the attempt
began.  Whatever is kept of the text is a slice of it.
-/

namespace ConfigEdit.Walk.Tape

/-- Steps over identifiers with points between them. -/
def path (text : Tape) (offset : Nat) : Walk Nat := do
  let (word, offset) ← identifier text offset
  match word with
  | none => return offset
  | some _ =>
      if peek text offset = some '.' &&
        (peek text (offset + 1)).any isIdentifierStart then
        text |>.path (bump text offset)
      else return offset
partial_fixpoint

/-- Steps over type arguments; `none` if the angle brackets do not balance
before a delimiter. -/
def typeArguments (text : Tape) (depth offset : Nat) : Walk (Option Nat) :=
  match peek text offset with
  | none => return none
  | some byte =>
      if byte = '<' then text |>.typeArguments (depth + 1) (bump text offset)
      else if byte = '>' then do
        let depth ← lower depth
        if depth = 0 then return some (bump text offset)
        else text |>.typeArguments depth (bump text offset)
      else if isQuotationMark byte then do
        let next ← string text offset
        text |>.typeArguments depth next
      else if byte = '(' || byte = ')' || byte = ';' || byte = ',' ||
        byte = '{' || byte = '}' then return none
      else text |>.typeArguments depth (bump text offset)
partial_fixpoint

/-- The cursor behind type arguments, if there are any. -/
def behindTypeArguments (text : Tape) (offset : Nat) : Walk (Option Nat) :=
  if peek text offset = some '<' then typeArguments text 0 offset
  else return some offset

/-- Whether an expression ends at the cursor, apart from trivia. -/
def atEnd (text : Tape) (offset : Nat) : Walk Bool := do
  let offset ← trivia text offset
  match peek text offset with
  | none => return true
  | some byte => return isSeparator byte || isCloser byte

/-- A string literal: what it stands for, how it is written, and the cursor
behind it. -/
def stringLiteral (text : Tape) (start : Nat) : Walk (Text × Text × Nat) := do
  let offset ← string text start
  let raw ← slice text start offset
  let body ← slice raw 1 (raw.utf8Size - 1)
  return (body.unescape, raw, offset)

/-- A number literal, if the whole expression is one. -/
def number (text : Tape) (start : Nat) : Walk (Option (Expr × Nat)) := do
  let (finish, _) ← item text start
  let literal ← slice text start finish
  if literal.isNumeral then return some (.number literal, clamp text finish)
  else return none

/-- An expression that is kept as it is written. -/
def verbatim (text : Tape) (start : Nat) : Walk (Expr × Nat) := do
  let (finish, _) ← item text start
  if finish = start then refuse text start .expectedExpression
  else
    let written ← slice text start finish
    return (.verbatim written, clamp text finish)

/-- A member that is kept as it is written. -/
def writtenMember
    (text : Tape) (leading : Text) (name : Option Text) (start : Nat) :
    Walk (Member × Nat) := do
  let (finish, _) ← item text start
  if finish = start then refuse text start .expectedMember
  else
    let written ← slice text start finish
    return (.written ⟨name, written, leading, []⟩, clamp text finish)

/-- Steps over the bytes of a property key that begins with a digit. -/
def numericKeyEnd (text : Tape) (offset : Nat) : Walk Nat :=
  match peek text offset with
  | none => return offset
  | some byte =>
      if isNumericKeyPart byte then text |>.numericKeyEnd (bump text offset)
      else return offset
partial_fixpoint

/-- The key of a property, if the member begins like one. -/
def key (text : Tape) (start : Nat) : Walk (Option (Key × Nat)) :=
  match peek text start with
  | none => return none
  | some byte =>
      if byte = '.' then do
        -- A spread has no key, and nor has a member that begins with fewer
        -- points.
        let _ ← sliceFrom text start
        return none
      else if isQuotationMark byte then do
        let (name, raw, offset) ← stringLiteral text start
        return some (⟨name, some raw⟩, offset)
      else if byte.isDigit then do
        let finish ← numericKeyEnd text start
        let raw ← slice text start finish
        return some (⟨raw, some raw⟩, finish)
      else if isIdentifierStart byte then do
        let (word, offset) ← identifier text start
        return word.map fun name => (⟨name, some name⟩, offset)
      else return none

mutual

/-- The expression that begins at the cursor. -/
def value (text : Tape) (strict : Bool) (start : Nat) : Walk (Expr × Nat) := do
  let parsed ← text |>.node start
  match parsed with
  | none => verbatim text start
  | some (expr, offset) =>
      if strict then
        let ends ← atEnd text offset
        if ends then return (expr, offset) else verbatim text start
      else return (expr, offset)
partial_fixpoint

/-- The node that begins at the cursor, if its first byte begins one. -/
def node (text : Tape) (start : Nat) : Walk (Option (Expr × Nat)) :=
  match peek text start with
  | none => return none
  | some byte =>
      if byte = '{' then do
        let (literal, offset) ← text |>.members start false (bump text start)
        let trailingComma :=
          if literal.members.isEmpty then none else literal.trailingComma
        return some (.object { literal with trailingComma }, offset)
      else if isQuotationMark byte then do
        let (decoded, raw, offset) ← stringLiteral text start
        return some (.string decoded (some raw), offset)
      else if byte.isDigit || byte = '.' || byte = '-' then number text start
      else if isIdentifierStart byte then text |>.word start
      else return none
partial_fixpoint

/-- `true`, `false`, or a call on an identifier path. -/
def word (text : Tape) (start : Nat) : Walk (Option (Expr × Nat)) := do
  let afterWord ← path text start
  let written ← slice text start afterWord
  if written = ['t', 'r', 'u', 'e'] then return some (.boolean true, afterWord)
  else if written = ['f', 'a', 'l', 's', 'e'] then
    return some (.boolean false, afterWord)
  else
    let typed ← trivia text afterWord
    let behindTypes ← behindTypeArguments text typed
    match behindTypes with
    | none => return none
    | some behind =>
        let opener ← trivia text behind
        if peek text opener = some '(' then
          let callee ← slice text start opener
          let (call, offset) ← text |>.callArguments opener callee false
            (bump text opener)
          return some (.call call, offset)
        else return none
partial_fixpoint

/-- The arguments of the call whose parenthesis stands at `opener`. -/
def callArguments (text : Tape) (opener : Nat) (callee : Text)
    (afterComma : Bool) (lead : Nat) :
    Walk (Call × Nat) := do
  let start ← trivia text lead
  match peek text start with
  | none => refuse text opener .unclosedCall
  | some byte =>
      if byte = ')' then
        let close ← slice text lead start
        return (⟨callee, [], close, afterComma⟩, bump text start)
      else
        let leading ← slice text lead start
        let (expr, trail) ← text |>.value true start
        let offset ← trivia text trail
        let trailing ← slice text trail offset
        match peek text offset with
        | none => refuse text opener .unclosedCall
        | some byte =>
            if byte = ',' then
              let (call, last) ← text |>.callArguments opener callee true
                (bump text offset)
              return ({ call with
                args := ⟨leading, expr, trailing⟩ :: call.args }, last)
            else if byte = ')' then
              return (⟨callee, [⟨leading, expr, trailing⟩], [], false⟩,
                bump text offset)
            else refuse text offset .expectedArgumentEnd
partial_fixpoint

/-- The members of the object literal whose brace stands at `opener`. -/
def members (text : Tape) (opener : Nat) (afterComma : Bool) (lead : Nat) :
    Walk (ObjectLiteral × Nat) := do
  let start ← trivia text lead
  match peek text start with
  | none => refuse text opener .unclosedObject
  | some byte =>
      if byte = '}' then
        let close ← slice text lead start
        return (⟨[], some close, some afterComma⟩, bump text start)
      else
        let leading ← slice text lead start
        let (entry, trail) ← text |>.member leading start
        let offset ← trivia text trail
        match peek text offset with
        | none => refuse text opener .unclosedObject
        | some byte =>
            if byte = ',' then
              let trailing ← slice text trail offset
              let (literal,
                last) ← text |>.members opener true (bump text offset)
              return ({ literal with
                members := entry.withTrailing trailing :: literal.members },
                last)
            else if byte = '}' then
              let close ← slice text trail offset
              return (⟨[entry], some close, some false⟩, bump text offset)
            else refuse text offset .expectedMemberEnd
partial_fixpoint

/-- The member of an object literal that begins at the cursor. -/
def member (text : Tape) (leading : Text)
    (start : Nat) : Walk (Member × Nat) := do
  let found ← key text start
  match found with
  | none => writtenMember text leading none start
  | some (name, keyEnd) =>
      let offset ← trivia text keyEnd
      match peek text offset with
      | none => refuse text offset .expectedColon
      | some byte =>
          if byte = ':' then
            let first ← trivia text (bump text offset)
            let separator ← slice text keyEnd first
            let (expr, last) ← text |>.value true first
            return (.property ⟨name, expr, some ⟨leading, separator, []⟩⟩, last)
          else if byte = '(' || byte = '<' then
            writtenMember text leading (some name.name) start
          else if byte = ',' || byte = '}' then
            let written ← slice text start keyEnd
            return (.written ⟨some name.name, written, leading, []⟩,
              clamp text keyEnd)
          else if isIdentifierStart byte && isMethodModifier name.name then
            let (method, _) ← identifier text offset
            writtenMember text leading method start
          else refuse text offset .expectedColon
partial_fixpoint

end

/-- A text that is one expression. -/
def wholeExpression (text : Tape) : Walk Expr := do
  let start ← trivia text 0
  if text.utf8Size ≤ start then refuse text 0 .expectedExpression
  else
    let (expr, offset) ← value text true start
    let last ← trivia text offset
    if text.utf8Size ≤ last then return expr
    else refuse text last .trailingInput

/-- The text between two offsets as a segment in front of others, unless it is
empty. -/
def textThen (text : Tape) (start finish : Nat)
    (others : List Segment) : Walk (List Segment) :=
  if start < finish then do
    let between ← slice text start finish
    return .text between :: others
  else return others

/-- Whether a point stands right in front of the cursor. -/
def behindPoint (text : Tape) (offset : Nat) : Walk Bool :=
  if 0 < offset then do
    let before ← byteAt text (offset - 1)
    return before = '.'
  else return false

mutual

/-- The segments of a document from the cursor on.  `textStart` is the offset
behind the last export, and `depth` counts the brackets that are open. -/
def segments (text : Tape)
    (textStart depth offset : Nat) : Walk (List Segment) := do
  let offset ← trivia text offset
  match peek text offset with
  | none =>
      if depth = 0 then textThen text textStart text.utf8Size []
      else refuse text text.utf8Size .unclosedDocument
  | some byte =>
      if isQuotationMark byte then
        let next ← string text offset
        text |>.segments textStart depth next
      else if byte = '\x60' then
        let next ← template text offset
        text |>.segments textStart depth next
      else if (closerOf? byte).isSome then
        text |>.segments textStart (depth + 1) (bump text offset)
      else if isCloser byte then
        if depth = 0 then refuse text offset (.unmatched byte)
        else
          let depth ← lower depth
          text |>.segments textStart depth (bump text offset)
      else if isIdentifierStart byte then
        let (word, afterWord) ← identifier text offset
        let memberAccess ← behindPoint text offset
        if depth ≠ 0 || word.getD [] ≠ ['e', 'x', 'p', 'o', 'r', 't'] ||
          memberAccess then
          text |>.segments textStart depth afterWord
        else text |>.exported textStart offset afterWord
      else text |>.segments textStart depth (bump text offset)
partial_fixpoint

/-- The segments from a word `export` on, which begins at `wordStart`. -/
def exported (text : Tape)
    (textStart wordStart afterWord : Nat) : Walk (List Segment) := do
  let second ← trivia text afterWord
  let (next, afterDefault) ← identifier text second
  if next ≠ some ['d', 'e', 'f', 'a', 'u', 'l', 't'] then
    text |>.segments textStart 0 (clamp text afterWord)
  else
    let first ← trivia text afterDefault
    if text.utf8Size ≤ first then refuse text first .expectedExport
    else
      let before ← textThen text textStart wordStart []
      let head ← slice text wordStart first
      let (expr, finish) ← value text false first
      let others ← text |>.segments finish 0 finish
      return before ++ .defaultExport ⟨head, expr⟩ :: others
partial_fixpoint

end

/-- A document. -/
def document (text : Tape) : Walk Document := do
  let parts ← segments text 0 0 0
  return ⟨parts⟩

end ConfigEdit.Walk.Tape
