import ConfigEdit.Document.Tree
import ConfigEdit.Scan.Expression
import ConfigEdit.Scan.Identifier
import ConfigEdit.Text.Quoted

/-!
# Reading documents

`Document.parse` finds the default exports of a text and takes their
expressions apart; `Expr.parse` reads a text that is one expression.

An expression is read by its first character.  What begins like an object
literal, a string, a number or a word is tried as such a node; where that is
not possible the expression is kept as it is written.  A `strict` value is a
node only if the expression ends right behind it, so that `'a' + 'b'` is not
taken for a string literal.
-/

namespace ConfigEdit

/-- The result of reading something at the beginning of a text: the thing, and
the place behind it. -/
abbrev Parsed (kind : Type) (text : Text) := Except Fault (kind × Place text)

/-- The text behind the type arguments it begins with, or nothing if the angle
brackets are not balanced before a delimiter. -/
def skipTypeArguments (depth : Nat) {whole : Text} (place : Place whole) :
    Except Fault (Option (Place whole)) :=
  match unread : place.1 with
  | [] => .ok none
  | character :: rest =>
      have inside : character :: rest <:+ whole := unread ▸ place.2
      have : rest.length < place.1.length := by simp [unread]
      let next : Place whole := .tail inside
      if character = '<' then skipTypeArguments (depth + 1) next
      else if character = '>' then
        if depth ≤ 1 then .ok (some next)
        else skipTypeArguments (depth - 1) next
      else if isQuotationMark character then
        match ended : skipString (character :: rest) with
        | .error fault => .error fault
        | .ok after =>
            have : after.length ≤ rest.length :=
              (skipString_suffix ended).length_le
            skipTypeArguments depth (next.further (skipString_suffix ended))
      else if character = '(' || character = ')' || character = ';' ||
          character = ',' || character = '{' || character = '}' then .ok none
      else skipTypeArguments depth next
termination_by place.1.length

/-- The expression ends here, apart from trivia. -/
def atExpressionEnd (text : Text) : Except Fault Bool :=
  match skipTrivia text with
  | .error fault => .error fault
  | .ok [] => .ok true
  | .ok (character :: _) => .ok (isSeparator character || isCloser character)

/-- An expression that is kept as it is written. -/
def parseVerbatim (text : Text) : Parsed Expr text :=
  match skipExpression text with
  | .error fault => .error fault
  | .ok finish =>
      if finish.1.length = text.length then
        .error (.here .expectedExpression text)
      else .ok (.verbatim (text.upTo finish.1), finish)

/-- A member that is kept as it is written. -/
def parseWrittenMember (leading : Text) (name : Option Text) (text : Text) :
    Parsed Member text :=
  match skipExpression text with
  | .error fault => .error fault
  | .ok finish =>
      if finish.1.length = text.length then .error (.here .expectedMember text)
      else .ok (.written ⟨name, text.upTo finish.1, leading, []⟩, finish)

/-- The text of a literal without its quotation marks. -/
def Text.unquoted (raw : Text) : Text := raw.tail.dropLast

/-- The characters of a property key that begins with a digit. -/
def isNumericKeyPart (character : Char) : Bool :=
  character.isAlphanum || character = '.' || character = '_'

/-- A number literal that begins here, if the whole expression is one. -/
def parseNumber? (text : Text) : Except Fault (Option (Expr × Place text)) :=
  match skipExpression text with
  | .error fault => .error fault
  | .ok finish =>
      let literal := text.upTo finish.1
      if literal.isNumeral then .ok (some (.number literal, finish))
      else .ok none

/-- A string literal. -/
def parseString (text : Text) : Parsed Expr text :=
  match text with
  | [] => .error (.here .expectedString [])
  | mark :: rest =>
      match ended : skipString (mark :: rest) with
      | .error fault => .error fault
      | .ok after =>
          let raw := Text.upTo (mark :: rest) after
          .ok (.string raw.unquoted.unescape (some raw),
            .behind mark ⟨after, skipString_suffix ended⟩)

/-- The key of a property, if the member begins like one. -/
def parseKey? (text : Text) : Except Fault (Option (Key × Place text)) :=
  match text with
  | [] => .ok none
  | first :: rest =>
      if isQuotationMark first then
        match ended : skipString (first :: rest) with
        | .error fault => .error fault
        | .ok after =>
            let raw := Text.upTo (first :: rest) after
            .ok (some (⟨raw.unquoted.unescape, some raw⟩,
              .behind first ⟨after, skipString_suffix ended⟩))
      else if first.isDigit then
        let raw := first :: rest.takeWhile isNumericKeyPart
        .ok (some (⟨raw, some raw⟩,
          .behind first ⟨rest.dropWhile isNumericKeyPart,
            List.dropWhile_suffix _⟩))
      else if isIdentifierStart first then
        let raw := first :: rest.takeWhile isIdentifierPart
        .ok (some (⟨raw, some raw⟩,
          .behind first ⟨rest.dropWhile isIdentifierPart,
            List.dropWhile_suffix _⟩))
      else .ok none

/-- Words that may stand before the name of a method. -/
def isMethodModifier (name : Text) : Bool :=
  name = ['a', 's', 'y', 'n', 'c'] || name = ['g', 'e', 't'] ||
    name = ['s', 'e', 't']

mutual

/-- The expression at the beginning of a text, from its first character to its
last token. -/
def parseValue (strict : Bool) (text : Text) : Parsed Expr text :=
  match parseNode? text with
  | .error fault => .error fault
  | .ok none => parseVerbatim text
  | .ok (some (value, finish)) =>
      if strict then
        match atExpressionEnd finish.1 with
        | .error fault => .error fault
        | .ok true => .ok (value, finish)
        | .ok false => parseVerbatim text
      else .ok (value, finish)
termination_by 8 * text.length + 3

/-- The node that an expression begins with, if its first character begins
one. -/
def parseNode? (text : Text) : Except Fault (Option (Expr × Place text)) :=
  match text with
  | [] => .ok none
  | first :: rest =>
      if first = '{' then
        match parseMembers (first :: rest) false rest with
        | .error fault => .error fault
        | .ok (literal, finish) =>
            let trailingComma :=
              if literal.members.isEmpty then none else literal.trailingComma
            .ok (some (.object { literal with trailingComma },
              .behind first finish))
      else if isQuotationMark first then (parseString (first :: rest)).map some
      else if first.isDigit || first = '.' || first = '-' then
        parseNumber? (first :: rest)
      else if isIdentifierStart first then parseWord first rest
      else .ok none
termination_by 8 * text.length + 2

/-- `true`, `false`, or a call, given the first character of the word. -/
def parseWord (first : Char) (rest : Text) :
    Except Fault (Option (Expr × Place (first :: rest))) :=
  let text : Text := first :: rest
  let afterWord := identifierPathEnd rest
  let word := text.upTo afterWord
  have pathEnd : afterWord <:+ text :=
    (identifierPathEnd_suffix rest).trans (List.suffix_cons first rest)
  if word = ['t', 'r', 'u', 'e'] then
    .ok (some (.boolean true, ⟨afterWord, pathEnd⟩))
  else if word = ['f', 'a', 'l', 's', 'e'] then
    .ok (some (.boolean false, ⟨afterWord, pathEnd⟩))
  else
    match began : skipTrivia afterWord with
    | .error fault => .error fault
    | .ok typed =>
        have start : typed <:+ rest :=
          (skipTrivia_suffix began).trans (identifierPathEnd_suffix rest)
        match
          if typed.head? = some '<' then skipTypeArguments 0 (.start typed)
          else .ok (some (.start typed)) with
        | .error fault => .error fault
        | .ok none => .ok none
        | .ok (some behindTypes) =>
            match found : skipTrivia behindTypes.1 with
            | .error fault => .error fault
            | .ok ('(' :: inner) =>
                have later : '(' :: inner <:+ rest :=
                  ((skipTrivia_suffix found).trans behindTypes.2).trans start
                have : inner.length < rest.length := later.length_le
                match parseArguments ('(' :: inner)
                  (text.upTo ('(' :: inner)) false inner with
                | .error fault => .error fault
                | .ok (call, finish) =>
                    .ok (some (.call call,
                      ⟨finish.1, finish.2.trans ((List.suffix_cons _ _).trans
                        (later.trans (List.suffix_cons first rest)))⟩))
            | .ok _ => .ok none
termination_by 8 * (rest.length + 1) + 1

/-- The arguments of a call up to its closing parenthesis.  `afterComma` says
whether a comma has just been read. -/
def parseArguments (opener callee : Text) (afterComma : Bool) (text : Text) :
    Parsed Call text :=
  match began : skipTrivia text with
  | .error fault => .error fault
  | .ok [] => .error (.here .unclosedCall opener)
  | .ok (first :: others) =>
      have start : first :: others <:+ text := skipTrivia_suffix began
      let leading := text.upTo (first :: others)
      if first = ')' then .ok (⟨callee, [], leading, afterComma⟩, .tail start)
      else
        have : others.length + 1 ≤ text.length := start.length_le
        match parseValue true (first :: others) with
        | .error fault => .error fault
        | .ok (value, finish) =>
            match found : skipTrivia finish.1 with
            | .error fault => .error fault
            | .ok [] => .error (.here .unclosedCall opener)
            | .ok (character :: rest) =>
                have later : character :: rest <:+ text :=
                  ((skipTrivia_suffix found).trans finish.2).trans start
                have : rest.length < text.length := later.length_le
                let argument : Argument :=
                  ⟨leading, value, finish.1.upTo (character :: rest)⟩
                if character = ',' then
                  match parseArguments opener callee true rest with
                  | .error fault => .error fault
                  | .ok (call, place) =>
                      .ok ({ call with args := argument :: call.args },
                        ⟨place.1,
                          place.2.trans ((List.suffix_cons _ _).trans later)⟩)
                else if character = ')' then
                  .ok (⟨callee, [argument], [], false⟩, .tail later)
                else .error (.here .expectedArgumentEnd (character :: rest))
termination_by 8 * text.length + 5

/-- The members of an object literal up to its closing brace.  `afterComma`
says whether a comma has just been read. -/
def parseMembers (opener : Text) (afterComma : Bool) (text : Text) :
    Parsed ObjectLiteral text :=
  match began : skipTrivia text with
  | .error fault => .error fault
  | .ok [] => .error (.here .unclosedObject opener)
  | .ok (first :: others) =>
      have start : first :: others <:+ text := skipTrivia_suffix began
      let leading := text.upTo (first :: others)
      if first = '}' then .ok (⟨[], some leading, some afterComma⟩, .tail start)
      else
        have : others.length + 1 ≤ text.length := start.length_le
        match parseMember leading (first :: others) with
        | .error fault => .error fault
        | .ok (member, finish) =>
            match found : skipTrivia finish.1 with
            | .error fault => .error fault
            | .ok [] => .error (.here .unclosedObject opener)
            | .ok (character :: rest) =>
                have later : character :: rest <:+ text :=
                  ((skipTrivia_suffix found).trans finish.2).trans start
                have : rest.length < text.length := later.length_le
                let trailing := finish.1.upTo (character :: rest)
                if character = ',' then
                  match parseMembers opener true rest with
                  | .error fault => .error fault
                  | .ok (literal, place) =>
                      let member := member.withTrailing trailing
                      .ok
                        ({ literal with members := member :: literal.members },
                          ⟨place.1,
                            place.2.trans ((List.suffix_cons _ _).trans later)⟩)
                else if character = '}' then
                  .ok (⟨[member], some trailing, some false⟩, .tail later)
                else .error (.here .expectedMemberEnd (character :: rest))
termination_by 8 * text.length + 5

/-- A member of an object literal. -/
def parseMember (leading text : Text) : Parsed Member text :=
  match parseKey? text with
  | .error fault => .error fault
  | .ok none => parseWrittenMember leading none text
  | .ok (some (key, keyEnd)) =>
      match found : skipTrivia keyEnd.1 with
      | .error fault => .error fault
      | .ok [] => .error (.here .expectedColon [])
      | .ok (character :: rest) =>
          have later : character :: rest <:+ text :=
            (skipTrivia_suffix found).trans keyEnd.2
          if character = ':' then
            match began : skipTrivia rest with
            | .error fault => .error fault
            | .ok start =>
                have value : start <:+ rest := skipTrivia_suffix began
                have : start.length < text.length :=
                  Nat.lt_of_le_of_lt value.length_le later.length_le
                match parseValue true start with
                | .error fault => .error fault
                | .ok (expr, finish) =>
                    .ok (.property ⟨key, expr,
                      some ⟨leading, keyEnd.1.upTo start, []⟩⟩,
                      ⟨finish.1, finish.2.trans (value.trans
                        ((List.suffix_cons _ _).trans later))⟩)
          else if character = '(' || character = '<' then
            parseWrittenMember leading (some key.name) text
          else if character = ',' || character = '}' then
            .ok (.written ⟨some key.name, text.upTo keyEnd.1, leading, []⟩,
              keyEnd)
          else if isMethodModifier key.name then
            match scanIdentifier? (character :: rest) with
            | some (name, _) => parseWrittenMember leading (some name) text
            | none => .error (.here .expectedColon (character :: rest))
          else .error (.here .expectedColon (character :: rest))
termination_by 8 * text.length + 4

end

/-- Reads a text that is one expression. -/
def Expr.parseFault (text : Text) : Except Fault Expr :=
  match skipTrivia text with
  | .error fault => .error fault
  | .ok [] => .error (.here .expectedExpression text)
  | .ok start =>
      match parseValue true start with
      | .error fault => .error fault
      | .ok (value, finish) =>
          match skipTrivia finish.1 with
          | .error fault => .error fault
          | .ok [] => .ok value
          | .ok rest => .error (.here .trailingInput rest)

/-- Reads a text that is one expression. -/
def Expr.parse (text : Text) : Except SyntaxError Expr :=
  (Expr.parseFault text).mapError (Fault.located text)

/-- Text in front of a segment, left out if it is empty. -/
def Segment.textThen (text : Text) (others : List Segment) : List Segment :=
  if text.isEmpty then others else .text text :: others

/-- The segments of a document from a place on.  `segmentStart` is the place
behind the last export, `depth` counts the brackets that are open, and
`afterPoint` says whether a point stands right before the place. -/
def parseSegments
    (segmentStart : Text) (depth : Nat) (afterPoint : Bool) (text : Text) :
    Except Fault (List Segment) :=
  match began : skipTrivia text with
  | .error fault => .error fault
  | .ok [] =>
      if depth = 0 then .ok (Segment.textThen segmentStart [])
      else .error (.here .unclosedDocument [])
  | .ok (character :: rest) =>
      have : rest.length < text.length := (skipTrivia_suffix began).length_le
      if isQuotationMark character then
        match ended : skipString (character :: rest) with
        | .error fault => .error fault
        | .ok after =>
            have : after.length ≤ rest.length :=
              (skipString_suffix ended).length_le
            parseSegments segmentStart depth false after
      else if character = '\x60' then
        match skipTemplateBody (character :: rest) (.start rest) with
        | .error fault => .error fault
        | .ok after =>
            have : after.1.length ≤ rest.length := after.length_le
            parseSegments segmentStart depth false after.1
      else if (closerOf? character).isSome then
        parseSegments segmentStart (depth + 1) false rest
      else if isCloser character then
        if depth = 0 then
          .error (.here (.unmatched character) (character :: rest))
        else parseSegments segmentStart (depth - 1) false rest
      else if isIdentifierStart character then
        let word : Text := character :: rest.takeWhile isIdentifierPart
        let afterWord : Text := rest.dropWhile isIdentifierPart
        have : (rest.dropWhile isIdentifierPart).length < text.length :=
          Nat.lt_of_le_of_lt (List.dropWhile_suffix _).length_le this
        let isMember := afterPoint && text.length = rest.length + 1
        if depth ≠ 0 || word ≠ ['e', 'x', 'p', 'o', 'r', 't'] || isMember then
          parseSegments segmentStart depth false afterWord
        else
          match second : skipTrivia afterWord with
          | .error fault => .error fault
          | .ok start =>
              match next : scanIdentifier? start with
              | some (['d', 'e', 'f', 'a', 'u', 'l', 't'], afterDefault) =>
                  match third : skipTrivia afterDefault with
                  | .error fault => .error fault
                  | .ok [] => .error (.here .expectedExport [])
                  | .ok (first :: others) =>
                      have inside : first :: others <:+ rest :=
                        (((skipTrivia_suffix third).trans
                          (scanIdentifier?_suffix next)).trans
                          (skipTrivia_suffix second)).trans
                          (List.dropWhile_suffix _)
                      match parseValue false (first :: others) with
                      | .error fault => .error fault
                      | .ok (value, finish) =>
                          have : finish.1.length < text.length :=
                            Nat.lt_of_le_of_lt
                              (Nat.le_trans finish.2.length_le
                                inside.length_le) ‹_›
                          match parseSegments finish.1 0 false finish.1 with
                          | .error fault => .error fault
                          | .ok segments =>
                              let head :=
                                Text.upTo (character :: rest) (first :: others)
                              .ok (Segment.textThen
                                (segmentStart.upTo (character :: rest))
                                (.defaultExport ⟨head, value⟩ :: segments))
              | _ => parseSegments segmentStart depth false afterWord
      else parseSegments segmentStart depth (character = '.') rest
termination_by text.length

/-- Reads a document. -/
def Document.parseFault (text : Text) : Except Fault Document :=
  match parseSegments text 0 false text with
  | .error fault => .error fault
  | .ok segments => .ok ⟨segments⟩

/-- Reads a document. -/
def Document.parse (text : Text) : Except SyntaxError Document :=
  (Document.parseFault text).mapError (Fault.located text)

end ConfigEdit
