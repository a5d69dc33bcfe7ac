import ConfigEdit.Scan.String
import ConfigEdit.Scan.Trivia

/-!
# Expressions

Where an expression ends is found without understanding it: brackets nest,
strings, template literals and comments are stepped over, and any other
character stands for itself.  Regular expression literals are not known.

There are two walkers over brackets.  `skipGroup` follows one bracketed group
by recursion, and starts afresh at every comma and semicolon of the group.
`expressionEnd` keeps the open brackets on a stack.  Each calls the other: the
items of a group are expressions, and an expression may hold a template
literal whose substitutions are groups.

All three functions read places of one text, so that their results are known
to be places of it.
-/

namespace ConfigEdit

/-- The closing bracket of an opening bracket. -/
def closerOf? : Char → Option Char
  | '(' => some ')'
  | '[' => some ']'
  | '{' => some '}'
  | _ => none

/-- Closing brackets. -/
def isCloser (character : Char) : Bool :=
  character = ')' || character = ']' || character = '}'

/-- Commas and semicolons. -/
def isSeparator (character : Char) : Bool :=
  character = ',' || character = ';'

/-- A bracket that is still open: its closer, and the place it stands at. -/
structure OpenBracket where
  closer : Char
  site : Text
deriving DecidableEq, Repr

/-- The fault of a bracket that stays open up to the end of the text. -/
def OpenBracket.unclosed (bracket : OpenBracket) : Fault :=
  ⟨.unclosed (bracket.site.headD ' '), bracket.site, []⟩

/-- A place after one more character. -/
abbrev Place.tail {whole : Text} {character : Char} {rest : Text}
    (inside : character :: rest <:+ whole) : Place whole :=
  ⟨rest, (List.suffix_cons character rest).trans inside⟩

/-- A place further on. -/
abbrev Place.further {whole : Text} (place : Place whole) {rest : Text}
    (later : rest <:+ place.1) : Place whole :=
  ⟨rest, later.trans place.2⟩

mutual

/-- The place behind the template literal that opens at `opener`, of which the
text at the given place has not been read. -/
def skipTemplateBody (opener : Text) {whole : Text} (place : Place whole) :
    Except Fault (Place whole) :=
  match unread : place.1 with
  | [] => .error ⟨.unterminatedTemplate, opener, []⟩
  | character :: rest =>
      have inside : character :: rest <:+ whole := unread ▸ place.2
      have : rest.length < place.1.length := by simp [unread]
      have : rest.tail.length ≤ rest.length := (List.tail_suffix rest).length_le
      let next : Place whole := .tail inside
      if character = '\\' then
        skipTemplateBody opener (next.further (List.tail_suffix rest))
      else if character = '\x60' then .ok next
      else if character = '$' && rest.head? = some '{' then
        match skipGroupBody ⟨'}', rest⟩ (.start rest.tail) with
        | .error fault => .error fault
        | .ok after =>
            have : after.1.length ≤ rest.tail.length := after.length_le
            skipTemplateBody opener
              (next.further (after.2.trans (List.tail_suffix rest)))
      else skipTemplateBody opener next
termination_by 3 * place.1.length

/-- The place behind a group of which the opening bracket has been read. -/
def skipGroupBody (bracket : OpenBracket) {whole : Text} (place : Place whole) :
    Except Fault (Place whole) :=
  match expressionEnd [] (.start place.1) with
  | .error fault => .error fault
  | .ok finish =>
      have : finish.1.length ≤ place.1.length := finish.length_le
      match found : skipTrivia finish.1 with
      | .error fault => .error fault
      | .ok [] => .error bracket.unclosed
      | .ok (character :: rest) =>
          have later : character :: rest <:+ place.1 :=
            (skipTrivia_suffix found).trans finish.2
          have : rest.length < place.1.length := later.length_le
          if character = bracket.closer then
            .ok (.tail (later.trans place.2))
          else if isSeparator character then
            skipGroupBody bracket (.tail (later.trans place.2))
          else
            .error (.here (.mismatched bracket.closer character)
              (character :: rest))
termination_by 3 * place.1.length + 2

/-- The place behind the last token of an expression, while the brackets of
the stack are open.  The expression ends before a closing bracket that does
not belong to it and, outside its brackets, before a comma or a semicolon. -/
def expressionEnd
    (stack : List OpenBracket) {whole : Text} (place : Place whole) :
    Except Fault (Place whole) :=
  match found : skipTrivia place.1 with
  | .error fault => .error fault
  | .ok [] =>
      match stack with
      | [] => .ok place
      | bracket :: _ => .error bracket.unclosed
  | .ok (character :: rest) =>
      have later : character :: rest <:+ place.1 := skipTrivia_suffix found
      have : rest.length < place.1.length := later.length_le
      let next : Place whole := .tail (later.trans place.2)
      match closerOf? character with
      | some closer =>
          expressionEnd (⟨closer, character :: rest⟩ :: stack) next
      | none =>
          if isCloser character then
            match stack with
            | [] => .ok place
            | bracket :: others =>
                if bracket.closer = character then expressionEnd others next
                else
                  .error (.here (.mismatched bracket.closer character)
                    (character :: rest))
          else if isSeparator character && stack.isEmpty then .ok place
          else if isQuotationMark character then
            match ended : skipString (character :: rest) with
            | .error fault => .error fault
            | .ok after =>
                have : after.length ≤ rest.length :=
                  (skipString_suffix ended).length_le
                expressionEnd stack (next.further (skipString_suffix ended))
          else if character = '\x60' then
            match skipTemplateBody (character :: rest) (.start rest) with
            | .error fault => .error fault
            | .ok after =>
                have : after.1.length ≤ rest.length := after.length_le
                expressionEnd stack (next.within after)
          else expressionEnd stack next
termination_by 3 * place.1.length + 1

end

/-- The text behind the template literal it begins with. -/
def skipTemplate : Text → Except Fault Text
  | [] => .error (.here .unterminatedTemplate [])
  | opener :: rest =>
      (skipTemplateBody (opener :: rest) (.start rest)).map Subtype.val

/-- The text behind the bracketed group it begins with. -/
def skipGroup : Text → Except Fault Text
  | [] => .error (.here .expectedBracket [])
  | opener :: rest =>
      match closerOf? opener with
      | none => .error (.here .expectedBracket (opener :: rest))
      | some closer =>
          (skipGroupBody ⟨closer, opener :: rest⟩ (.start rest)).map Subtype.val

/-- The end of an expression as a place of its text. -/
def skipExpression (text : Text) : Except Fault (Place text) :=
  expressionEnd [] (.start text)

end ConfigEdit
