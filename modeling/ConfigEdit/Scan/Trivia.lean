import ConfigEdit.Scan.Fault
import ConfigEdit.Text.Blank

/-!
# Trivia

Blanks and comments between tokens.  A line comment reaches up to the line
feed; a block comment must be closed.
-/

namespace ConfigEdit

mutual

/-- The text behind the blanks and comments it begins with. -/
def skipTrivia : Text → Except Fault Text
  | [] => .ok []
  | '/' :: '/' :: rest => skipLineComment rest
  | '/' :: '*' :: rest => skipBlockComment ('/' :: '*' :: rest) rest
  | character :: rest =>
      if isGap character then skipTrivia rest else .ok (character :: rest)

/-- The text behind the trivia that the inside of a line comment begins. -/
def skipLineComment : Text → Except Fault Text
  | [] => .ok []
  | '\n' :: rest => skipTrivia rest
  | _ :: rest => skipLineComment rest

/-- The text behind the trivia that the inside of a block comment begins. -/
def skipBlockComment (opener : Text) : Text → Except Fault Text
  | [] => .error (.here .unterminatedComment opener)
  | '*' :: '/' :: rest => skipTrivia rest
  | _ :: rest => skipBlockComment opener rest

end

section Steps

variable {character : Char} {rest : Text}

theorem skipTrivia_gap (gap : isGap character = true) (rest : Text) :
    skipTrivia (character :: rest) = skipTrivia rest := by
  have notSlash : character ≠ '/' := by
    rintro rfl
    exact absurd gap (by decide)
  rw [skipTrivia, if_pos gap]
  · exact fun _ slash _ => notSlash slash
  · exact fun _ slash _ => notSlash slash

/-- A character that is no gap and opens no comment is not stepped over. -/
theorem skipTrivia_stays
    (notLine : ∀ others, character = '/' → rest = '/' :: others → False)
    (notBlock : ∀ others, character = '/' → rest = '*' :: others → False)
    (notGap : ¬isGap character = true) :
    skipTrivia (character :: rest) = .ok (character :: rest) := by
  rw [skipTrivia, if_neg notGap]
  · exact notLine
  · exact notBlock

theorem skipLineComment_other (notBreak : character ≠ '\n') :
    skipLineComment (character :: rest) = skipLineComment rest := by
  rw [skipLineComment]
  exact notBreak

theorem skipBlockComment_other {opener : Text}
    (notEnd : ∀ others, character = '*' → rest = '/' :: others → False) :
    skipBlockComment opener (character :: rest) =
      skipBlockComment opener rest := by
  rw [skipBlockComment]
  exact notEnd

end Steps

private theorem skip_suffix :
    (∀ text rest, skipTrivia text = .ok rest → rest <:+ text) ∧
    (∀ opener text rest,
      skipBlockComment opener text = .ok rest → rest <:+ text) ∧
    ∀ text rest, skipLineComment text = .ok rest → rest <:+ text := by
  refine @skipTrivia.mutual_induct
    (fun text => ∀ rest, skipTrivia text = .ok rest → rest <:+ text)
    (fun opener text =>
      ∀ rest, skipBlockComment opener text = .ok rest → rest <:+ text)
    (fun text => ∀ rest, skipLineComment text = .ok rest → rest <:+ text)
    ?ended ?line ?block ?gap ?token ?unclosed ?closed ?inBlock ?lineEnded
    ?lineBreak ?inLine
  case ended =>
    rintro rest ⟨⟩
    exact List.suffix_refl _
  case line =>
    intro others induction rest found
    exact (induction rest found).trans ⟨['/', '/'], rfl⟩
  case block =>
    intro others induction rest found
    exact (induction rest found).trans ⟨['/', '*'], rfl⟩
  case gap =>
    intro character others _ _ gap induction rest found
    rw [skipTrivia_gap gap] at found
    exact (induction rest found).trans (List.suffix_cons character others)
  case token =>
    intro character others notLine notBlock notGap rest found
    rw [skipTrivia_stays notLine notBlock notGap] at found
    cases found
    exact List.suffix_refl _
  case unclosed =>
    rintro opener rest ⟨⟩
  case closed =>
    intro opener others induction rest found
    exact (induction rest found).trans ⟨['*', '/'], rfl⟩
  case inBlock =>
    intro opener character others notEnd induction rest found
    rw [skipBlockComment_other notEnd] at found
    exact (induction rest found).trans (List.suffix_cons character others)
  case lineEnded =>
    rintro rest ⟨⟩
    exact List.suffix_refl _
  case lineBreak =>
    intro others induction rest found
    exact (induction rest found).trans (List.suffix_cons '\n' others)
  case inLine =>
    intro character others notBreak induction rest found
    rw [skipLineComment_other notBreak] at found
    exact (induction rest found).trans (List.suffix_cons character others)

/-- What follows the trivia is a part of the text. -/
theorem skipTrivia_suffix
    {text rest : Text} (found : skipTrivia text = .ok rest) :
    rest <:+ text :=
  skip_suffix.1 text rest found

end ConfigEdit
