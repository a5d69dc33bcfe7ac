import ConfigEdit.Proofs.Scan.Trivia
import ConfigEdit.Proofs.Text.Line

/-!
# Trivia without block comments

Without block comments, trivia may be cut behind each line break, and in front
of it when another line break is put there.
-/

namespace ConfigEdit

/-- Blanks, and comments that end with their line. -/
inductive LineTrivia : Text → Prop where
  | nil : LineTrivia []
  | gap {character : Char} {rest : Text} :
      isGap character = true → LineTrivia rest → LineTrivia (character :: rest)
  | comment {body rest : Text} :
      '\n' ∉ body → LineTrivia rest →
      LineTrivia ('/' :: '/' :: (body ++ '\n' :: rest))

theorem skipLineComment_append
    {body : Text} (flat : '\n' ∉ body) (rest : Text) :
    skipLineComment (body ++ '\n' :: rest) = skipTrivia rest := by
  induction body with
  | nil => rw [List.nil_append, skipLineComment]
  | cons character others induction =>
      rw [List.mem_cons, not_or] at flat
      rw [List.cons_append, skipLineComment_other (Ne.symm flat.1),
        induction flat.2]

theorem Trivia.lineComment
    {body : Text} (flat : '\n' ∉ body) (lineBreak : LineBreak) :
    Trivia ('/' :: '/' :: (body ++ lineBreak.text)) := by
  intro rest
  cases lineBreak with
  | lf =>
      rw [List.cons_append, List.cons_append, skipTrivia, List.append_assoc]
      exact skipLineComment_append flat rest
  | crlf =>
      have flat : '\n' ∉ body ++ ['\r'] := by simp [flat]
      have skipped := skipLineComment_append flat rest
      rw [List.cons_append, List.cons_append, skipTrivia, ← skipped]
      simp [LineBreak.text]

private theorem splitLine?_slash {text line rest : Text} {lineBreak : LineBreak}
    (found : Text.splitLine? ('/' :: text) = some (line, lineBreak, rest)) :
    ∃ others, line = '/' :: others ∧
      Text.splitLine? text = some (others, lineBreak, rest) := by
  rw [Text.splitLine?.eq_4 _ _ (by decide) (by simp)] at found
  obtain ⟨⟨others, found', after⟩, split, same⟩ :=
    Option.map_eq_some_iff.1 found
  simp only [Prod.mk.injEq] at same
  obtain ⟨rfl, rfl, rfl⟩ := same
  exact ⟨others, rfl, split⟩

theorem LineTrivia.splitLine? {text line rest : Text} {lineBreak : LineBreak}
    (trivia : LineTrivia text)
    (found : Text.splitLine? text = some (line, lineBreak, rest))
    (other : LineBreak) : Trivia (line ++ other.text) := by
  have breaks : Trivia other.text := .of_all (by cases other <;> rfl)
  induction trivia generalizing line with
  | nil => contradiction
  | @gap character others gap _ induction =>
      rw [Text.splitLine?.eq_def] at found
      split at found
      · contradiction
      · cases found
        exact breaks
      · cases found
        exact breaks
      · next same =>
          cases same
          obtain ⟨⟨inner, found', after⟩, split, same⟩ :=
            Option.map_eq_some_iff.1 found
          simp only [Prod.mk.injEq] at same
          obtain ⟨rfl, rfl, rfl⟩ := same
          exact (induction split).cons gap
  | @comment body others flat _ induction =>
      obtain ⟨behind, rfl, further⟩ := splitLine?_slash found
      obtain ⟨inner, rfl, last⟩ := splitLine?_slash further
      exact .lineComment (Text.newline_notMem_line last) other

/-- The comment on the first line is trivia together with any line break behind
it. -/
theorem LineTrivia.lineComment
    {text : Text} (trivia : LineTrivia text) (other : LineBreak) :
    Trivia (text.lineComment ++ other.text) := by
  rcases Text.lineComment_cases text with none' | ⟨lineBreak, rest, found, -⟩
  · rw [none']
    exact .of_all (by cases other <;> rfl)
  · exact trivia.splitLine? found other

private theorem lastLine_go_append
    {body : Text} (flat : '\n' ∉ body) (line rest : Text) :
    Text.lastLine.go line (body ++ '\n' :: rest) =
      Text.lastLine.go rest rest := by
  induction body with
  | nil => rfl
  | cons character others induction =>
      rw [List.mem_cons, not_or] at flat
      rw [List.cons_append, Text.lastLine.go, induction flat.2]
      exact Ne.symm flat.1

private theorem LineTrivia.lastLine_go
    {text : Text} (trivia : LineTrivia text) (line : Text) :
    (∀ character ∈ text, isGap character = true) ∧
    Text.lastLine.go line text = line ∨
      Trivia (Text.lastLine.go line text) := by
  have afresh {text : Text} (found :
      (∀ character ∈ text, isGap character = true) ∧
      Text.lastLine.go text text = text ∨ Trivia (Text.lastLine.go text text)) :
      Trivia (Text.lastLine.go text text) := by
    rcases found with ⟨gaps, same⟩ | closes
    · rw [same]
      exact .of_gaps gaps
    · exact closes
  induction trivia generalizing line with
  | nil => exact .inl ⟨by simp, rfl⟩
  | @gap character others gap _ induction =>
      by_cases feed : character = '\n'
      · subst feed
        exact .inr (afresh (induction others))
      · rw [Text.lastLine.go]
        · refine (induction line).imp_left fun found => ⟨?_, found.2⟩
          intro other inside
          rcases List.mem_cons.1 inside with rfl | inside
          · exact gap
          · exact found.1 other inside
        · exact feed
  | @comment body others flat _ induction =>
      have flat : '\n' ∉ '/' :: '/' :: body := by simpa using flat
      have skipped := lastLine_go_append flat line others
      rw [List.cons_append, List.cons_append] at skipped
      rw [skipped]
      exact .inr (afresh (induction others))

theorem LineTrivia.lastLine {text : Text} (trivia : LineTrivia text) :
    Trivia text.lastLine := by
  rcases trivia.lastLine_go text with ⟨gaps, same⟩ | closes
  · rw [Text.lastLine, same]
    exact .of_gaps gaps
  · exact closes

end ConfigEdit
