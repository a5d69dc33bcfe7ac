import ConfigEdit.Text.Line

/-!
# Lines put together again

The first line of a text, its line break and what follows it are the text, and
so are the comment on the first line and the text without it.
-/

namespace ConfigEdit.Text

theorem splitLine?_eq_some {text line rest : Text} {lineBreak : LineBreak}
    (found : splitLine? text = some (line, lineBreak, rest)) :
    text = line ++ (lineBreak.text ++ rest) := by
  fun_induction splitLine? text generalizing line with
  | case1 => contradiction
  | case2 others =>
      cases found
      rfl
  | case3 others =>
      cases found
      rfl
  | case4 character others _ _ induction =>
      obtain ⟨⟨inner, found', after⟩, split, same⟩ :=
        Option.map_eq_some_iff.1 found
      simp only [Prod.mk.injEq] at same
      obtain ⟨rfl, rfl, rfl⟩ := same
      rw [List.cons_append, ← induction split]

theorem lineComment_append (text : Text) :
    text.lineComment ++ text.withoutLineComment = text := by
  rw [lineComment, withoutLineComment, splitLineComment]
  split
  · next line lineBreak rest found =>
      split
      · rfl
      · exact (splitLine?_eq_some found).symm
  · rfl

theorem splitLine?_of_flat {text : Text} (flat : text.contains '\n' = false) :
    splitLine? text = none := by
  fun_induction splitLine? text with
  | case1 => rfl
  | case2 others => simp at flat
  | case3 others => simp at flat
  | case4 character others _ _ induction =>
      rw [induction (by simp_all), Option.map_none]

theorem lineComment_of_flat {text : Text} (flat : text.contains '\n' = false) :
    text.lineComment = [] := by
  rw [lineComment, splitLineComment, splitLine?_of_flat flat]

theorem newline_notMem_line {text line rest : Text} {lineBreak : LineBreak}
    (found : splitLine? text = some (line, lineBreak, rest)) : '\n' ∉ line := by
  fun_induction splitLine? text generalizing line with
  | case1 => contradiction
  | case2 others =>
      cases found
      simp
  | case3 others =>
      cases found
      simp
  | case4 character others notFeed _ induction =>
      obtain ⟨⟨inner, found', after⟩, split, same⟩ :=
        Option.map_eq_some_iff.1 found
      simp only [Prod.mk.injEq] at same
      obtain ⟨rfl, rfl, rfl⟩ := same
      rw [List.mem_cons, not_or]
      exact ⟨fun feed => notFeed feed.symm, induction split⟩

theorem splitLine?_append {line : Text} (flat : '\n' ∉ line)
    (noReturn : '\r' ∉ line) (lineBreak : LineBreak) (rest : Text) :
    splitLine? (line ++ (lineBreak.text ++ rest)) =
      some (line, lineBreak, rest) := by
  induction line with
  | nil => cases lineBreak <;> rfl
  | cons character others induction =>
      rw [List.mem_cons, not_or] at flat noReturn
      rw [List.cons_append, splitLine?, induction flat.2 noReturn.2]
      · rfl
      · exact Ne.symm flat.1
      · intro _ isReturn
        exact absurd isReturn.symm noReturn.1

theorem lineComment_lineBreak (lineBreak : LineBreak) (rest : Text) :
    (lineBreak.text ++ rest).lineComment = [] := by
  cases lineBreak <;> rfl

/-- The comment of a text, if there is any, is its first line. -/
theorem lineComment_cases (text : Text) :
    text.lineComment = [] ∨ ∃ lineBreak rest,
      splitLine? text = some (text.lineComment, lineBreak, rest) ∧
        text.lineComment.blank = false := by
  cases found : splitLine? text with
  | none => exact .inl (by simp [lineComment, splitLineComment, found])
  | some parts =>
      obtain ⟨line, lineBreak, rest⟩ := parts
      cases blank : line.blank with
      | true =>
          exact .inl (by simp [lineComment, splitLineComment, found, blank])
      | false =>
          have comment : text.lineComment = line := by
            simp [lineComment, splitLineComment, found, blank]
          exact .inr ⟨lineBreak, rest, by rw [comment], by rw [comment, blank]⟩

/-- The comment of a text stays the comment in front of any line break. -/
theorem lineComment_lineComment {text : Text} (noReturn : '\r' ∉ text)
    (lineBreak : LineBreak) (rest : Text) :
    (text.lineComment ++ (lineBreak.text ++ rest)).lineComment =
      text.lineComment := by
  rcases lineComment_cases text with none' | ⟨old, behind, found, notBlank⟩
  · rw [none']
    exact lineComment_lineBreak lineBreak rest
  · have flat := newline_notMem_line found
    have noReturn : '\r' ∉ text.lineComment := by
      intro inside
      rw [← lineComment_append text] at noReturn
      exact noReturn (List.mem_append_left _ inside)
    have split := splitLine?_append flat noReturn lineBreak rest
    generalize text.lineComment = comment at notBlank split
    simp [lineComment, splitLineComment, split, notBlank]

theorem withoutLineComment_withoutLineComment (text : Text) :
    text.withoutLineComment.withoutLineComment = text.withoutLineComment := by
  rw [withoutLineComment, withoutLineComment, splitLineComment.eq_def text]
  split
  · next line lineBreak rest found =>
      split
      · next blank => simp [splitLineComment, found, blank]
      · cases lineBreak <;> rfl
  · next none' => simp [splitLineComment, none']

private theorem newline_notMem_go {passed rest : Text} (flat : '\n' ∉ passed) :
    '\n' ∉ lastLine.go (passed ++ rest) rest := by
  induction rest generalizing passed with
  | nil => simpa [lastLine.go] using flat
  | cons character rest induction =>
      by_cases feed : character = '\n'
      · subst feed
        exact @induction [] (by simp)
      · have longer := @induction (passed ++ [character])
          (by simpa [flat] using Ne.symm feed)
        rw [lastLine.go]
        · simpa using longer
        · exact feed

theorem newline_notMem_lastLine (text : Text) : '\n' ∉ text.lastLine :=
  @newline_notMem_go [] text (by simp)

end ConfigEdit.Text
