import ConfigEdit.Document.Parse
import ConfigEdit.Proofs.Scan.Tokens
import ConfigEdit.Proofs.Scan.Words

/-!
# Boundaries

Trivia, and a text in front of which an expression ends, begin with a
character that no word and no key goes on with.  A character that is nothing
special is a token of its own, so that a text of such characters is a run.
-/

namespace ConfigEdit

/-- Blanks, the slash of a comment, closers and separators. -/
def isBoundary (character : Char) : Bool :=
  isGap character || character = '/' || isCloser character ||
    isSeparator character

/-- Nothing goes on with a boundary. -/
theorem isBoundary_cases
    {character : Char} (boundary : isBoundary character = true) :
    isIdentifierPart character = false ∧ isNumericKeyPart character = false ∧
      character ≠ '.' := by
  simp only [isBoundary, isGap, isCloser, isSeparator, Bool.or_eq_true,
    decide_eq_true_eq] at boundary
  rcases boundary with
    ((((((rfl | rfl) | rfl) | rfl) | rfl) | rfl) | ((rfl | rfl) | rfl)) |
      (rfl | rfl)
  all_goals decide

/-- The text is at its end or begins with a boundary. -/
def BeginsAtBoundary (text : Text) : Prop :=
  ∀ character ∈ text.head?, isBoundary character = true

private theorem isBoundary_or_token (first : Char) (others : Text) :
    isBoundary first = true ∨ BeginsToken (first :: others) := by
  by_cases gap : isGap first = true
  · exact .inl (by simp [isBoundary, gap])
  by_cases slash : first = '/'
  · exact .inl (by simp [isBoundary, slash])
  · exact .inr (skipTrivia_token (by simpa using gap) slash others)

theorem Trivia.beginsAtBoundary {trivia : Text} (complete : Trivia trivia) :
    BeginsAtBoundary trivia := by
  intro character head
  cases trivia with
  | nil => simp at head
  | cons first others =>
      cases head
      rcases isBoundary_or_token character (others ++ []) with boundary | stays
      · exact boundary
      · -- A token is not stepped over.
        rw [BeginsToken, ← List.cons_append, complete] at stays
        simp [skipTrivia] at stays

theorem Stops.beginsAtBoundary {text : Text} (stops : Stops text) :
    BeginsAtBoundary text := by
  intro character head
  cases text with
  | nil => simp at head
  | cons first others =>
      cases head
      rcases isBoundary_or_token character others with boundary | stays
      · exact boundary
      · rcases stops.ends stays with closes | separates
        · simp [isBoundary, closes]
        · simp [isBoundary, separates]

namespace BeginsAtBoundary

variable {text other : Text}

theorem endsAt_part (boundary : BeginsAtBoundary text) :
    EndsAt isIdentifierPart text :=
  fun character head => (isBoundary_cases (boundary character head)).1

theorem endsAt_numeric (boundary : BeginsAtBoundary text) :
    EndsAt isNumericKeyPart text :=
  fun character head => (isBoundary_cases (boundary character head)).2.1

theorem endsWord (boundary : BeginsAtBoundary text) : EndsWord text := by
  cases text with
  | nil => exact EndsWord.nil
  | cons first others =>
      obtain ⟨notPart, -, notPoint⟩ := isBoundary_cases (boundary first rfl)
      exact endsWord_of_head others notPart notPoint

theorem append (boundary : BeginsAtBoundary text) (more : text ≠ []) :
    BeginsAtBoundary (text ++ other) := by
  intro character head
  rw [List.head?_append_of_ne_nil _ more] at head
  exact boundary character head

end BeginsAtBoundary

theorem EndsWord.congr_right {left right other : Text}
    (ends : EndsWord (left ++ right)) (more : left ≠ [])
    (further : EndsAt isIdentifierPart other) : EndsWord (left ++ other) := by
  cases left with
  | nil => contradiction
  | cons first rest =>
      have notPart := ends.not_part
      cases rest with
      | nil =>
          have alone : EndsWord [first] := by
            simp [EndsWord, identifierPathEnd, notPart]
          exact alone.append (List.cons_ne_nil _ _) further
      | cons second others =>
          rw [EndsWord, List.cons_append, List.cons_append, identifierPathEnd,
            if_neg (by simp [notPart])] at ends
          rw [EndsWord, List.cons_append, List.cons_append, identifierPathEnd,
            if_neg (by simp [notPart])]
          split at ends
          · have shorter :=
              (identifierPathEnd_suffix (others ++ right)).length_le
            rw [ends] at shorter
            simp only [List.length_cons] at shorter
            omega
          · next notPoint => rw [if_neg notPoint]

/-- The characters that are no tokens of their own, and the slash. -/
def specialCharacters : List Char :=
  [' ', '\t', '\n', '\x0c', '\r', '(', '[', '{', ')', ']', '}', ',', ';',
    '\x27', '\x22',
    '\x60', '/']

theorem isPlain_of_not_special
    {character : Char} (no : character ∉ specialCharacters) :
    isPlain character = true ∧ character ≠ '/' := by
  simp only [specialCharacters, List.mem_cons, List.not_mem_nil, or_false,
    not_or] at no
  have noOpener : closerOf? character = none := by
    rw [closerOf?.eq_def]
    split <;> simp_all
  simp [isPlain, isGap, isCloser, isSeparator, isQuotationMark, noOpener, no]

/-- Characters of a class without special ones are tokens of their own. -/
theorem isPlain_of_class {continues : Char → Bool} {character : Char}
    (no : specialCharacters.all (fun special => !continues special) = true)
    (inside : continues character = true) :
    isPlain character = true ∧ character ≠ '/' := by
  apply isPlain_of_not_special
  intro special
  have := List.all_eq_true.1 no character special
  simp [inside] at this

theorem isPlain_of_part
    {character : Char} (part : isIdentifierPart character = true) :
    isPlain character = true ∧ character ≠ '/' :=
  isPlain_of_class (by decide) part

theorem isPlain_of_numeric
    {character : Char} (part : isNumericKeyPart character = true) :
    isPlain character = true ∧ character ≠ '/' :=
  isPlain_of_class (by decide) part

theorem Runs.of_plain {closers : List Char} {text : Text}
    (plain : ∀ character ∈ text, isPlain character = true ∧ character ≠ '/') :
    Runs closers text closers := by
  induction text with
  | nil => exact .nil
  | cons character others induction =>
      obtain ⟨stands, notSlash⟩ := plain character List.mem_cons_self
      refine @Runs.cons closers closers closers [] [character] others Trivia.nil
        (.plain stands) (.of_getLast? (by simpa using notSlash)) ?_
      exact induction fun other inside =>
        plain other (List.mem_cons_of_mem _ inside)

theorem getLast?_ne_slash {text : Text}
    (plain : ∀ character ∈ text, isPlain character = true ∧ character ≠ '/') :
    text.getLast? ≠ some '/' := by
  intro last
  exact (plain '/' (List.mem_of_getLast? last)).2 rfl

theorem isPlain_of_path {path : Text} (complete : identifierPathEnd path = []) :
    ∀ character ∈ path, isPlain character = true ∧ character ≠ '/' := by
  intro character inside
  rcases part_or_point_of_path complete character inside with part | rfl
  · exact isPlain_of_part part
  · decide

theorem isPlain_of_word
    {first : Char} {path : Text} (starts : isIdentifierStart first = true)
    (complete : identifierPathEnd path = []) :
    ∀ character ∈ first :: path,
      isPlain character = true ∧ character ≠ '/' := by
  intro character inside
  rcases List.mem_cons.1 inside with rfl | inside
  · exact isPlain_of_part (by simp [isIdentifierPart, starts])
  · exact isPlain_of_path complete character inside

theorem isPlain_of_parts
    {first : Char} {others : Text} (starts : isIdentifierStart first = true)
    (all : others.all isIdentifierPart = true) :
    ∀ character ∈ first :: others,
      isPlain character = true ∧ character ≠ '/' := by
  intro character inside
  apply isPlain_of_part
  rcases List.mem_cons.1 inside with rfl | inside
  · simp [isIdentifierPart, starts]
  · exact List.all_eq_true.1 all character inside

theorem isPlain_of_numericKey {first : Char} {others : Text}
    (digit : first.isDigit = true) (all : others.all isNumericKeyPart = true) :
    ∀ character ∈ first :: others,
      isPlain character = true ∧ character ≠ '/' := by
  intro character inside
  apply isPlain_of_numeric
  rcases List.mem_cons.1 inside with rfl | inside
  · simp [isNumericKeyPart, Char.isAlphanum, digit]
  · exact List.all_eq_true.1 all character inside

end ConfigEdit
