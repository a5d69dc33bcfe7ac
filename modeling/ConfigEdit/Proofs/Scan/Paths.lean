import ConfigEdit.Proofs.Scan.Words

/-!
# Identifier paths

What `Text.isIdentifierPath` accepts is read as a path up to its end: the pieces
between the points are identifiers, and so a path goes on with each of them.
-/

namespace ConfigEdit

theorem identifierPathEnd_parts
    {word rest : Text} (all : word.all isIdentifierPart = true) :
    identifierPathEnd (word ++ rest) = identifierPathEnd rest := by
  induction word with
  | nil => rfl
  | cons character others induction =>
      rw [List.all_cons, Bool.and_eq_true] at all
      have further := induction all.2
      cases shape : others ++ rest with
      | nil =>
          have empty : rest = [] := by simp_all
          simp [empty, show others = [] by simp_all, identifierPathEnd, all.1]
      | cons next tail =>
          rw [List.cons_append, shape, identifierPathEnd, if_pos all.1, ← shape,
            further]

/-- A path of which no character is a part of an identifier goes on behind a
point. -/
theorem identifierPathEnd_eq_nil {character : Char} {rest : Text}
    (complete : identifierPathEnd (character :: rest) = [])
    (notPart : isIdentifierPart character = false) :
    ∃ next others,
      character = '.' ∧ rest = next :: others ∧ isIdentifierStart next = true ∧
      identifierPathEnd others = [] := by
  cases rest with
  | nil => simp [identifierPathEnd, notPart] at complete
  | cons next others =>
      rw [identifierPathEnd, if_neg (by simp [notPart])] at complete
      split at complete
      · next point =>
          rw [Bool.and_eq_true, decide_eq_true_eq] at point
          exact ⟨next, others, point.1, rfl, point.2, complete⟩
      · contradiction

theorem identifier_of_isIdentifier
    {name : Text} (identifier : name.isIdentifier = true) :
    ∃ first others, name = first :: others ∧ isIdentifierStart first = true ∧
      others.all isIdentifierPart = true := by
  have start {character : Char} (plain : isPlainStart character = true) :
      isIdentifierStart character = true := by
    rw [isIdentifierStart, ← isPlainStart, plain, Bool.true_or]
  cases name with
  | nil => cases identifier
  | cons first others =>
      rw [Text.isIdentifier, Bool.and_eq_true, List.all_eq_true] at identifier
      refine ⟨first, others, rfl, start identifier.1,
        List.all_eq_true.2 fun other inside => ?_⟩
      have part := identifier.2 other inside
      rw [Bool.or_eq_true] at part
      rcases part with plain | digit
      · simp [isIdentifierPart, start plain]
      · simp [isIdentifierPart, digit]

theorem Text.exists_pieces (separator : Char) (text : Text) :
    ∃ piece others, text.pieces separator = piece :: others := by
  cases text with
  | nil => exact ⟨_, _, rfl⟩
  | cons character rest =>
      rw [pieces]
      split
      · exact ⟨_, _, rfl⟩
      · split <;> exact ⟨_, _, rfl⟩

theorem Text.pieces_cons {separator character : Char} {rest piece : Text}
    {others : List Text} (different : character ≠ separator)
    (cut : rest.pieces separator = piece :: others) :
    Text.pieces separator (character :: rest) =
      (character :: piece) :: others := by
  rw [pieces, if_neg different, cut]

/-- Where the first piece goes on with an identifier and the others are
identifiers, a path is read to its end. -/
theorem identifierPathEnd_of_pieces {path piece : Text} {others : List Text}
    (cut : path.pieces '.' = piece :: others)
    (all : piece.all isIdentifierPart = true)
    (identifiers : ∀ other ∈ others, other.isIdentifier = true) :
    identifierPathEnd path = [] := by
  have part {character : Char} {rest : Text} (different : character ≠ '.')
      (cut : Text.pieces '.' (character :: rest) = piece :: others) :
      isIdentifierPart character = true := by
    obtain ⟨head, tail, further⟩ := Text.exists_pieces '.' rest
    rw [Text.pieces_cons different further] at cut
    obtain ⟨rfl, -⟩ := List.cons.inj cut
    rw [List.all_cons, Bool.and_eq_true] at all
    exact all.1
  match path with
  | [] => rfl
  | character :: rest =>
      by_cases point : character = '.'
      · subst point
        rw [Text.pieces, if_pos rfl] at cut
        obtain ⟨rfl, same⟩ := List.cons.inj cut
        obtain ⟨head, tail, further⟩ := Text.exists_pieces '.' rest
        rw [further] at same
        obtain ⟨next, more, rfl, starts, all'⟩ :=
          identifier_of_isIdentifier
            (identifiers head (same ▸ List.mem_cons_self))
        have notPoint : next ≠ '.' := by
          rintro rfl
          exact absurd starts (by decide)
        cases rest with
        | nil => cases further
        | cons first rest =>
            obtain ⟨head, tail', cut'⟩ := Text.exists_pieces '.' rest
            have firstPoint : first ≠ '.' := by
              rintro rfl
              rw [Text.pieces, if_pos rfl] at further
              cases further
            rw [Text.pieces_cons firstPoint cut'] at further
            obtain ⟨same', rfl⟩ := List.cons.inj further
            obtain ⟨rfl, rfl⟩ := List.cons.inj same'
            rw [identifierPathEnd, if_neg (by decide),
              if_pos (by simp [starts])]
            exact identifierPathEnd_of_pieces cut' all' fun other inside =>
              identifiers other (same ▸ List.mem_cons_of_mem _ inside)
      · have isPart := part point cut
        obtain ⟨head, tail, further⟩ := Text.exists_pieces '.' rest
        rw [Text.pieces_cons point further] at cut
        obtain ⟨rfl, rfl⟩ := List.cons.inj cut
        rw [List.all_cons, Bool.and_eq_true] at all
        have ended := identifierPathEnd_of_pieces further all.2 identifiers
        cases rest with
        | nil => simp [identifierPathEnd, isPart]
        | cons next more => rw [identifierPathEnd, if_pos isPart, ended]
termination_by path.length

theorem identifierPath_of_isIdentifierPath
    {text : Text} (isPath : text.isIdentifierPath = true) :
    ∃ first path, text = first :: path ∧ isIdentifierStart first = true ∧
      identifierPathEnd path = [] := by
  rw [Text.isIdentifierPath, Bool.and_eq_true, List.all_eq_true] at isPath
  obtain ⟨-, all⟩ := isPath
  obtain ⟨piece, others, cut⟩ := Text.exists_pieces '.' text
  rw [cut] at all
  obtain ⟨first, path, rfl, starts, parts⟩ :=
    identifier_of_isIdentifier (all piece List.mem_cons_self)
  cases text with
  | nil => cases cut
  | cons character rest =>
      obtain ⟨head, tail, further⟩ := Text.exists_pieces '.' rest
      have different : character ≠ '.' := by
        rintro rfl
        rw [Text.pieces, if_pos rfl] at cut
        cases cut
      rw [Text.pieces_cons different further] at cut
      obtain ⟨same, rfl⟩ := List.cons.inj cut
      obtain ⟨rfl, rfl⟩ := List.cons.inj same
      exact ⟨_, _, rfl, starts,
          identifierPathEnd_of_pieces further parts fun other inside =>
        all other (List.mem_cons_of_mem _ inside)⟩

end ConfigEdit
