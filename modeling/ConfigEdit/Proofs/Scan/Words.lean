import ConfigEdit.Scan.Identifier
import Mathlib.Data.List.TakeWhile

/-!
# Words

An identifier path is read as far as it goes, so what has been read depends on
the text behind it only through the characters that would continue it.
`EndsWord` says of a text that it continues no path.
-/

namespace ConfigEdit

/-- The text does not go on with an identifier path. -/
def EndsWord (text : Text) : Prop := identifierPathEnd text = text

/-- The text goes on with none of these characters. -/
def EndsAt (continues : Char → Bool) (text : Text) : Prop :=
  ∀ character ∈ text.head?, continues character = false

theorem upTo_append (left right : Text) :
    Text.upTo (left ++ right) right = left := by
  simp [Text.upTo]

theorem upTo_of_eq_append
    {text left right : Text} (split : text = left ++ right) :
    text.upTo right = left := by
  rw [split, upTo_append]

theorem takeWhile_append_of_endsAt {continues : Char → Bool} {left right : Text}
    (all : left.all continues = true) (ends : EndsAt continues right) :
    (left ++ right).takeWhile continues = left := by
  rw [List.takeWhile_append_of_pos (by simpa using all)]
  cases right with
  | nil => simp
  | cons character others => simp [ends character rfl]

theorem dropWhile_append_of_endsAt {continues : Char → Bool} {left right : Text}
    (all : left.all continues = true) (ends : EndsAt continues right) :
    (left ++ right).dropWhile continues = right := by
  rw [List.dropWhile_append_of_pos (by simpa using all)]
  cases right with
  | nil => rfl
  | cons character others => simp [ends character rfl]

theorem exists_endsAt (continues : Char → Bool) (text : Text) :
    ∃ left right, text = left ++ right ∧ left.all continues = true ∧
      EndsAt continues right ∧ text.takeWhile continues = left ∧
      text.dropWhile continues = right := by
  refine ⟨text.takeWhile continues, text.dropWhile continues,
    (List.takeWhile_append_dropWhile).symm, List.all_takeWhile, ?_, rfl, rfl⟩
  intro character found
  have stopped := List.head?_dropWhile_not continues text
  rw [found] at stopped
  simpa using stopped

theorem endsWord_of_head {character : Char} (rest : Text)
    (notPart : isIdentifierPart character = false)
    (notPoint : character ≠ '.') :
    EndsWord (character :: rest) := by
  cases rest with
  | nil => simp [EndsWord, identifierPathEnd, notPart]
  | cons next others => simp [EndsWord, identifierPathEnd, notPart, notPoint]

theorem EndsWord.nil : EndsWord [] := rfl

/-- Nothing ends a word but what its first two characters say. -/
theorem EndsWord.not_part {character : Char} {rest : Text}
    (ends : EndsWord (character :: rest)) :
    isIdentifierPart character = false := by
  cases part : isIdentifierPart character with
  | false => rfl
  | true =>
      have shorter :
          (identifierPathEnd (character :: rest)).length ≤ rest.length := by
        cases rest with
        | nil => simp [identifierPathEnd, part]
        | cons next others =>
            rw [identifierPathEnd, if_pos part]
            exact (identifierPathEnd_suffix _).length_le
      rw [EndsWord] at ends
      rw [ends] at shorter
      simp only [List.length_cons] at shorter
      omega

/-- What has been read of a path is a path, and what is left ends it. -/
theorem exists_endsWord (text : Text) :
    ∃ path, text = path ++ identifierPathEnd text ∧
      identifierPathEnd path = [] ∧
      EndsWord (identifierPathEnd text) := by
  fun_induction identifierPathEnd text with
  | case1 => exact ⟨[], rfl, rfl, rfl⟩
  | case2 character part =>
      exact ⟨[character], rfl, by simp [identifierPathEnd, part], rfl⟩
  | case3 character notPart =>
      exact ⟨[], rfl, rfl, by simp [EndsWord, identifierPathEnd, notPart]⟩
  | case4 character next rest part induction =>
      obtain ⟨path, split, complete, ends⟩ := induction
      refine ⟨character :: path, by rw [List.cons_append, ← split], ?_, ends⟩
      cases path with
      | nil => simp [identifierPathEnd, part]
      | cons second others => rw [identifierPathEnd, if_pos part, complete]
  | case5 character next rest notPart point induction =>
      obtain ⟨path, split, complete, ends⟩ := induction
      refine ⟨character :: next :: path,
        by rw [List.cons_append, List.cons_append, ← split],
        ?_, ends⟩
      rw [identifierPathEnd, if_neg notPart, if_pos point, complete]
  | case6 character next rest notPart notPoint =>
      refine ⟨[], rfl, rfl, ?_⟩
      rw [EndsWord, identifierPathEnd, if_neg notPart, if_neg notPoint]

theorem identifierPathEnd_append
    {path rest : Text} (complete : identifierPathEnd path = [])
    (ends : EndsWord rest) : identifierPathEnd (path ++ rest) = rest := by
  fun_induction identifierPathEnd path with
  | case1 => exact ends
  | case2 character part =>
      cases rest with
      | nil => simp [identifierPathEnd, part]
      | cons next others =>
          rw [List.singleton_append, identifierPathEnd, if_pos part]
          exact ends
  | case3 => contradiction
  | case4 character next others part induction =>
      rw [List.cons_append, List.cons_append, identifierPathEnd, if_pos part]
      exact induction complete
  | case5 character next others notPart point induction =>
      rw [List.cons_append, List.cons_append, identifierPathEnd, if_neg notPart,
        if_pos point]
      exact induction complete
  | case6 => contradiction

theorem part_or_point_of_path
    {path : Text} (complete : identifierPathEnd path = []) :
    ∀ character ∈ path,
      isIdentifierPart character = true ∨ character = '.' := by
  fun_induction identifierPathEnd path with
  | case1 => simp
  | case2 character part => simp [part]
  | case3 => contradiction
  | case4 character next others part induction =>
      intro other inside
      rcases List.mem_cons.1 inside with rfl | inside
      · exact .inl part
      · exact induction complete other inside
  | case5 character next others notPart point induction =>
      rw [Bool.and_eq_true, decide_eq_true_eq] at point
      intro other inside
      rcases List.mem_cons.1 inside with rfl | inside
      · exact .inr point.1
      · rcases List.mem_cons.1 inside with rfl | inside
        · exact .inl (by simp [isIdentifierPart, point.2])
        · exact induction complete other inside
  | case6 => contradiction

/-- More text behind a text that ends a word leaves it so, unless it gives the
point at its end an identifier. -/
theorem EndsWord.append
    {text more : Text} (ends : EndsWord text) (some : text ≠ [])
    (further : EndsAt isIdentifierPart more) : EndsWord (text ++ more) := by
  cases text with
  | nil => contradiction
  | cons character rest =>
      have notPart := ends.not_part
      cases rest with
      | nil =>
          cases more with
          | nil => exact ends
          | cons next others =>
              have notStart : isIdentifierStart next = false := by
                have := further next rfl
                simp only [isIdentifierPart, Bool.or_eq_false_iff] at this
                exact this.1
              simp [EndsWord, identifierPathEnd, notPart, notStart]
      | cons next others =>
          rw [EndsWord, identifierPathEnd, if_neg (by simp [notPart])] at ends
          rw [List.cons_append, List.cons_append, EndsWord, identifierPathEnd,
            if_neg (by simp [notPart])]
          split at ends
          · have shorter := (identifierPathEnd_suffix others).length_le
            rw [ends] at shorter
            simp only [List.length_cons] at shorter
            omega
          · next notPoint => rw [if_neg notPoint]

end ConfigEdit
