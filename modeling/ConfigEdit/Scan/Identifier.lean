import ConfigEdit.Scan.Fault
import ConfigEdit.Text.Identifier

/-!
# Identifiers at a place

An identifier is read as far as it goes.  A path is a chain of identifiers
with points between them; a point that no identifier follows is left unread.
-/

namespace ConfigEdit

/-- The identifier a text begins with, and what follows it. -/
def scanIdentifier? : Text → Option (Text × Text)
  | [] => none
  | first :: rest =>
      if isIdentifierStart first then
        some (first :: rest.takeWhile isIdentifierPart,
          rest.dropWhile isIdentifierPart)
      else none

/-- What follows an identifier path of which the first character has been
read. -/
def identifierPathEnd : Text → Text
  | [] => []
  | [character] => if isIdentifierPart character then [] else [character]
  | character :: next :: rest =>
      if isIdentifierPart character then identifierPathEnd (next :: rest)
      else if character = '.' && isIdentifierStart next then
        identifierPathEnd rest
      else character :: next :: rest

theorem scanIdentifier?_append {text word rest : Text}
    (found : scanIdentifier? text = some (word, rest)) :
    word ++ rest = text := by
  cases text with
  | nil => simp [scanIdentifier?] at found
  | cons first others =>
      simp only [scanIdentifier?] at found
      split at found
      · simp only [Option.some.injEq, Prod.mk.injEq] at found
        obtain ⟨rfl, rfl⟩ := found
        simp [List.takeWhile_append_dropWhile]
      · contradiction

theorem scanIdentifier?_suffix {text word rest : Text}
    (found : scanIdentifier? text = some (word, rest)) : rest <:+ text :=
  ⟨word, scanIdentifier?_append found⟩

theorem identifierPathEnd_suffix (text : Text) :
    identifierPathEnd text <:+ text := by
  fun_induction identifierPathEnd text with
  | case1 => exact List.suffix_refl _
  | case2 => exact List.nil_suffix
  | case3 => exact List.suffix_refl _
  | case4 character next rest _ induction =>
      exact induction.trans (List.suffix_cons _ _)
  | case5 character next rest _ _ induction =>
      exact induction.trans ⟨[character, next], rfl⟩
  | case6 => exact List.suffix_refl _

end ConfigEdit
