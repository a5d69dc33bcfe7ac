/-!
# Texts

A text is the list of its characters.  All syntax in this library is read by
recursion on that list, and a place in a text is named by the part that has
not been read yet: a `Place whole` is a suffix of `whole`.

Byte offsets are a measure on texts.  `utf8Size` counts the bytes of a text
and `Position.ofOffset` finds the line and the column of an offset.
-/

namespace ConfigEdit

/-- Texts are lists of characters. -/
abbrev Text := List Char

/-- A character of a class is none of the characters outside it. -/
theorem ne_of_class {isInside : Char → Bool} {first other : Char}
    (inside : isInside first = true) (outside : isInside other = false) :
    first ≠ other := by
  rintro rfl
  rw [inside] at outside
  contradiction

namespace Text

/-- The number of bytes of a text in UTF-8. -/
def utf8Size : Text → Nat
  | [] => 0
  | character :: rest => character.utf8Size + utf8Size rest

@[simp] theorem utf8Size_nil : utf8Size [] = 0 := rfl

@[simp] theorem utf8Size_cons (character : Char) (rest : Text) :
    utf8Size (character :: rest) = character.utf8Size + utf8Size rest := rfl

theorem utf8Size_append (left right : Text) :
    utf8Size (left ++ right) = utf8Size left + utf8Size right := by
  induction left with
  | nil => simp
  | cons character rest induction => simp [induction, Nat.add_assoc]

theorem utf8Size_le_of_suffix {rest text : Text} (inside : rest <:+ text) :
    utf8Size rest ≤ utf8Size text := by
  obtain ⟨before, rfl⟩ := inside
  rw [utf8Size_append]
  omega

/-- The pieces of a text between the occurrences of a separator.  There is one
piece more than there are separators. -/
def pieces (separator : Char) : Text → List Text
  | [] => [[]]
  | character :: rest =>
      if character = separator then [] :: pieces separator rest
      else match pieces separator rest with
        | [] => [[character]]
        | piece :: others => (character :: piece) :: others

/-- Texts joined with a separator between neighbours. -/
def joined (separator : Text) : List Text → Text
  | [] => []
  | [piece] => piece
  | piece :: others => piece ++ separator ++ joined separator others

/-- What follows the last line feed of a text; the whole text if it has none. -/
def lastLine (text : Text) : Text :=
  go text text
where
  go (line : Text) : Text → Text
    | [] => line
    | '\n' :: rest => go rest rest
    | _ :: rest => go line rest

end Text

/-- A place in the text `whole`: the part of the text that is still unread. -/
abbrev Place (whole : Text) := { rest : Text // rest <:+ whole }

namespace Place

/-- The beginning of a text. -/
abbrev start (whole : Text) : Place whole := ⟨whole, List.suffix_refl whole⟩

/-- A place in what is left at another place is a place in the whole text. -/
abbrev within {whole : Text} (outer : Place whole) (inner : Place outer.1) :
    Place whole :=
  ⟨inner.1, inner.2.trans outer.2⟩

/-- A place in a text is a place in the text with one more character in
front. -/
abbrev behind (character : Char) {rest : Text} (place : Place rest) :
    Place (character :: rest) :=
  ⟨place.1, place.2.trans (List.suffix_cons character rest)⟩

/-- The part of the text that was read to get to a place. -/
def taken {whole : Text} (place : Place whole) : Text :=
  whole.take (whole.length - place.1.length)

theorem length_le {whole : Text} (place : Place whole) :
    place.1.length ≤ whole.length :=
  place.2.length_le

/-- Nothing is lost between the beginning and a place. -/
theorem taken_append {whole : Text} (place : Place whole) :
    place.taken ++ place.1 = whole := by
  obtain ⟨rest, before, equality⟩ := place
  subst equality
  simp [taken]

end Place

/-- The text between two places of one text, the first of which comes first. -/
def Text.upTo (start finish : Text) : Text :=
  start.take (start.length - finish.length)

/-- A line and a column, both counted from one. -/
structure Position where
  line : Nat
  column : Nat
deriving DecidableEq, Repr

/-- The place of a byte offset: what is left of the text from the character
that the offset lies in, and how many bytes of that character lie before the
offset.  Past the end nothing is left and the bytes past the end are counted. -/
def Text.seek : Text → Nat → Text × Nat
  | [], offset => ([], offset)
  | character :: rest, offset =>
      if offset < character.utf8Size then (character :: rest, offset)
      else seek rest (offset - character.utf8Size)

/-- The position of a byte offset.  The column counts characters, unless the
offset lies inside a character: then it counts bytes. -/
def Position.ofOffset (text : Text) (offset : Nat) : Position :=
  let (rest, inside) := text.seek offset
  let before := text.upTo rest
  let line := Text.lastLine before
  { line := before.count '\n' + 1
    column :=
      if inside = 0 then line.length + 1
      else Text.utf8Size line + inside + 1 }

end ConfigEdit
