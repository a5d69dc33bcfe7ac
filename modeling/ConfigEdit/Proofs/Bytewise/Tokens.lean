import ConfigEdit.Proofs.Bytewise.Scan
import ConfigEdit.Proofs.Scan.Trivia
import ConfigEdit.Proofs.Scan.Words

/-!
# Trivia and tokens over bytes

From a boundary the walks over trivia, strings and identifiers end as the scans
of the text there do: at the boundary where the scan ends, or with the same
fault.
-/

namespace ConfigEdit

theorem skipLineComment_find? (text : Text) :
    (Text.find? ['\n'] text = none ∧ skipLineComment text = .ok []) ∨
      ∃ before after, text = before ++ '\n' :: after ∧
        Text.find? ['\n'] text = some before.utf8Size ∧
        skipLineComment text = skipTrivia ('\n' :: after) := by
  induction text with
  | nil => exact .inl ⟨rfl, by rw [skipLineComment]⟩
  | cons character rest induction =>
      by_cases ends : character = '\n'
      · subst ends
        refine .inr ⟨[], rest, rfl, rfl, ?_⟩
        rw [skipLineComment, skipTrivia_gap (by decide)]
      · have found : Text.find? ['\n'] (character :: rest) =
            (Text.find? ['\n'] rest).map (character.utf8Size + ·) := by
          rw [Text.find?, if_neg]
          simpa [List.isPrefixOf] using Ne.symm ends
        rw [skipLineComment_other ends, found]
        rcases induction with
          ⟨none', ended⟩ | ⟨before, after, rfl, some', ended⟩
        · exact .inl ⟨by rw [none']; rfl, ended⟩
        · exact .inr ⟨character :: before, after, rfl,
            by rw [some']; rfl, ended⟩

theorem skipBlockComment_find? (opener text : Text) :
    (Text.find? ['*', '/'] text = none ∧
        skipBlockComment opener text =
          .error (.here .unterminatedComment opener)) ∨
      ∃ before after, text = before ++ '*' :: '/' :: after ∧
        Text.find? ['*', '/'] text = some before.utf8Size ∧
        skipBlockComment opener text = skipTrivia after := by
  induction text with
  | nil => exact .inl ⟨rfl, by rw [skipBlockComment]⟩
  | cons character rest induction =>
      by_cases ends : ['*', '/'].isPrefixOf (character :: rest)
      · obtain ⟨after, shape⟩ := List.isPrefixOf_iff_prefix.1 ends
        rw [← shape]
        refine .inr ⟨[], after, rfl, rfl, ?_⟩
        rw [List.cons_append, List.cons_append, List.nil_append,
          skipBlockComment]
      · have notEnd :
            ∀ after, character = '*' → rest = '/' :: after → False := by
          rintro after rfl rfl
          simp [List.isPrefixOf] at ends
        have found : Text.find? ['*', '/'] (character :: rest) =
            (Text.find? ['*', '/'] rest).map (character.utf8Size + ·) := by
          rw [Text.find?, if_neg ends]
        rw [skipBlockComment_other notEnd, found]
        rcases induction with
          ⟨none', ended⟩ | ⟨before, after, rfl, some', ended⟩
        · exact .inl ⟨by rw [none']; rfl, ended⟩
        · exact .inr ⟨character :: before, after, rfl,
            by rw [some']; rfl, ended⟩

namespace Walk

open Tape

section Lead

variable (character : Char)

@[simp] theorem isGap_leadByte : isGap (leadByte character) = isGap character :=
  leadByte_congr (fun _ => isGap_beyond) character

@[simp] theorem closerOf?_leadByte :
    closerOf? (leadByte character) = closerOf? character :=
  leadByte_congr (fun _ => closerOf?_beyond) character

@[simp] theorem isCloser_leadByte :
    isCloser (leadByte character) = isCloser character :=
  leadByte_congr (fun _ => isCloser_beyond) character

@[simp] theorem isSeparator_leadByte :
    isSeparator (leadByte character) = isSeparator character :=
  leadByte_congr (fun _ => isSeparator_beyond) character

@[simp] theorem isQuotationMark_leadByte :
    isQuotationMark (leadByte character) = isQuotationMark character :=
  leadByte_congr (fun _ => isQuotationMark_beyond) character

@[simp] theorem isIdentifierStart_leadByte :
    isIdentifierStart (leadByte character) = isIdentifierStart character :=
  leadByte_congr (fun _ => isIdentifierStart_beyond) character

@[simp] theorem isIdentifierPart_leadByte :
    isIdentifierPart (leadByte character) = isIdentifierPart character :=
  leadByte_congr (fun _ => isIdentifierPart_beyond) character

variable {character}

@[simp] theorem leadByte_eq_iff (mark : Char) (ascii : mark.toNat < 128) :
    leadByte character = mark ↔ character = mark :=
  iff_of_eq (leadByte_congr (fun _ beyond =>
    eq_false (ne_of_beyond mark ascii beyond)) character)

end Lead

variable {text rest : Text} {character : Char}

theorem ascii_of_isGap (gap : isGap character = true) :
    character.toNat < 128 := by
  refine Nat.lt_of_not_le fun beyond => ?_
  simp [isGap_beyond beyond] at gap

theorem ascii_of_isQuotationMark (quotes : isQuotationMark character = true) :
    character.toNat < 128 := by
  refine Nat.lt_of_not_le fun beyond => ?_
  simp [isQuotationMark_beyond beyond] at quotes

theorem moveTo_behind
    (inside : character :: rest <:+ text) (ascii : character.toNat < 128) :
    moveTo text (text.offsetOf (character :: rest) + 1) =
      return text.offsetOf rest := by
  rw [offsetOf_of_ascii inside ascii, moveTo_offsetOf]

/-- The cursor one byte on, which may be inside a character. -/
theorem moveTo_inside (inside : character :: rest <:+ text) :
    moveTo text (text.offsetOf (character :: rest) + 1) =
      return text.offsetOf (character :: rest) + 1 :=
  if_pos (offsetOf_lt inside)

theorem moveTo_of_peek
    {offset : Nat} {byte : Char} (found : peek text offset = some byte) :
    moveTo text (offset + 1) = return offset + 1 :=
  if_pos (lt_of_peek found)

theorem offsetOf_append_right
    {before : Text} (inside : before ++ rest <:+ text) :
    text.offsetOf rest = text.offsetOf (before ++ rest) + before.utf8Size := by
  have bound := Text.utf8Size_le_of_suffix inside
  rw [Text.utf8Size_append] at bound
  rw [Text.offsetOf, Text.offsetOf, Text.utf8Size_append]
  omega

theorem peek_offsetOf_iff
    (inside : rest <:+ text) (mark : Char) (ascii : mark.toNat < 128) :
    peek text (text.offsetOf rest) = some mark ↔ rest.head? = some mark := by
  rw [peek_offsetOf inside]
  cases rest <;> simp [leadByte_eq_iff mark ascii]

theorem peek_behind_iff
    (inside : character :: rest <:+ text) (ascii : character.toNat < 128)
    (mark : Char) (markAscii : mark.toNat < 128) :
    peek text (text.offsetOf (character :: rest) + 1) = some mark ↔
      rest.head? = some mark := by
  rw [offsetOf_of_ascii inside ascii,
    peek_offsetOf_iff ((List.suffix_cons _ _).trans inside) mark markAscii]

private theorem trivia_lineComment_step (inside : '/' :: '/' :: rest <:+ text) :
    trivia text (text.offsetOf ('/' :: '/' :: rest)) =
      match Text.find? ['\n'] ('/' :: '/' :: rest) with
      | some length =>
          moveTo text (text.offsetOf ('/' :: '/' :: rest) + length) >>=
            trivia text
      | none => moveTo text text.utf8Size >>= trivia text := by
  have byte := peek_offsetOf_cons inside
  have second := (peek_behind_iff inside (by decide) '/' (by decide)).2 rfl
  rw [trivia, byte]
  simp only [isGap_leadByte, leadByte_eq_iff '/' (by decide), second,
    sliceFrom_offsetOf inside, pure_bind]
  rfl

/-- A line comment leads to the line feed behind it, or to the end of the
text. -/
private theorem trivia_lineComment (inside : '/' :: '/' :: rest <:+ text) :
    ∃ next, next <:+ text ∧ next.length < rest.length + 2 ∧
      trivia text (text.offsetOf ('/' :: '/' :: rest)) =
        trivia text (text.offsetOf next) ∧
      skipTrivia ('/' :: '/' :: rest) = skipTrivia next := by
  have same : skipTrivia ('/' :: '/' :: rest) =
      skipLineComment ('/' :: '/' :: rest) := by
    simp [skipTrivia, skipLineComment]
  rw [trivia_lineComment_step inside, same]
  rcases skipLineComment_find? ('/' :: '/' :: rest) with
    ⟨none', ended⟩ | ⟨before, after, split, some', ended⟩
  · refine ⟨[], List.nil_suffix, by simp, ?_, by rw [ended, skipTrivia]⟩
    rw [none']
    simp only [← offsetOf_nil, moveTo_offsetOf, pure_bind]
  · rw [split] at inside
    refine ⟨'\n' :: after, (List.suffix_append _ _).trans inside, ?_, ?_, ended⟩
    · have lengths := congrArg List.length split
      rw [List.length_append] at lengths
      have more : before ≠ [] := by
        rintro rfl
        simp at split
      have := List.length_pos_iff.2 more
      simp only [List.length_cons] at lengths ⊢
      omega
    · rw [some', split]
      simp only [← offsetOf_append_right inside, moveTo_offsetOf, pure_bind]

private theorem trivia_blockComment_step
    (inside : '/' :: '*' :: rest <:+ text) :
    trivia text (text.offsetOf ('/' :: '*' :: rest)) =
      match Text.find? ['*', '/'] rest with
      | some length =>
          moveTo text (text.offsetOf ('/' :: '*' :: rest) + (length + 4)) >>=
            trivia text
      | none => refuse text (text.offsetOf ('/' :: '*' :: rest))
          .unterminatedComment := by
  have star : '*' :: rest <:+ text := (List.suffix_cons _ _).trans inside
  have behind : rest <:+ text := (List.suffix_cons _ _).trans star
  have twoOn : text.offsetOf ('/' :: '*' :: rest) + 2 = text.offsetOf rest := by
    rw [← offsetOf_of_ascii star (by decide),
      ← offsetOf_of_ascii inside (by decide)]
  have byte := peek_offsetOf_cons inside
  have second := (peek_behind_iff inside (by decide) '*' (by decide)).2 rfl
  rw [trivia, byte]
  simp only [isGap_leadByte, leadByte_eq_iff '/' (by decide), second, twoOn,
    sliceFrom_offsetOf behind, pure_bind]
  rfl

/-- A block comment leads to the text behind it, or is refused. -/
private theorem trivia_blockComment (inside : '/' :: '*' :: rest <:+ text) :
    (∃ next, next <:+ text ∧ next.length < rest.length + 2 ∧
      trivia text (text.offsetOf ('/' :: '*' :: rest)) =
        trivia text (text.offsetOf next) ∧
      skipTrivia ('/' :: '*' :: rest) = skipTrivia next) ∨
    (trivia text (text.offsetOf ('/' :: '*' :: rest)) =
        refuse text (text.offsetOf ('/' :: '*' :: rest)) .unterminatedComment ∧
      skipTrivia ('/' :: '*' :: rest) =
        .error (.here .unterminatedComment ('/' :: '*' :: rest))) := by
  have star : '*' :: rest <:+ text := (List.suffix_cons _ _).trans inside
  have behind : rest <:+ text := (List.suffix_cons _ _).trans star
  have twoOn : text.offsetOf ('/' :: '*' :: rest) + 2 = text.offsetOf rest := by
    rw [← offsetOf_of_ascii star (by decide),
      ← offsetOf_of_ascii inside (by decide)]
  rw [trivia_blockComment_step inside, skipTrivia]
  rcases skipBlockComment_find? ('/' :: '*' :: rest) rest with
    ⟨none', ended⟩ | ⟨before, after, rfl, some', ended⟩
  · exact .inr ⟨by rw [none'], ended⟩
  · have closing : '*' :: '/' :: after <:+ text :=
      (List.suffix_append _ _).trans behind
    have slash : '/' :: after <:+ text := (List.suffix_cons _ _).trans closing
    have reached :
        text.offsetOf ('/' :: '*' :: (before ++ '*' :: '/' :: after)) +
          (before.utf8Size + 4) = text.offsetOf after := by
      rw [← offsetOf_of_ascii slash (by decide),
        ← offsetOf_of_ascii closing (by decide),
        offsetOf_append_right behind, ← twoOn]
      omega
    refine .inl ⟨after, (List.suffix_cons _ _).trans slash,
      by simp; omega, ?_, ended⟩
    rw [some']
    simp only [reached, moveTo_offsetOf, pure_bind]

theorem trivia_eq (inside : rest <:+ text) :
    trivia text (text.offsetOf rest) =
      ofScan text text.offsetOf (skipTrivia rest) := by
  induction shape : rest.length using Nat.strongRecOn generalizing rest with
  | ind length induction =>
  subst shape
  cases rest with
  | nil =>
      rw [trivia, peek_offsetOf_nil, skipTrivia]
      rfl
  | cons character rest =>
      by_cases slash : character = '/'
      · subst slash
        by_cases line : rest.head? = some '/'
        · obtain ⟨others, rfl⟩ := List.head?_eq_some_iff.1 line
          obtain ⟨next, later, shorter, goes, same⟩ := trivia_lineComment inside
          rw [goes, same]
          exact induction _ shorter later rfl
        by_cases block : rest.head? = some '*'
        · obtain ⟨others, rfl⟩ := List.head?_eq_some_iff.1 block
          rcases trivia_blockComment inside with
            ⟨next, later, shorter, goes, same⟩ | ⟨refused, same⟩
          · rw [goes, same]
            exact induction _ shorter later rfl
          · rw [refused, same]
            rfl
        · rw [trivia, peek_offsetOf_cons inside, skipTrivia_slash line block]
          simp [isGap, ofScan, @leadByte_eq_iff '/' '/' (by decide),
            peek_behind_iff inside (by decide) '/' (by decide), line,
            peek_behind_iff inside (by decide) '*' (by decide), block]
      · rw [trivia, peek_offsetOf_cons inside]
        simp only [isGap_leadByte, leadByte_eq_iff '/' (by decide), slash]
        by_cases gap : isGap character = true
        · rw [if_pos gap, moveTo_behind inside (ascii_of_isGap gap),
            skipTrivia_gap gap]
          exact induction _ (by simp) ((List.suffix_cons _ _).trans inside) rfl
        · have stays := skipTrivia_token (by simpa using gap) slash rest
          simp [gap, stays, ofScan]

section Steps

variable {result : Type} {walk : Nat → Walk result}
  (steps : ∀ offset byte, peek text offset = some byte → 128 ≤ byte.toNat →
    walk offset = walk (offset + 1))

include steps

theorem bind_behind (inside : character :: rest <:+ text) :
    (moveTo text (text.offsetOf (character :: rest) + 1) >>= walk) =
      walk (text.offsetOf rest) := by
  rw [moveTo_inside inside, pure_bind, eq_behind walk inside steps]

/-- A walk goes on behind a backslash and one byte, which is behind the
character that begins with this byte. -/
theorem bind_escaped (inside : '\\' :: rest <:+ text) :
    (moveTo text (clamp text (text.offsetOf ('\\' :: rest) + 2)) >>= walk) =
      walk (text.offsetOf rest.tail) := by
  have second : text.offsetOf ('\\' :: rest) + 2 = text.offsetOf rest + 1 := by
    rw [← offsetOf_of_ascii inside (by decide)]
  rw [second]
  cases rest with
  | nil =>
      have last : clamp text (text.offsetOf [] + 1) = text.offsetOf [] := by
        rw [offsetOf_nil, clamp]
        omega
      rw [last, moveTo_offsetOf, pure_bind, List.tail_nil]
  | cons escaped others =>
      have later : escaped :: others <:+ text :=
        (List.suffix_cons _ _).trans inside
      have inText : clamp text (text.offsetOf (escaped :: others) + 1) =
          text.offsetOf (escaped :: others) + 1 :=
        Nat.min_eq_left (offsetOf_lt later)
      rw [inText, bind_behind steps later, List.tail_cons]

end Steps

theorem stringBody_eq (opener : Text) {mark : Char} (ascii : mark.toNat < 128)
    (inside : rest <:+ text) :
    stringBody text (text.offsetOf opener) mark (text.offsetOf rest) =
      ofScan text text.offsetOf (skipStringBody opener mark rest) := by
  have steps : ∀ offset byte, peek text offset = some byte → 128 ≤ byte.toNat →
      stringBody text (text.offsetOf opener) mark offset =
        stringBody text (text.offsetOf opener) mark (offset + 1) := by
    intro offset byte found beyond
    rw [stringBody, found]
    simp only [if_neg (ne_of_beyond '\n' (by decide) beyond),
      if_neg (ne_of_beyond '\\' (by decide) beyond),
      if_neg (ne_of_beyond mark ascii beyond), moveTo_of_peek found, pure_bind]
  induction shape : rest.length using Nat.strongRecOn generalizing rest with
  | ind length induction =>
  subst shape
  cases rest with
  | nil =>
      rw [stringBody, peek_offsetOf_nil, skipStringBody]
      rfl
  | cons character rest =>
      have later : rest <:+ text := (List.suffix_cons _ _).trans inside
      rw [stringBody, peek_offsetOf_cons inside]
      simp only [leadByte_eq_iff '\n' (by decide),
        leadByte_eq_iff '\\' (by decide), leadByte_eq_iff mark ascii]
      by_cases lineEnd : character = '\n'
      · subst lineEnd
        rw [if_pos rfl, skipStringBody]
        rfl
      rw [if_neg lineEnd]
      by_cases backslash : character = '\\'
      · subst backslash
        have goes : skipStringBody opener mark ('\\' :: rest) =
            skipStringBody opener mark rest.tail := by
          cases rest <;> simp [skipStringBody]
        rw [if_pos rfl, bind_escaped steps inside, goes]
        exact induction _
          (Nat.lt_of_le_of_lt (List.tail_suffix rest).length_le (by simp))
          ((List.tail_suffix rest).trans later) rfl
      rw [if_neg backslash]
      have goes : skipStringBody opener mark (character :: rest) =
          if character = mark then .ok rest
          else skipStringBody opener mark rest := by
        rw [skipStringBody]
        · exact lineEnd
        · exact fun same => absurd same backslash
        · exact fun _ _ same => absurd same backslash
      rw [goes]
      by_cases ends : character = mark
      · rw [if_pos ends, if_pos ends, moveTo_behind inside (ends ▸ ascii)]
        rfl
      · rw [if_neg ends, if_neg ends, bind_behind steps inside]
        exact induction _ (by simp) later rfl

theorem string_eq (inside : rest <:+ text) :
    string text (text.offsetOf rest) =
      ofScan text text.offsetOf (skipString rest) := by
  cases rest with
  | nil =>
      rw [string, peek_offsetOf_nil, skipString]
      rfl
  | cons character rest =>
      rw [string, peek_offsetOf_cons inside, skipString]
      simp only [isQuotationMark_leadByte]
      by_cases quotes : isQuotationMark character = true
      · have ascii := ascii_of_isQuotationMark quotes
        rw [if_pos quotes, if_pos quotes, moveTo_behind inside ascii, pure_bind,
          (leadByte_eq_iff _ ascii).2 rfl]
        exact stringBody_eq _ ascii ((List.suffix_cons _ _).trans inside)
      · rw [if_neg quotes, if_neg quotes]
        rfl

private theorem identifierEnd_steps (offset : Nat) (byte : Char)
    (found : peek text offset = some byte) (beyond : 128 ≤ byte.toNat) :
    identifierEnd text offset = identifierEnd text (offset + 1) := by
  rw [identifierEnd, found]
  simp only [isIdentifierPart_beyond beyond, if_true, moveTo_of_peek found,
    pure_bind]

theorem identifierEnd_eq (inside : rest <:+ text) :
    identifierEnd text (text.offsetOf rest) =
      return text.offsetOf (rest.dropWhile isIdentifierPart) := by
  induction rest with
  | nil =>
      rw [identifierEnd, peek_offsetOf_nil]
      rfl
  | cons character rest induction =>
      rw [identifierEnd, peek_offsetOf_cons inside]
      simp only [isIdentifierPart_leadByte]
      by_cases part : isIdentifierPart character = true
      · rw [if_pos part, bind_behind identifierEnd_steps inside,
          List.dropWhile_cons_of_pos part]
        exact induction ((List.suffix_cons _ _).trans inside)
      · rw [if_neg part, List.dropWhile_cons_of_neg part]

theorem identifier_eq (inside : rest <:+ text) :
    identifier text (text.offsetOf rest) =
      match scanIdentifier? rest with
      | some (word, after) => return (some word, text.offsetOf after)
      | none => return (none, text.offsetOf rest) := by
  cases rest with
  | nil =>
      rw [identifier, peek_offsetOf_nil]
      rfl
  | cons character rest =>
      have later : rest <:+ text := (List.suffix_cons _ _).trans inside
      rw [identifier, peek_offsetOf_cons inside, scanIdentifier?]
      simp only [isIdentifierStart_leadByte]
      by_cases starts : isIdentifierStart character = true
      · have ends : rest.dropWhile isIdentifierPart <:+ character :: rest :=
          (List.dropWhile_suffix _).trans (List.suffix_cons _ _)
        have word :
            Text.upTo (character :: rest) (rest.dropWhile isIdentifierPart) =
              character :: rest.takeWhile isIdentifierPart :=
          upTo_of_eq_append
            (by rw [List.cons_append, List.takeWhile_append_dropWhile])
        rw [if_pos starts, if_pos starts, ← bind_assoc,
          bind_behind identifierEnd_steps inside, identifierEnd_eq later,
          pure_bind, slice_offsetOf inside ends, pure_bind, word]
      · rw [if_neg starts, if_neg starts]

end Walk

end ConfigEdit
