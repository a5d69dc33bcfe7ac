import ConfigEdit.Proofs.Bytewise.Expression
import ConfigEdit.Proofs.Bytewise.Parse
import ConfigEdit.Proofs.Scan.Paths

/-!
# Leaves over bytes

From a boundary the walks over paths, type arguments and literals, and over what
is kept as it is written, end as the readers of the text there do, and keep the
same slices.
-/

namespace ConfigEdit

namespace Walk

open Tape

variable {text : Text} {character : Char} {rest : Text}

theorem isNumericKeyPart_beyond (beyond : 128 ≤ character.toNat) :
    isNumericKeyPart character = false := by
  simp [isNumericKeyPart, Char.isAlphanum, isDigit_beyond beyond,
    isAlpha_beyond beyond, ne_of_beyond '.' (by decide) beyond,
    ne_of_beyond '_' (by decide) beyond]

theorem ascii_of_isNumericKeyPart (part : isNumericKeyPart character = true) :
    character.toNat < 128 := by
  refine Nat.lt_of_not_le fun beyond => ?_
  simp [isNumericKeyPart_beyond beyond] at part

@[simp] theorem isNumericKeyPart_leadByte (character : Char) :
    isNumericKeyPart (leadByte character) = isNumericKeyPart character :=
  leadByte_congr (fun _ => isNumericKeyPart_beyond) character

@[simp] theorem isDigit_leadByte (character : Char) :
    (leadByte character).isDigit = character.isDigit :=
  leadByte_congr (fun _ => isDigit_beyond) character

theorem path_eq
    {first : Char} {rest : Text} (starts : isIdentifierStart first = true)
    (inside : first :: rest <:+ text) :
    path text (text.offsetOf (first :: rest)) =
      return text.offsetOf (identifierPathEnd rest) := by
  obtain ⟨run, behind, rfl, all, ends, -, left⟩ :=
    exists_endsAt isIdentifierPart rest
  have reached : behind <:+ text :=
    (List.suffix_append _ _).trans ((List.suffix_cons _ _).trans inside)
  rw [path, identifier_eq inside, scanIdentifier?, if_pos starts, left,
    identifierPathEnd_parts all]
  simp only [pure_bind]
  cases behind with
  | nil => simp [identifierPathEnd]
  | cons point others =>
      have notPart : isIdentifierPart point = false := ends point rfl
      rw [peek_offsetOf_cons reached]
      simp only [Option.some.injEq, leadByte_eq_iff '.' (by decide)]
      by_cases isPoint : point = '.'
      case neg =>
        have stays : identifierPathEnd (point :: others) = point :: others :=
          endsWord_of_head others notPart isPoint
        simp [isPoint, stays]
      subst isPoint
      have second : (peek text (text.offsetOf ('.' :: others) + 1)).any
          isIdentifierStart = others.head?.any isIdentifierStart := by
        rw [peek_behind reached (by decide)]
        cases others <;> simp
      rw [second, bump_behind reached (by decide)]
      cases others with
      | nil => simp [identifierPathEnd, notPart]
      | cons next others =>
          by_cases goesOn : isIdentifierStart next = true
          · have further :=
              path_eq goesOn ((List.suffix_cons _ _).trans reached)
            simp [identifierPathEnd, notPart, goesOn, further]
          · simp [identifierPathEnd, notPart, goesOn]
termination_by rest.length

/-- Over bytes type arguments end where they end, and the count of open angle
brackets is not taken below zero. -/
theorem typeArguments_eq
    {depth : Nat} {whole rest : Text} (within : rest <:+ whole)
    (inside : rest <:+ text) (more : depth = 0 → rest.head? = some '<') :
    typeArguments text depth (text.offsetOf rest) =
      ofScan text (Option.map (text.offsetOf ·.1))
        (skipTypeArguments depth ⟨rest, within⟩) := by
  have steps : ∀ offset byte, peek text offset = some byte → 128 ≤ byte.toNat →
      typeArguments text depth offset =
        typeArguments text depth (offset + 1) := by
    intro offset byte found beyond
    rw [typeArguments, found]
    simp [ne_of_beyond '<' (by decide) beyond,
      ne_of_beyond '>' (by decide) beyond, isQuotationMark_beyond beyond,
      ne_of_beyond '(' (by decide) beyond, ne_of_beyond ')' (by decide) beyond,
      ne_of_beyond ';' (by decide) beyond, ne_of_beyond ',' (by decide) beyond,
      ne_of_beyond '{' (by decide) beyond,
      ne_of_beyond '\x7d' (by decide) beyond, bump, lt_of_peek found]
  cases rest with
  | nil =>
      rw [typeArguments, peek_offsetOf_nil, skipTypeArguments]
      rfl
  | cons character rest =>
      have later : rest <:+ text := (List.suffix_cons _ _).trans inside
      have raised : bump text (text.offsetOf (character :: rest)) =
          text.offsetOf (character :: rest) + 1 := if_pos (offsetOf_lt inside)
      rw [typeArguments, peek_offsetOf_cons inside, skipTypeArguments]
      simp only [isQuotationMark_leadByte, leadByte_eq_iff '<' (by decide),
        leadByte_eq_iff '>' (by decide), leadByte_eq_iff '(' (by decide),
        leadByte_eq_iff ')' (by decide), leadByte_eq_iff ';' (by decide),
        leadByte_eq_iff ',' (by decide), leadByte_eq_iff '{' (by decide),
        leadByte_eq_iff '\x7d' (by decide)]
      by_cases opens : character = '<'
      · subst opens
        rw [if_pos rfl, if_pos rfl, bump_behind inside (by decide)]
        exact typeArguments_eq _ later (by simp)
      have counted : depth ≠ 0 := fun zero => opens (by simpa using more zero)
      rw [if_neg opens, if_neg opens]
      by_cases closes : character = '>'
      · subst closes
        obtain ⟨less, rfl⟩ := Nat.exists_eq_succ_of_ne_zero counted
        rw [if_pos rfl, if_pos rfl, bump_behind inside (by decide)]
        simp only [lower, pure_bind, Nat.succ_eq_add_one, Nat.add_sub_cancel]
        by_cases last : less = 0
        · simp [last, ofScan]
        · rw [if_neg last, if_neg (by omega)]
          exact typeArguments_eq _ later (fun zero => absurd zero last)
      rw [if_neg closes, if_neg closes]
      by_cases quotes : isQuotationMark character = true
      · rw [if_pos quotes, if_pos quotes, string_eq inside]
        split
        · next fault ended =>
            rw [ended]
            rfl
        · next after ended =>
            have : after.length ≤ rest.length :=
              (skipString_suffix ended).length_le
            simp only [ended, ofScan_ok, pure_bind]
            exact typeArguments_eq _ ((skipString_suffix ended).trans later)
              (fun zero => absurd zero counted)
      rw [if_neg quotes, if_neg quotes]
      split
      · rfl
      · rw [raised, eq_behind _ inside steps]
        exact typeArguments_eq _ later (fun zero => absurd zero counted)
termination_by rest.length
decreasing_by all_goals subst_vars; simp only [List.length_cons]; omega

theorem behindTypeArguments_eq (inside : rest <:+ text) :
    behindTypeArguments text (text.offsetOf rest) =
      ofScan text (Option.map (text.offsetOf ·.1))
        (if rest.head? = some '<' then skipTypeArguments 0 (.start rest)
          else .ok (some (.start rest))) := by
  rw [behindTypeArguments]
  simp only [peek_offsetOf_iff inside '<' (by decide)]
  split
  · next opens => exact typeArguments_eq _ inside (fun _ => opens)
  · rfl

theorem atEnd_eq (inside : rest <:+ text) :
    atEnd text (text.offsetOf rest) =
      ofScan text id (atExpressionEnd rest) := by
  rw [atEnd, trivia_eq inside, atExpressionEnd]
  cases found : skipTrivia rest with
  | error fault => rfl
  | ok behind =>
      cases behind with
      | nil => simp [ofScan]
      | cons first others =>
          have reached : first :: others <:+ text :=
            (skipTrivia_suffix found).trans inside
          simp [ofScan, peek_offsetOf_cons reached]

/-- An item ends as the scan of the expression does, and the trivia behind it
can be stepped over. -/
theorem item_cases (inside : rest <:+ text) :
    (∃ fault, skipExpression rest = .error fault ∧
      item text (text.offsetOf rest) = halt (.refused (fault.located text))) ∨
    ∃ finish cursor, skipExpression rest = .ok finish ∧
      item text (text.offsetOf rest) =
        return (text.offsetOf finish.1, cursor) := by
  rw [item_eq inside]
  cases walked : skipExpression rest with
  | error fault => exact .inl ⟨fault, rfl, rfl⟩
  | ok finish =>
      refine .inr ⟨finish, ?_⟩
      rcases stops_of_expressionEnd walked with
        ended | ⟨first, others, ended, -⟩
      · exact ⟨text.offsetOf [], rfl, by simp [ofExpression, ofScan, ended]⟩
      · exact ⟨text.offsetOf (first :: others), rfl,
          by simp [ofExpression, ofScan, ended]⟩

theorem offsetOf_eq_iff {start finish : Text} (inside : start <:+ text)
    (later : finish <:+ start) :
    text.offsetOf finish = text.offsetOf start ↔
      finish.length = start.length := by
  have less := offsetOf_lt_iff inside later
  have first := offsetOf_mono inside later
  have second := later.length_le
  omega

/-- The offset of a place that has been reached with something. -/
def placed (text : Text) {kind : Type} {whole : Text}
    (found : kind × Place whole) : kind × Nat :=
  (found.1, text.offsetOf found.2.1)

theorem verbatim_eq (inside : rest <:+ text) :
    verbatim text (text.offsetOf rest) =
      ofScan text (placed text) (parseVerbatim rest) := by
  rw [verbatim, parseVerbatim]
  rcases item_cases inside with
    ⟨fault, walked, ended⟩ | ⟨finish, cursor, walked, ended⟩
  · rw [walked, ended]
    rfl
  · simp only [walked, ended, pure_bind, offsetOf_eq_iff inside finish.2]
    split
    · rfl
    · rw [slice_offsetOf inside finish.2, pure_bind, clamp_offsetOf]
      rfl

theorem writtenMember_eq
    (leading : Text) (name : Option Text) (inside : rest <:+ text) :
    writtenMember text leading name (text.offsetOf rest) =
      ofScan text (placed text) (parseWrittenMember leading name rest) := by
  rw [writtenMember, parseWrittenMember]
  rcases item_cases inside with
    ⟨fault, walked, ended⟩ | ⟨finish, cursor, walked, ended⟩
  · rw [walked, ended]
    rfl
  · simp only [walked, ended, pure_bind, offsetOf_eq_iff inside finish.2]
    split
    · rfl
    · rw [slice_offsetOf inside finish.2, pure_bind, clamp_offsetOf]
      rfl

theorem number_eq (inside : rest <:+ text) :
    number text (text.offsetOf rest) =
      ofScan text (Option.map (placed text)) (parseNumber? rest) := by
  rw [number, parseNumber?]
  rcases item_cases inside with
    ⟨fault, walked, ended⟩ | ⟨finish, cursor, walked, ended⟩
  · rw [walked, ended]
    rfl
  · simp only [walked, ended, pure_bind, slice_offsetOf inside finish.2]
    split
    · rw [clamp_offsetOf]
      rfl
    · rfl

theorem slice_unquoted {mark : Char} (ascii : mark.toNat < 128) (body : Text) :
    slice (mark :: (body ++ [mark])) 1
      (Text.utf8Size (mark :: (body ++ [mark])) - 1) =
      return body := by
  have inner : body ++ [mark] <:+ mark :: (body ++ [mark]) :=
    List.suffix_cons _ _
  have last : [mark] <:+ body ++ [mark] := List.suffix_append _ _
  have size := utf8Size_of_ascii ascii
  have first :
      Text.offsetOf (mark :: (body ++ [mark])) (body ++ [mark]) = 1 := by
    rw [Text.offsetOf, Text.utf8Size_cons, size, Nat.add_sub_cancel]
  have second : Text.offsetOf (mark :: (body ++ [mark])) [mark] =
      Text.utf8Size (mark :: (body ++ [mark])) - 1 := by
    rw [Text.offsetOf, Text.utf8Size_cons mark [], size, Text.utf8Size_nil]
  have between := slice_offsetOf inner last
  rwa [first, second, upTo_append] at between

theorem stringLiteral_eq (inside : rest <:+ text) :
    stringLiteral text (text.offsetOf rest) =
      ofScan text (fun after =>
        ((rest.upTo after).unquoted.unescape, rest.upTo after,
          text.offsetOf after)) (skipString rest) := by
  rw [stringLiteral, string_eq inside]
  cases ended : skipString rest with
  | error fault => rfl
  | ok after =>
      cases rest with
      | nil => cases ended
      | cons mark others =>
          obtain ⟨quotes, body, rfl, -⟩ := skipString_eq_ok ended
          have later : after <:+ mark :: (body ++ mark :: after) :=
            (List.suffix_cons _ _).trans
              ((List.suffix_append _ _).trans (List.suffix_cons _ _))
          have raw : Text.upTo (mark :: (body ++ mark :: after)) after =
              mark :: (body ++ [mark]) := upTo_of_eq_append (by simp)
          simp only [ofScan_ok, pure_bind, slice_offsetOf inside later, raw,
            slice_unquoted (ascii_of_isQuotationMark quotes)]
          simp [Text.unquoted]

theorem numericKeyEnd_eq (inside : rest <:+ text) :
    numericKeyEnd text (text.offsetOf rest) =
      return text.offsetOf (rest.dropWhile isNumericKeyPart) := by
  induction rest with
  | nil =>
      rw [numericKeyEnd, peek_offsetOf_nil]
      rfl
  | cons character rest induction =>
      rw [numericKeyEnd, peek_offsetOf_cons inside]
      simp only [isNumericKeyPart_leadByte]
      by_cases part : isNumericKeyPart character = true
      · rw [if_pos part, bump_behind inside (ascii_of_isNumericKeyPart part),
          List.dropWhile_cons_of_pos part]
        exact induction ((List.suffix_cons _ _).trans inside)
      · rw [if_neg part, List.dropWhile_cons_of_neg part]

theorem key_eq (inside : rest <:+ text) :
    key text (text.offsetOf rest) =
      ofScan text (Option.map (placed text)) (parseKey? rest) := by
  cases rest with
  | nil =>
      rw [key, peek_offsetOf_nil]
      rfl
  | cons first rest =>
      rw [key, peek_offsetOf_cons inside, parseKey?]
      simp only [isQuotationMark_leadByte, isDigit_leadByte,
        isIdentifierStart_leadByte, leadByte_eq_iff '.' (by decide),
        sliceFrom_offsetOf inside, pure_bind]
      by_cases point : first = '.'
      · subst point
        rfl
      rw [if_neg point]
      by_cases quotes : isQuotationMark first = true
      · rw [if_pos quotes, if_pos quotes, stringLiteral_eq inside]
        split
        · next fault ended =>
            rw [ended]
            rfl
        · next after ended =>
            simp only [ended, ofScan_ok, pure_bind]
            rfl
      rw [if_neg quotes, if_neg quotes]
      by_cases digit : first.isDigit = true
      · have ends : rest.dropWhile isNumericKeyPart <:+ first :: rest :=
          (List.dropWhile_suffix _).trans (List.suffix_cons _ _)
        have part : isNumericKeyPart first = true := by
          simp [isNumericKeyPart, Char.isAlphanum, digit]
        have raw : Text.upTo (first :: rest) (rest.dropWhile isNumericKeyPart) =
            first :: rest.takeWhile isNumericKeyPart :=
          upTo_of_eq_append
            (by rw [List.cons_append, List.takeWhile_append_dropWhile])
        rw [if_pos digit, if_pos digit, numericKeyEnd_eq inside,
          List.dropWhile_cons_of_pos part, pure_bind,
          slice_offsetOf inside ends, pure_bind, raw]
        rfl
      rw [if_neg digit, if_neg digit]
      by_cases starts : isIdentifierStart first = true
      · rw [if_pos starts, if_pos starts, identifier_eq inside, scanIdentifier?,
          if_pos starts]
        rfl
      · rw [if_neg starts, if_neg starts]
        rfl

end Walk

end ConfigEdit
