import ConfigEdit.Proofs.Bytewise.Leaves

/-!
# Values over bytes

The walks over values, nodes, arguments and members end as the readers of the
text do, with the same tree or the same fault.  The statements are proved
together; each case is one of the cases of its reader.
-/

namespace ConfigEdit.Walk

open Tape

variable {text : Text}

mutual

theorem value_eq (strict : Bool) {rest : Text} (inside : rest <:+ text) :
    value text strict (text.offsetOf rest) =
      ofScan text (placed text) (parseValue strict rest) := by
  rw [value, parseValue, node_eq inside]
  cases parseNode? rest with
  | error fault => rfl
  | ok found =>
      cases found with
      | none => exact verbatim_eq inside
      | some found =>
          obtain ⟨expr, finish⟩ := found
          simp only [ofScan_ok, pure_bind, Option.map_some, placed]
          cases strict with
          | false => rfl
          | true =>
              rw [if_pos rfl, if_pos rfl, atEnd_eq (finish.2.trans inside)]
              cases atExpressionEnd finish.1 with
              | error fault => rfl
              | ok ends =>
                  cases ends with
                  | true => rfl
                  | false => exact verbatim_eq inside
termination_by 8 * rest.length + 3

theorem node_eq {rest : Text} (inside : rest <:+ text) :
    node text (text.offsetOf rest) =
      ofScan text (Option.map (placed text)) (parseNode? rest) := by
  cases rest with
  | nil =>
      rw [node, peek_offsetOf_nil, parseNode?]
      rfl
  | cons first rest =>
      have later : rest <:+ text := (List.suffix_cons _ _).trans inside
      rw [node, peek_offsetOf_cons inside, parseNode?]
      simp only [leadByte_eq_iff '{' (by decide), isQuotationMark_leadByte,
        isDigit_leadByte, isIdentifierStart_leadByte, Bool.or_eq_true,
        decide_eq_true_eq, leadByte_eq_iff '.' (by decide),
        leadByte_eq_iff '-' (by decide)]
      by_cases brace : first = '{'
      · subst brace
        rw [if_pos rfl, if_pos rfl, bump_behind inside (by decide),
          members_eq _ _ later]
        cases parseMembers ('{' :: rest) false rest <;> rfl
      rw [if_neg brace, if_neg brace]
      by_cases quotes : isQuotationMark first = true
      · rw [if_pos quotes, if_pos quotes, stringLiteral_eq inside, parseString]
        split
        · next fault ended =>
            rw [ended]
            rfl
        · next after ended =>
            simp only [ended, ofScan_ok, pure_bind]
            rfl
      rw [if_neg quotes, if_neg quotes]
      split
      · exact number_eq inside
      · split
        · next starts => exact word_eq starts inside
        · rfl
termination_by 8 * rest.length + 2

theorem word_eq
    {first : Char} {rest : Text} (starts : isIdentifierStart first = true)
    (inside : first :: rest <:+ text) :
    word text (text.offsetOf (first :: rest)) =
      ofScan text (Option.map (placed text)) (parseWord first rest) := by
  have wordEnd : identifierPathEnd rest <:+ first :: rest :=
    (identifierPathEnd_suffix rest).trans (List.suffix_cons first rest)
  have afterWord : identifierPathEnd rest <:+ text := wordEnd.trans inside
  rw [word, path_eq starts inside, parseWord]
  simp only [pure_bind, slice_offsetOf inside wordEnd]
  split
  · rfl
  split
  · rfl
  split
  · next fault found =>
      rw [trivia_eq afterWord, found]
      rfl
  · next typed found =>
      have start : typed <:+ rest :=
        (skipTrivia_suffix found).trans (identifierPathEnd_suffix rest)
      have reached : typed <:+ text := (skipTrivia_suffix found).trans afterWord
      have typesEnd := behindTypeArguments_eq reached
      simp only [trivia_eq afterWord, found, ofScan_ok, pure_bind, typesEnd]
      generalize (if typed.head? = some '<' then
        skipTypeArguments 0 (Place.start typed)
        else Except.ok (some (Place.start typed))) = skipped
      rcases skipped with fault | (_ | behindTypes)
      · rfl
      · rfl
      have behind : behindTypes.1 <:+ text := behindTypes.2.trans reached
      simp only [ofScan_ok, Option.map_some, pure_bind, trivia_eq behind]
      split
      · next fault last =>
          rw [last]
          rfl
      · next inner last =>
          have later : '(' :: inner <:+ rest :=
            ((skipTrivia_suffix last).trans behindTypes.2).trans start
          have opened : '(' :: inner <:+ text :=
            (skipTrivia_suffix last).trans behind
          have : inner.length < rest.length := later.length_le
          simp only [last, ofScan_ok, pure_bind,
            (peek_offsetOf_iff opened '(' (by decide)).2 rfl, if_true,
            slice_offsetOf inside (later.trans (List.suffix_cons first rest)),
            bump_behind opened (by decide), callArguments_eq ('(' :: inner) _
              false ((List.suffix_cons _ _).trans opened)]
          cases parseArguments ('(' :: inner)
            (Text.upTo (first :: rest) ('(' :: inner)) false inner <;> rfl
      · next other notCall last =>
          have opened : other <:+ text := (skipTrivia_suffix last).trans behind
          have noParenthesis : other.head? ≠ some '(' := by
            intro head
            obtain ⟨inner, rfl⟩ := List.head?_eq_some_iff.1 head
            exact notCall inner rfl
          simp only [last, ofScan_ok, pure_bind,
            peek_offsetOf_iff opened '(' (by decide), if_neg noParenthesis]
          rfl
termination_by 8 * (rest.length + 1) + 1

theorem callArguments_eq (opener callee : Text) (afterComma : Bool)
    {rest : Text} (inside : rest <:+ text) :
    callArguments text (text.offsetOf opener) callee afterComma
      (text.offsetOf rest) = ofScan text (placed text)
      (parseArguments opener callee afterComma rest) := by
  rw [parseArguments]
  split
  · next fault found =>
      rw [callArguments, trivia_eq inside, found]
      rfl
  · next found =>
      rw [callArguments, trivia_eq inside, found]
      simp only [ofScan_ok, pure_bind, peek_offsetOf_nil]
      rfl
  · next first others found =>
      have start : first :: others <:+ rest := skipTrivia_suffix found
      have reached : first :: others <:+ text := start.trans inside
      have shorter : others.length + 1 ≤ rest.length := start.length_le
      have scanned := trivia_eq inside
      rw [found] at scanned
      rw [callArguments, scanned]
      simp only [ofScan_ok, pure_bind, peek_offsetOf_cons reached,
        leadByte_eq_iff ')' (by decide), slice_offsetOf inside start]
      by_cases closes : first = ')'
      · subst closes
        rw [if_pos rfl, if_pos rfl, bump_behind reached (by decide)]
        rfl
      rw [if_neg closes, if_neg closes, value_eq true reached]
      cases parseValue true (first :: others) with
      | error fault => rfl
      | ok found =>
          obtain ⟨expr, finish⟩ := found
          have trail : finish.1 <:+ text := finish.2.trans reached
          have walked := trivia_eq trail
          simp only [ofScan_ok, pure_bind, placed, walked]
          split
          · next fault ended =>
              rw [ended]
              rfl
          · next ended =>
              simp only [ended, ofScan_ok, pure_bind,
                slice_offsetOf trail List.nil_suffix, peek_offsetOf_nil]
              rfl
          · next delimiter behind ended =>
              have between : delimiter :: behind <:+ finish.1 :=
                skipTrivia_suffix ended
              have stop : delimiter :: behind <:+ text := between.trans trail
              have smaller : behind.length < rest.length :=
                (between.trans (finish.2.trans start)).length_le
              simp only [ended, ofScan_ok, pure_bind,
                slice_offsetOf trail between, peek_offsetOf_cons stop,
                leadByte_eq_iff ',' (by decide),
                leadByte_eq_iff ')' (by decide)]
              by_cases comma : delimiter = ','
              · subst comma
                rw [if_pos rfl, if_pos rfl, bump_behind stop (by decide),
                  callArguments_eq _ _ true ((List.suffix_cons _ _).trans stop)]
                cases parseArguments opener callee true behind <;> rfl
              rw [if_neg comma, if_neg comma]
              by_cases last : delimiter = ')'
              · subst last
                rw [if_pos rfl, if_pos rfl, bump_behind stop (by decide)]
                rfl
              · rw [if_neg last, if_neg last]
                rfl
termination_by 8 * rest.length + 5

theorem members_eq
    (opener : Text) (afterComma : Bool) {rest : Text} (inside : rest <:+ text) :
    members text (text.offsetOf opener) afterComma (text.offsetOf rest) =
      ofScan text (placed text) (parseMembers opener afterComma rest) := by
  rw [parseMembers]
  split
  · next fault found =>
      rw [members, trivia_eq inside, found]
      rfl
  · next found =>
      rw [members, trivia_eq inside, found]
      simp only [ofScan_ok, pure_bind, peek_offsetOf_nil]
      rfl
  · next first others found =>
      have start : first :: others <:+ rest := skipTrivia_suffix found
      have reached : first :: others <:+ text := start.trans inside
      have shorter : others.length + 1 ≤ rest.length := start.length_le
      have scanned := trivia_eq inside
      rw [found] at scanned
      rw [members, scanned]
      simp only [ofScan_ok, pure_bind, peek_offsetOf_cons reached,
        leadByte_eq_iff '\x7d' (by decide), slice_offsetOf inside start]
      by_cases closes : first = '\x7d'
      · subst closes
        rw [if_pos rfl, if_pos rfl, bump_behind reached (by decide)]
        rfl
      rw [if_neg closes, if_neg closes, member_eq _ reached]
      cases parseMember (rest.upTo (first :: others)) (first :: others) with
      | error fault => rfl
      | ok found =>
          obtain ⟨entry, finish⟩ := found
          have trail : finish.1 <:+ text := finish.2.trans reached
          have walked := trivia_eq trail
          simp only [ofScan_ok, pure_bind, placed, walked]
          split
          · next fault ended =>
              rw [ended]
              rfl
          · next ended =>
              simp only [ended, ofScan_ok, pure_bind, peek_offsetOf_nil]
              rfl
          · next delimiter behind ended =>
              have between : delimiter :: behind <:+ finish.1 :=
                skipTrivia_suffix ended
              have stop : delimiter :: behind <:+ text := between.trans trail
              have smaller : behind.length < rest.length :=
                (between.trans (finish.2.trans start)).length_le
              simp only [ended, ofScan_ok, pure_bind,
                slice_offsetOf trail between, peek_offsetOf_cons stop,
                leadByte_eq_iff ',' (by decide),
                leadByte_eq_iff '\x7d' (by decide)]
              by_cases comma : delimiter = ','
              · subst comma
                rw [if_pos rfl, if_pos rfl, bump_behind stop (by decide),
                  members_eq _ true ((List.suffix_cons _ _).trans stop)]
                cases parseMembers opener true behind <;> rfl
              rw [if_neg comma, if_neg comma]
              by_cases last : delimiter = '\x7d'
              · subst last
                rw [if_pos rfl, if_pos rfl, bump_behind stop (by decide)]
                rfl
              · rw [if_neg last, if_neg last]
                rfl
termination_by 8 * rest.length + 5

theorem member_eq (leading : Text) {rest : Text} (inside : rest <:+ text) :
    member text leading (text.offsetOf rest) =
      ofScan text (placed text) (parseMember leading rest) := by
  rw [member, parseMember, key_eq inside]
  cases parseKey? rest with
  | error fault => rfl
  | ok found =>
      cases found with
      | none => exact writtenMember_eq leading none inside
      | some found =>
          obtain ⟨name, keyEnd⟩ := found
          have behindKey : keyEnd.1 <:+ text := keyEnd.2.trans inside
          have walked := trivia_eq behindKey
          simp only [ofScan_ok, pure_bind, Option.map_some, placed, walked]
          split
          · next fault ended =>
              rw [ended]
              rfl
          · next ended =>
              simp only [ended, ofScan_ok, pure_bind, peek_offsetOf_nil]
              rfl
          · next mark others ended =>
              have between : mark :: others <:+ keyEnd.1 :=
                skipTrivia_suffix ended
              have reached : mark :: others <:+ text := between.trans behindKey
              have shorter : others.length < rest.length :=
                (between.trans keyEnd.2).length_le
              simp only [ended, ofScan_ok, pure_bind,
                peek_offsetOf_cons reached,
                isIdentifierStart_leadByte, leadByte_eq_iff ':' (by decide),
                leadByte_eq_iff '(' (by decide),
                leadByte_eq_iff '<' (by decide),
                leadByte_eq_iff ',' (by decide),
                leadByte_eq_iff '\x7d' (by decide)]
              by_cases colon : mark = ':'
              · subst colon
                have behind : others <:+ text :=
                  (List.suffix_cons _ _).trans reached
                rw [if_pos rfl, if_pos rfl, bump_behind reached (by decide)]
                split
                · next fault began =>
                    rw [trivia_eq behind, began]
                    rfl
                · next start began =>
                    have inner : start <:+ others := skipTrivia_suffix began
                    have : start.length < rest.length :=
                      Nat.lt_of_le_of_lt inner.length_le shorter
                    have separator : start <:+ keyEnd.1 :=
                      inner.trans ((List.suffix_cons _ _).trans between)
                    simp only [trivia_eq behind, began, ofScan_ok, pure_bind,
                      slice_offsetOf behindKey separator,
                      value_eq true (inner.trans behind)]
                    cases parseValue true start <;> rfl
              rw [if_neg colon, if_neg colon]
              split
              · exact writtenMember_eq leading _ inside
              split
              · rw [slice_offsetOf inside keyEnd.2, pure_bind, clamp_offsetOf]
                rfl
              rw [identifier_eq reached, scanIdentifier?]
              by_cases starts : isIdentifierStart mark = true
              · by_cases modifier : isMethodModifier name.name = true
                · simp only [starts, modifier, Bool.and_self, if_true,
                    pure_bind]
                  exact writtenMember_eq leading _ inside
                · simp only [modifier, Bool.and_false]
                  rfl
              · simp only [starts, Bool.false_and]
                cases isMethodModifier name.name <;> rfl
termination_by 8 * rest.length + 4

end

end ConfigEdit.Walk
