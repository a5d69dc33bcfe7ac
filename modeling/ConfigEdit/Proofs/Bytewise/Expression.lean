import ConfigEdit.Proofs.Bytewise.Tokens
import ConfigEdit.Proofs.Scan.Tokens

/-!
# Brackets over bytes

From a boundary the walks over template literals, groups and expressions end as
the scans of the text there do.  The three statements are proved together, by
recursion on what is left of the text; no walk over bytes needs a bound for
this, since each ends where the scan of the characters ends.
-/

namespace ConfigEdit

theorem stops_of_expressionEnd {stack : List OpenBracket} {whole : Text}
    {place finish : Place whole}
    (walked : expressionEnd stack place = .ok finish) :
    Stops finish.1 := by
  have ended := expressionEnd_toOption stack place
  rw [walked] at ended
  obtain ⟨-, -, -, -, stops⟩ := flatEnd?_eq_some ended.symm
  exact stops

namespace Walk

open Tape

/-- A bracket that stands in the text. -/
def Stands (text : Text) (bracket : OpenBracket) : Prop :=
  bracket.site <:+ text ∧
    ∃ opener inner,
      bracket.site = opener :: inner ∧ closerOf? opener = some bracket.closer

/-- The stack of a walk: the closers of brackets, and where the brackets
stand. -/
def stackOf (text : Text) (stack : List OpenBracket) : List (Char × Nat) :=
  stack.map fun bracket => (bracket.closer, text.offsetOf bracket.site)

/-- A walk over an expression and the trivia behind it, which ends as a scan
does. -/
def ofExpression
    (text : Text) {whole : Text} (scanned : Except Fault (Place whole)) :
    Walk (Nat × Nat) := do
  let finish ← ofScan text Subtype.val scanned
  let cursor ← ofScan text text.offsetOf (skipTrivia finish)
  return (text.offsetOf finish, cursor)

variable {text : Text} {character : Char} {rest : Text}

theorem ascii_of_closerOf?
    {closer : Char} (opens : closerOf? character = some closer) :
    character.toNat < 128 := by
  refine Nat.lt_of_not_le fun beyond => ?_
  simp [closerOf?_beyond beyond] at opens

theorem ascii_of_isCloser (closes : isCloser character = true) :
    character.toNat < 128 := by
  refine Nat.lt_of_not_le fun beyond => ?_
  simp [isCloser_beyond beyond] at closes

theorem ascii_of_isSeparator (separates : isSeparator character = true) :
    character.toNat < 128 := by
  refine Nat.lt_of_not_le fun beyond => ?_
  simp [isSeparator_beyond beyond] at separates

theorem leadByte_of_ascii (ascii : character.toNat < 128) :
    leadByte character = character :=
  (leadByte_eq_iff _ ascii).2 rfl

theorem ascii_of_stops (stops : Stops rest) {others : Text}
    (found : skipTrivia rest = .ok (character :: others)) :
    character.toNat < 128 :=
  (stops.ends found).elim ascii_of_isCloser ascii_of_isSeparator

theorem byteAt_offsetOf (inside : character :: rest <:+ text) :
    byteAt text (text.offsetOf (character :: rest)) =
      return leadByte character := by
  rw [byteAt, peek_offsetOf_cons inside]

/-- A bracket that stays open is shown as it stands in the text. -/
theorem Stands.unclosed {bracket : OpenBracket} (stands : Stands text bracket)
    {result : Type} :
    (do let byte ← byteAt text (text.offsetOf bracket.site)
        refuse text (text.offsetOf bracket.site) (.unclosed byte) :
          Walk result) =
      halt (.refused (bracket.unclosed.located text)) := by
  obtain ⟨inside, opener, inner, shape, opens⟩ := stands
  rw [OpenBracket.unclosed]
  rw [shape] at inside ⊢
  rw [byteAt_offsetOf inside, pure_bind,
    leadByte_of_ascii (ascii_of_closerOf? opens)]
  rfl

section Steps

variable {offset : Nat} {byte : Char} (found : peek text offset = some byte)
  (beyond : 128 ≤ byte.toNat)

include found beyond

private theorem trivia_beyond : trivia text offset = return offset := by
  rw [trivia, found]
  simp [isGap_beyond beyond, ne_of_beyond '/' (by decide) beyond]

private theorem templateBody_steps (opener : Nat) :
    templateBody text opener offset =
      templateBody text opener (offset + 1) := by
  rw [templateBody, found]
  simp [ne_of_beyond '\\' (by decide) beyond,
    ne_of_beyond '\x60' (by decide) beyond,
    ne_of_beyond '$' (by decide) beyond, moveTo_of_peek found]

private theorem expression_steps (stack : List (Char × Nat)) :
    expression text stack offset offset =
      expression text stack (offset + 1) (offset + 1) := by
  rw [expression, trivia_beyond found beyond, pure_bind, found]
  simp [closerOf?_beyond beyond, isCloser_beyond beyond,
    isSeparator_beyond beyond, isQuotationMark_beyond beyond,
    ne_of_beyond '\x60' (by decide) beyond, moveTo_of_peek found]

end Steps

mutual

theorem templateBody_eq (opener : Text) {whole rest : Text}
    (within : rest <:+ whole) (inside : rest <:+ text) :
    templateBody text (text.offsetOf opener) (text.offsetOf rest) =
      ofScan text (text.offsetOf ·.1)
        (skipTemplateBody opener ⟨rest, within⟩) := by
  cases rest with
  | nil =>
      rw [templateBody, peek_offsetOf_nil, skipTemplateBody]
      rfl
  | cons character rest =>
      have later : rest <:+ text := (List.suffix_cons _ _).trans inside
      have tail : rest.tail <:+ text := (List.tail_suffix rest).trans later
      have shorter : rest.tail.length ≤ rest.length :=
        (List.tail_suffix rest).length_le
      have steps := fun offset byte found beyond =>
        @templateBody_steps text offset byte found beyond (text.offsetOf opener)
      rw [templateBody, peek_offsetOf_cons inside, skipTemplateBody]
      simp only [leadByte_eq_iff '\\' (by decide),
        leadByte_eq_iff '\x60' (by decide),
        leadByte_eq_iff '$' (by decide), Bool.and_eq_true, decide_eq_true_eq]
      by_cases backslash : character = '\\'
      · subst backslash
        rw [if_pos rfl, if_pos rfl, bind_escaped steps inside]
        exact templateBody_eq opener _ tail
      rw [if_neg backslash, if_neg backslash]
      by_cases mark : character = '\x60'
      · subst mark
        rw [if_pos rfl, if_pos rfl, moveTo_behind inside (by decide)]
        rfl
      rw [if_neg mark, if_neg mark]
      by_cases dollar : character = '$'
      case neg =>
        rw [if_neg (fun both => dollar both.1),
          if_neg (fun both => dollar both.1), bind_behind steps inside]
        exact templateBody_eq opener _ later
      subst dollar
      simp only [true_and, peek_behind_iff inside (by decide) '{' (by decide)]
      by_cases brace : rest.head? = some '{'
      case neg =>
        rw [if_neg brace, if_neg brace, bind_behind steps inside]
        exact templateBody_eq opener _ later
      obtain ⟨inner, rfl⟩ := List.head?_eq_some_iff.1 brace
      have stands : Stands text ⟨'}', '{' :: inner⟩ :=
        ⟨later, '{', inner, rfl, rfl⟩
      have behind : inner <:+ text := (List.suffix_cons _ _).trans later
      have walked := groupBody_eq stands (List.suffix_refl inner) behind
      rw [if_pos brace, if_pos brace, moveTo_behind inside (by decide),
        pure_bind, group, peek_offsetOf_cons later, Option.bind_some,
        closerOf?_leadByte]
      simp only [closerOf?, moveTo_behind later (by decide), pure_bind, walked,
        List.tail_cons]
      cases skipGroupBody ⟨'}', '{' :: inner⟩ (Place.start inner) with
      | error fault => rfl
      | ok after =>
          have : after.1.length ≤ inner.length := after.length_le
          exact templateBody_eq opener _ (after.2.trans behind)
termination_by 3 * rest.length
decreasing_by all_goals subst_vars; simp only [List.length_cons] at *; omega

theorem groupBody_eq {bracket : OpenBracket} (stands : Stands text bracket)
    {whole rest : Text} (within : rest <:+ whole) (inside : rest <:+ text) :
    groupBody text (text.offsetOf bracket.site) bracket.closer
      (text.offsetOf rest) = ofScan text (text.offsetOf ·.1)
      (skipGroupBody bracket ⟨rest, within⟩) := by
  have walked := expression_eq [] (by simp) (List.suffix_refl rest) inside
  rw [groupBody, skipGroupBody]
  simp only [stackOf, List.map_nil] at walked
  rw [walked]
  cases ended : expressionEnd [] (Place.start rest) with
  | error fault => rfl
  | ok finish =>
      have stops := stops_of_expressionEnd ended
      have bound : finish.1.length ≤ rest.length := finish.length_le
      simp only [ofExpression, ofScan_ok, pure_bind]
      split
      · next fault found =>
          rw [found]
          rfl
      · next found =>
          simp only [found, ofScan_ok, pure_bind, peek_offsetOf_nil]
          exact stands.unclosed
      · next next others found =>
          have shorter : others.length < finish.1.length :=
            (skipTrivia_suffix found).length_le
          have reached : next :: others <:+ text :=
            (skipTrivia_suffix found).trans (finish.2.trans inside)
          have ascii := ascii_of_stops stops found
          simp only [found, ofScan_ok, pure_bind, peek_offsetOf_cons reached,
            leadByte_of_ascii ascii]
          by_cases closes : next = bracket.closer
          · rw [if_pos closes, if_pos closes, moveTo_behind reached ascii]
            rfl
          rw [if_neg closes, if_neg closes]
          by_cases separates : isSeparator next = true
          · rw [if_pos separates, if_pos separates, moveTo_behind reached ascii,
              pure_bind]
            exact groupBody_eq stands _ ((List.suffix_cons _ _).trans reached)
          · rw [if_neg separates, if_neg separates]
            rfl
termination_by 3 * rest.length + 2

theorem expression_eq (stack : List OpenBracket)
    (stand : ∀ bracket ∈ stack, Stands text bracket) {whole rest : Text}
    (within : rest <:+ whole) (inside : rest <:+ text) :
    expression text (stackOf text stack) (text.offsetOf rest)
      (text.offsetOf rest) =
      ofExpression text (expressionEnd stack ⟨rest, within⟩) := by
  have steps := fun stack offset byte found beyond =>
    @expression_steps text offset byte found beyond stack
  rw [expressionEnd.eq_def]
  simp only
  split
  · next fault found =>
      rw [expression, trivia_eq inside, found]
      rfl
  · next found =>
      rw [expression, trivia_eq inside, found]
      simp only [ofScan_ok, pure_bind, peek_offsetOf_nil]
      cases stack with
      | nil => simp [stackOf, ofExpression, ofScan, found]
      | cons bracket others =>
          have stands := stand bracket List.mem_cons_self
          exact stands.unclosed
  · next next others found =>
      have shorter : others.length < rest.length :=
        (skipTrivia_suffix found).length_le
      have reached : next :: others <:+ text :=
        (skipTrivia_suffix found).trans inside
      have behind : others <:+ text := (List.suffix_cons _ _).trans reached
      have scanned := trivia_eq inside
      rw [found] at scanned
      rw [expression, scanned]
      simp only [ofScan_ok, pure_bind, peek_offsetOf_cons reached,
        closerOf?_leadByte, isCloser_leadByte, isSeparator_leadByte,
        isQuotationMark_leadByte, leadByte_eq_iff '\x60' (by decide)]
      cases opens : closerOf? next with
      | some closer =>
          have stands : Stands text ⟨closer, next :: others⟩ :=
            ⟨reached, next, others, rfl, opens⟩
          simp only [moveTo_behind reached (ascii_of_closerOf? opens),
            pure_bind]
          exact expression_eq (⟨closer, next :: others⟩ :: stack)
            (List.forall_mem_cons.2 ⟨stands, stand⟩) _ behind
      | none =>
          simp only
          by_cases closes : isCloser next = true
          · have ascii := ascii_of_isCloser closes
            rw [if_pos closes, if_pos closes]
            cases stack with
            | nil => simp [stackOf, ofExpression, ofScan, found]
            | cons bracket stack =>
                simp only [stackOf, List.map_cons, leadByte_of_ascii ascii]
                split
                · simp only [moveTo_behind reached ascii, pure_bind]
                  exact expression_eq _
                    (fun other member => stand other (.tail _ member)) _ behind
                · rfl
          rw [if_neg closes, if_neg closes]
          have empty : (stackOf text stack).isEmpty = stack.isEmpty := by
            simp [stackOf]
          rw [empty]
          by_cases separates : (isSeparator next && stack.isEmpty) = true
          · rw [if_pos separates, if_pos separates]
            simp [ofExpression, ofScan, found]
          rw [if_neg separates, if_neg separates]
          by_cases quotes : isQuotationMark next = true
          · rw [if_pos quotes, if_pos quotes, string_eq reached]
            split
            · next fault ended =>
                rw [ended]
                rfl
            · next after ended =>
                have : after.length ≤ others.length :=
                  (skipString_suffix ended).length_le
                simp only [ended, ofScan_ok, pure_bind]
                exact expression_eq _ stand _
                  ((skipString_suffix ended).trans behind)
          rw [if_neg quotes, if_neg quotes]
          by_cases mark : next = '\x60'
          · have ascii : next.toNat < 128 := by rw [mark]; decide
            have walked :=
              templateBody_eq (next :: others) (List.suffix_refl others) behind
            rw [if_pos mark, if_pos mark]
            simp only [moveTo_behind reached ascii, pure_bind, walked]
            cases skipTemplateBody (next :: others) (Place.start others) with
            | error fault => rfl
            | ok after =>
                have : after.1.length ≤ others.length := after.length_le
                rw [ofScan_ok, pure_bind]
                exact expression_eq _ stand _ (after.2.trans behind)
          · have goes := @bind_behind text others next _
              (fun next => expression text (stackOf text stack) next next)
              (steps _) reached
            rw [if_neg mark, if_neg mark]
            exact goes.trans (expression_eq _ stand _ behind)
termination_by 3 * rest.length + 1

end

theorem template_eq
    {mark : Char} (inside : mark :: rest <:+ text) (ascii : mark.toNat < 128) :
    template text (text.offsetOf (mark :: rest)) =
      ofScan text (text.offsetOf ·.1)
        (skipTemplateBody (mark :: rest) (.start rest)) := by
  rw [template, moveTo_behind inside ascii, pure_bind]
  exact templateBody_eq _ _ ((List.suffix_cons _ _).trans inside)

theorem item_eq (inside : rest <:+ text) :
    item text (text.offsetOf rest) = ofExpression text (skipExpression rest) :=
  expression_eq [] (by simp) _ inside

theorem bump_behind
    (inside : character :: rest <:+ text) (ascii : character.toNat < 128) :
    bump text (text.offsetOf (character :: rest)) = text.offsetOf rest := by
  rw [bump, if_pos (offsetOf_lt inside), offsetOf_of_ascii inside ascii]

/-- Less of the text is left exactly where the offset is larger. -/
theorem offsetOf_lt_iff
    {start finish : Text} (inside : start <:+ text) (later : finish <:+ start) :
    text.offsetOf start < text.offsetOf finish ↔
      finish.length < start.length := by
  obtain ⟨before, rfl⟩ := later
  have split := offsetOf_append_right inside
  cases before with
  | nil => simp
  | cons first others =>
      have more := first.utf8Size_pos
      simp only [split, Text.utf8Size_cons, List.length_append,
        List.length_cons]
      omega

theorem arguments_eq {rest : Text} (inside : rest <:+ text) :
    arguments text (text.offsetOf rest) =
      ofScan text (List.map fun span : Span rest =>
        (text.offsetOf span.start.1, text.offsetOf span.finish.1))
            (splitArguments rest) := by
  rw [splitArguments]
  split
  · next fault found =>
      rw [arguments, trivia_eq inside, found]
      rfl
  · next found =>
      rw [arguments, trivia_eq inside, found]
      simp [ofScan, offsetOf_nil]
  · next first others found =>
      have start : first :: others <:+ text :=
        (skipTrivia_suffix found).trans inside
      have more : ¬text.utf8Size ≤ text.offsetOf (first :: others) :=
        Nat.not_le_of_lt (offsetOf_lt start)
      have scanned := trivia_eq inside
      rw [found] at scanned
      rw [arguments, scanned]
      simp only [ofScan_ok, pure_bind, if_neg more, item_eq start]
      cases walked : skipExpression (first :: others) with
      | error fault => rfl
      | ok finish =>
          have stops := stops_of_expressionEnd walked
          simp only [ofExpression, ofScan_ok, pure_bind]
          split
          · next fault ended =>
              rw [ended]
              rfl
          · next ended => simp [ended, ofScan]
          · next next behind ended =>
              have reached : next :: behind <:+ text :=
                (skipTrivia_suffix ended).trans (finish.2.trans start)
              have shorter : behind.length < rest.length :=
                ((skipTrivia_suffix ended).trans
                  (finish.2.trans (skipTrivia_suffix found))).length_le
              have ascii := ascii_of_stops stops ended
              simp only [ended, ofScan_ok, pure_bind,
                peek_offsetOf_cons reached, leadByte_of_ascii ascii,
                offsetOf_lt_iff start finish.2, bump_behind reached ascii]
              by_cases comma : next = ','
              · rw [if_pos comma, if_pos comma]
                split
                · have further :=
                    arguments_eq ((List.suffix_cons _ _).trans reached)
                  rw [further]
                  cases splitArguments behind with
                  | error fault => rfl
                  | ok spans =>
                      simp only [ofScan_ok, pure_bind, List.map_cons,
                        List.map_map]
                      rfl
                · rfl
              · rw [if_neg comma, if_neg comma]
                rfl
termination_by rest.length

end Walk

end ConfigEdit
