import ConfigEdit.Proofs.Bytewise.Walk
import ConfigEdit.Proofs.Outcome
import ConfigEdit.Proofs.Scan.Tokens

/-!
# The two walkers over brackets

`skipGroup` follows a group by recursion, and `expressionEnd` keeps the open
brackets on a stack.  To compare them the second one is taken step by step:
`BracketWalk.next` is one pass through its loop (`expressionEnd_eq_next`), and
`BracketWalk.EmptiesFirst` the place at which the stack gets empty for the first
time.

With one more bracket below its stack a walk takes the same steps until it would
have ended; there the bracket is closed, or a separator is passed
(`BracketWalk.next_below`).  These are the places at which the group starts
afresh, so the bracket is closed where the group ends:
`BracketWalk.emptiesFirst_below` is an induction on the text that is left.
-/

namespace ConfigEdit

theorem isSeparator_of_isCloser
    {character : Char} (closes : isCloser character = true) :
    isSeparator character = false := by
  rcases mem_of_isCloser closes with rfl | rfl | rfl <;> rfl

/-- A walk over an expression between two tokens: the brackets that are open,
and the place behind the last token. -/
structure BracketWalk (whole : Text) where
  stack : List OpenBracket
  place : Place whole

namespace BracketWalk

variable {whole : Text}

/-- The place behind a token that is no bracket: a string, a template literal or
a single character. -/
def behindToken
    {character : Char} {rest : Text} (inside : character :: rest <:+ whole) :
    Except Fault (Place whole) :=
  if isQuotationMark character then
    match ended : skipString (character :: rest) with
    | .error fault => .error fault
    | .ok _ => .ok (Place.further (.tail inside) (skipString_suffix ended))
  else if character = '\x60' then
    (skipTemplateBody (character :: rest) (.start rest)).map
      (Place.within (.tail inside))
  else .ok (.tail inside)

/-- The walk behind the token that begins with a character, or `none` if the
expression ends before it. -/
def pass (stack : List OpenBracket) {character : Char} {rest : Text}
    (inside : character :: rest <:+ whole) :
    Except Fault (Option (BracketWalk whole)) :=
  match closerOf? character with
  | some closer =>
      .ok (some ⟨⟨closer, character :: rest⟩ :: stack, .tail inside⟩)
  | none =>
      if isCloser character then
        match stack with
        | [] => .ok none
        | bracket :: others =>
            if bracket.closer = character then .ok (some ⟨others, .tail inside⟩)
            else .error (.here (.mismatched bracket.closer character)
              (character :: rest))
      else if isSeparator character && stack.isEmpty then .ok none
      else (behindToken inside).map fun place => some ⟨stack, place⟩

/-- The walk behind one token more, or `none` if the expression ends. -/
def next (walk :
    BracketWalk whole) : Except Fault (Option (BracketWalk whole)) :=
  match found : skipTrivia walk.place.1 with
  | .error fault => .error fault
  | .ok [] =>
      match walk.stack with
      | [] => .ok none
      | bracket :: _ => .error bracket.unclosed
  | .ok (_ :: _) =>
      pass walk.stack ((skipTrivia_suffix found).trans walk.place.2)

/-- The walk has its stack empty for the first time, after its beginning, at
this place. -/
inductive EmptiesFirst : BracketWalk whole → Place whole → Prop where
  | emptied {walk : BracketWalk whole} {place : Place whole} :
      walk.next = .ok (some ⟨[], place⟩) → EmptiesFirst walk place
  | later {walk between : BracketWalk whole} {place : Place whole} :
      walk.next = .ok (some between) → between.stack ≠ [] →
      EmptiesFirst between place →
      EmptiesFirst walk place

section Steps

variable {walk : BracketWalk whole} {character : Char} {rest : Text}

theorem next_of_error (walk : BracketWalk whole) {fault : Fault}
    (found : skipTrivia walk.place.1 = .error fault) :
    walk.next = .error fault := by
  rw [next]
  split <;> simp_all

theorem next_of_nil
    (walk : BracketWalk whole) (found : skipTrivia walk.place.1 = .ok []) :
    walk.next = match walk.stack with
      | [] => .ok none
      | bracket :: _ => .error bracket.unclosed := by
  rw [next]
  split <;> simp_all

theorem next_of_cons (walk : BracketWalk whole)
    (found : skipTrivia walk.place.1 = .ok (character :: rest)) :
    walk.next =
      pass walk.stack ((skipTrivia_suffix found).trans walk.place.2) := by
  rw [next]
  split
  · next failed => cases found.symm.trans failed
  · next ended => cases found.symm.trans ended
  · next same =>
      cases found.symm.trans same
      rfl

/-- Behind a token that is no bracket the stack-based walker goes on as it does
behind a string, a template literal or a single character. -/
theorem behindToken_eq
    (inside : character :: rest <:+ whole) (stack : List OpenBracket) :
    (if isQuotationMark character then
      match ended : skipString (character :: rest) with
      | .error fault => .error fault
      | .ok _ => expressionEnd stack
          (Place.further (.tail inside) (skipString_suffix ended))
    else if character = '\x60' then
      match skipTemplateBody (character :: rest) (.start rest) with
      | .error fault => .error fault
      | .ok after => expressionEnd stack (Place.within (.tail inside) after)
    else expressionEnd stack (.tail inside)) =
      behindToken inside >>= expressionEnd stack := by
  rw [behindToken]
  split
  · split <;> rfl
  · split
    · cases skipTemplateBody (character :: rest) (Place.start rest) <;> rfl
    · rfl

theorem expressionEnd_eq_next (walk : BracketWalk whole) :
    expressionEnd walk.stack walk.place =
      match walk.next with
      | .error fault => .error fault
      | .ok none => .ok walk.place
      | .ok (some further) => expressionEnd further.stack further.place := by
  rw [expressionEnd.eq_def]
  simp only
  split
  · next failed => rw [next_of_error _ failed]
  · next ended =>
      rw [next_of_nil _ ended]
      cases walk.stack <;> rfl
  · next character rest found =>
      rw [next_of_cons _ found, pass.eq_def]
      cases opens : closerOf? character with
      | some closer => rfl
      | none =>
          by_cases closes : isCloser character = true
          · simp only [if_pos closes]
            cases walk.stack with
            | nil => rfl
            | cons bracket others =>
                by_cases same : bracket.closer = character <;>
                  simp only [same, ↓reduceIte]
          · simp only [if_neg closes]
            by_cases ends : (isSeparator character && walk.stack.isEmpty) = true
            · simp only [if_pos ends]
            · simp only [if_neg ends]
              refine (behindToken_eq _ _).trans ?_
              cases behindToken _ <;> rfl

/-- The end of an expression from one token to the next, on texts alone. -/
theorem flatEnd?_eq_next (walk : BracketWalk whole) :
    flatEnd? (walk.stack.map OpenBracket.closer) walk.place.1 =
      match walk.next with
      | .error _ => none
      | .ok none => some walk.place.1
      | .ok (some further) =>
          flatEnd? (further.stack.map OpenBracket.closer) further.place.1 := by
  rw [← expressionEnd_toOption, expressionEnd_eq_next]
  cases walk.next with
  | error fault => rfl
  | ok outcome =>
      cases outcome with
      | none => rfl
      | some further => exact expressionEnd_toOption _ _

theorem suffix_of_behindToken
    {inside : character :: rest <:+ whole} {place : Place whole}
    (passed : behindToken inside = .ok place) : place.1 <:+ rest := by
  rw [behindToken] at passed
  split at passed
  · split at passed
    · contradiction
    · next ended =>
        cases passed
        exact skipString_suffix ended
  · split at passed
    · obtain ⟨after, -, rfl⟩ := map_eq_ok.1 passed
      exact after.2
    · cases passed
      exact List.suffix_refl rest

theorem suffix_of_pass {stack : List OpenBracket}
    {inside : character :: rest <:+ whole} {further : BracketWalk whole}
    (passed : pass stack inside = .ok (some further)) :
    further.place.1 <:+ rest := by
  rw [pass.eq_def] at passed
  split at passed
  · cases passed
    exact List.suffix_refl rest
  · split at passed
    · split at passed
      · cases passed
      · split at passed
        · cases passed
          exact List.suffix_refl rest
        · contradiction
    · split at passed
      · cases passed
      · obtain ⟨place, behind, same⟩ := map_eq_ok.1 passed
        cases same
        exact suffix_of_behindToken behind

theorem length_lt_of_next
    {further : BracketWalk whole} (steps : walk.next = .ok (some further)) :
    further.place.1.length < walk.place.1.length := by
  rw [next] at steps
  split at steps
  · contradiction
  · split at steps <;> cases steps
  · next found =>
      have shorter := (suffix_of_pass steps).length_le
      exact Nat.lt_of_le_of_lt shorter (skipTrivia_suffix found).length_le

end Steps

section Below

variable {walk : BracketWalk whole} {character : Char} {rest : Text}

/-- The walk with one more bracket below its stack. -/
def below (walk : BracketWalk whole)
    (bracket : OpenBracket) : BracketWalk whole :=
  ⟨walk.stack ++ [bracket], walk.place⟩

/-- A walk passes a token in the same way with one more bracket below its
stack. -/
theorem pass_below
    {stack : List OpenBracket} {inside : character :: rest <:+ whole}
    (goesOn : pass stack inside ≠ .ok none) (bracket : OpenBracket) :
    pass (stack ++ [bracket]) inside =
      (pass stack inside).map (Option.map (below · bracket)) := by
  rw [pass.eq_def] at goesOn ⊢
  rw [pass.eq_def stack]
  cases opens : closerOf? character with
  | some closer => rfl
  | none =>
      simp only [opens] at goesOn ⊢
      by_cases closes : isCloser character = true
      · simp only [if_pos closes] at goesOn ⊢
        cases stack with
        | nil => contradiction
        | cons top others =>
            simp only [List.cons_append]
            split <;> rfl
      · simp only [if_neg closes] at goesOn ⊢
        have inItem : (isSeparator character && stack.isEmpty) = false := by
          by_contra ends
          exact goesOn (if_pos (Bool.not_eq_false _ ▸ ends))
        have below : (isSeparator character && (stack ++ [bracket]).isEmpty) =
            false := by simp
        rw [inItem, below]
        cases behindToken inside <;> rfl

/-- While a walk goes on, one more bracket below its stack changes nothing. -/
theorem next_below (goesOn : walk.next ≠ .ok none) (bracket : OpenBracket) :
    (walk.below bracket).next =
      walk.next.map (Option.map (below · bracket)) := by
  cases found : skipTrivia walk.place.1 with
  | error fault =>
      rw [next_of_error (walk.below bracket) found, next_of_error _ found]
      rfl
  | ok unread =>
      cases unread with
      | nil =>
          rw [next_of_nil _ found] at goesOn ⊢
          rw [next_of_nil (walk.below bracket) found, below]
          cases stack : walk.stack with
          | nil => simp [stack] at goesOn
          | cons top others => rfl
      | cons character rest =>
          rw [next_of_cons _ found] at goesOn ⊢
          rw [next_of_cons (walk.below bracket) found]
          exact pass_below goesOn bracket

theorem ends_of_pass
    {stack : List OpenBracket} {inside : character :: rest <:+ whole}
    (ends : pass stack inside = .ok none) :
    stack = [] ∧
    (isCloser character = true ∨ isSeparator character = true) := by
  rw [pass.eq_def] at ends
  split at ends
  · cases ends
  · split at ends
    · next closes =>
        split at ends
        · exact ⟨rfl, .inl closes⟩
        · split at ends <;> cases ends
    · split at ends
      · next separates =>
          rw [Bool.and_eq_true, List.isEmpty_iff] at separates
          exact ⟨separates.2, .inr separates.1⟩
      · obtain ⟨place, -, same⟩ := map_eq_ok.1 ends
        cases same

/-- A walk ends with an empty stack, in front of a closer, a separator or
nothing. -/
theorem ends_of_next (ends : walk.next = .ok none) :
    walk.stack = [] ∧ Stops walk.place.1 := by
  rw [next] at ends
  split at ends
  · cases ends
  · next found =>
      split at ends
      · next empty => exact ⟨empty, .inl found⟩
      · cases ends
  · next found =>
      obtain ⟨empty, atEnd⟩ := ends_of_pass ends
      exact ⟨empty, .inr ⟨_, _, found, atEnd⟩⟩

theorem pass_closer
    {inside : character :: rest <:+ whole} (closes : isCloser character = true)
    (bracket : OpenBracket) (others : List OpenBracket) :
    pass (bracket :: others) inside =
      if bracket.closer = character then .ok (some ⟨others, .tail inside⟩)
      else .error (.here (.mismatched bracket.closer character)
          (character :: rest)) := by
  rcases mem_of_isCloser closes with rfl | rfl | rfl <;> rfl

theorem pass_separator {inside : character :: rest <:+ whole}
    (separates : isSeparator character = true) (bracket : OpenBracket)
    (others : List OpenBracket) :
    pass (bracket :: others) inside =
      .ok (some ⟨bracket :: others, .tail inside⟩) := by
  rcases mem_of_isSeparator separates with rfl | rfl <;> rfl

end Below

section Empties

variable {walk further : BracketWalk whole} {place : Place whole}

theorem not_emptiesFirst {fault : Fault} (fails : walk.next = .error fault) :
    ¬ walk.EmptiesFirst place := by
  intro empties
  cases empties with
  | emptied steps => cases fails.symm.trans steps
  | later steps => cases fails.symm.trans steps

theorem emptiesFirst_iff_later (steps : walk.next = .ok (some further))
    (more : further.stack ≠ []) :
    walk.EmptiesFirst place ↔ further.EmptiesFirst place := by
  constructor
  · intro empties
    cases empties with
    | emptied same =>
        cases steps.symm.trans same
        contradiction
    | later same more empties =>
        cases steps.symm.trans same
        exact empties
  · exact .later steps more

theorem emptiesFirst_iff_emptied {first : Place whole}
    (steps : walk.next = .ok (some ⟨[], first⟩)) :
    walk.EmptiesFirst place ↔ first = place := by
  constructor
  · intro empties
    cases empties with
    | emptied same =>
        cases steps.symm.trans same
        rfl
    | later same more =>
        cases steps.symm.trans same
        contradiction
  · rintro rfl
    exact .emptied steps

/-- When the stack has become empty, the walker goes on as it does from its
beginning. -/
theorem EmptiesFirst.expressionEnd_eq (empties : walk.EmptiesFirst place) :
    expressionEnd walk.stack walk.place = expressionEnd [] place := by
  induction empties with
  | emptied steps => rw [expressionEnd_eq_next, steps]
  | later steps _ _ induction => rw [expressionEnd_eq_next, steps, ← induction]

end Empties

end BracketWalk

/-- The text behind a group, from inside one of its items where some brackets
are open. -/
def groupEndFrom? (closer : Char) (closers : List Char)
    (text : Text) : Option Text :=
  (flatEnd? closers text).bind fun finish =>
    match skipTrivia finish with
    | .ok (character :: after) =>
        if character = closer then some after
        else if isSeparator character then groupEnd? closer after else none
    | _ => none

theorem groupEnd?_eq_groupEndFrom? (closer : Char) (text : Text) :
    groupEnd? closer text = groupEndFrom? closer [] text :=
  groupEnd?_eq closer text

namespace BracketWalk

variable {whole : Text}

/-- Where an item of a group ends, a walk with no other bracket open fails,
closes the bracket of the group, or goes on with the next item; the group does
the same. -/
theorem next_of_stops
    {bracket : OpenBracket} (closes : isCloser bracket.closer = true)
    {place : Place whole} (stops : Stops place.1) :
    (∃ fault, next ⟨[bracket], place⟩ = .error fault ∧
        groupEnd? bracket.closer place.1 = none) ∨
    (∃ behind : Place whole, next ⟨[bracket], place⟩ = .ok (some ⟨[], behind⟩) ∧
        groupEnd? bracket.closer place.1 = some behind.1) ∨
    ∃ behind : Place whole,
      next ⟨[bracket], place⟩ = .ok (some ⟨[bracket], behind⟩) ∧
      groupEnd? bracket.closer place.1 = groupEnd? bracket.closer behind.1 := by
  rw [groupEnd?_eq, flatEnd?_of_stops stops, Option.bind_some]
  rcases stops with found | ⟨character, rest, found, closer | separates⟩
  · exact .inl ⟨_, next_of_nil ⟨[bracket], place⟩ found, by simp [found]⟩
  · have steps := next_of_cons ⟨[bracket], place⟩ found
    rw [pass_closer closer] at steps
    by_cases same : bracket.closer = character
    · rw [if_pos same] at steps
      exact .inr (.inl ⟨_, steps, by simp [found, same]⟩)
    · rw [if_neg same] at steps
      exact .inl ⟨_, steps,
        by simp [found, Ne.symm same, isSeparator_of_isCloser closer]⟩
  · have steps := next_of_cons ⟨[bracket], place⟩ found
    rw [pass_separator separates] at steps
    have different : character ≠ bracket.closer := by
      rintro rfl
      simp [isSeparator_of_isCloser closes] at separates
    exact .inr (.inr ⟨_, steps, by simp [found, different, separates]⟩)

/-- A bracket at the bottom of the stack is closed where its group ends. -/
theorem emptiesFirst_below
    (bracket : OpenBracket) (closes : isCloser bracket.closer = true)
    (walk : BracketWalk whole) (place : Place whole) :
    (walk.below bracket).EmptiesFirst place ↔
      groupEndFrom? bracket.closer
        (walk.stack.map OpenBracket.closer) walk.place.1 =
        some place.1 := by
  cases steps : walk.next with
  | error fault =>
      have fails : (walk.below bracket).next = .error fault := by
        rw [next_below (by simp [steps]), steps]
        rfl
      rw [groupEndFrom?, flatEnd?_eq_next, steps]
      simp [not_emptiesFirst fails]
  | ok outcome =>
      cases outcome with
      | some further =>
          have goesOn : (walk.below bracket).next =
              .ok (some (further.below bracket)) := by
            rw [next_below (by simp [steps]), steps]
            rfl
          have shorter := length_lt_of_next steps
          rw [emptiesFirst_iff_later goesOn (by simp [below]),
            emptiesFirst_below bracket closes further, groupEndFrom?,
            groupEndFrom?, flatEnd?_eq_next walk, steps]
      | none =>
          -- Here an item of the group ends, and so nothing but the bracket
          -- itself is open.
          obtain ⟨empty, stops⟩ := ends_of_next steps
          have onlyOne : walk.below bracket = ⟨[bracket], walk.place⟩ := by
            rw [below, empty]
            rfl
          rw [onlyOne, empty, List.map_nil, ← groupEnd?_eq_groupEndFrom?]
          rcases next_of_stops closes stops with
            ⟨fault, fails, unended⟩ | ⟨behind, closed, ended⟩ |
              ⟨behind, goesOn, later⟩
          · simp [not_emptiesFirst fails, unended]
          · rw [emptiesFirst_iff_emptied closed, ended, Option.some.injEq,
              Subtype.ext_iff]
          · have shorter : behind.1.length < walk.place.1.length :=
              length_lt_of_next goesOn
            rw [emptiesFirst_iff_later goesOn (List.cons_ne_nil _ _), later,
              groupEnd?_eq_groupEndFrom?]
            exact emptiesFirst_below bracket closes ⟨[], behind⟩ place
termination_by walk.place.1.length

/-- The walk over an expression before its first token. -/
def start (whole : Text) : BracketWalk whole := ⟨[], .start whole⟩

section Start

variable {opener closer : Char}

theorem emptiesFirst_start (opens : closerOf? opener = some closer)
    {inner : Text} (place : Place (opener :: inner)) :
    (start (opener :: inner)).EmptiesFirst place ↔
      groupEnd? closer inner = some place.1 := by
  have found : BeginsToken (opener :: inner) :=
    beginsToken_of_notGap (notGap_of_closerOf? opens) inner
  have closes : isCloser closer = true := by
    rcases mem_of_closerOf? opens with ⟨-, rfl⟩ | ⟨-, rfl⟩ | ⟨-, rfl⟩ <;> rfl
  have steps := next_of_cons (start (opener :: inner)) found
  rw [pass.eq_def, opens] at steps
  rw [emptiesFirst_iff_later steps (List.cons_ne_nil _ _),
    groupEnd?_eq_groupEndFrom?]
  exact emptiesFirst_below ⟨closer, opener :: inner⟩ closes
    ⟨[], .tail (List.suffix_refl (opener :: inner))⟩ place

theorem skipExpression_group (opens : closerOf? opener = some closer)
    {body : Text} (closes : ClosesGroup closer body) :
    skipExpression (opener :: (body ++ [closer])) =
      .ok ⟨[], List.nil_suffix⟩ := by
  have empties := (emptiesFirst_start opens ⟨[], List.nil_suffix⟩).2 (closes [])
  have ends : expressionEnd []
      (⟨[], List.nil_suffix⟩ : Place (opener :: (body ++ [closer]))) =
      .ok ⟨[], List.nil_suffix⟩ := by
    rw [expressionEnd_eq_next ⟨[], _⟩, next_of_nil _ rfl]
  exact empties.expressionEnd_eq.trans ends

end Start

end BracketWalk

/-- A cursor at the beginning of an expression moves to the end of the text with
it. -/
theorem Cursor.skipExpression_ofText {text : Text} (more : text ≠ [])
    (ended : ConfigEdit.skipExpression text = .ok ⟨[], List.nil_suffix⟩) :
    (Cursor.ofText text).skipExpression =
      (⟨text, text.utf8Size⟩, .ok text.utf8Size) := by
  have begins : text.seek 0 = (text, 0) := by
    have place := Walk.seek_offsetOf (List.suffix_refl text)
    rwa [Walk.offsetOf_self] at place
  have rest : (if (Cursor.ofText text).inside = 0 then (Cursor.ofText text).rest
      else (Cursor.ofText text).rest.tail) = text := by
    simp only [Cursor.inside, Cursor.rest, Cursor.ofText, begins, if_true]
  have size : 0 < text.utf8Size := by
    obtain ⟨first, others, rfl⟩ := List.exists_cons_of_ne_nil more
    have positive := first.utf8Size_pos
    rw [Text.utf8Size_cons]
    omega
  have goesOn : (Cursor.ofText text).atEnd = false := by
    rw [Cursor.atEnd, decide_eq_false_iff_not]
    exact Nat.not_le_of_lt size
  rw [Cursor.skipExpression, rest, ended]
  simp only [goesOn]
  rfl

/-- From an opening bracket on, `skipGroup` gets to an offset exactly if the
stack of `skipExpression` gets empty there for the first time, and what it has
stepped over is an expression on its own. -/
theorem Cursor.skipGroup_iff_emptiesFirst {opener closer : Char}
    (opens : closerOf? opener = some closer) (before inner : Text)
    (finish : Nat) :
    let text := before ++ opener :: inner
    let cursor : Cursor := ⟨text, before.utf8Size⟩
    (cursor.skipGroup = (⟨text, finish⟩, none) ↔
      ∃ place, (BracketWalk.start (opener :: inner)).EmptiesFirst place ∧
        cursor.offsetOf place.1 = finish) ∧
    (cursor.skipGroup = (⟨text, finish⟩, none) →
      ∃ slice after,
        text = before ++ slice ++ after ∧ (before ++ slice).utf8Size = finish ∧
        (Cursor.ofText slice).skipExpression =
          (⟨slice, slice.utf8Size⟩, .ok slice.utf8Size)) := by
  intro text cursor
  have stands : cursor.text.seek cursor.offset = (opener :: inner, 0) := by
    have place :=
      Walk.seek_offsetOf (List.suffix_append before (opener :: inner))
    rwa [Walk.offsetOf_append] at place
  have moves : cursor.skipGroup = (⟨text, finish⟩, none) ↔
      ∃ after, groupEnd? closer inner = some after ∧
        cursor.offsetOf after = finish := by
    rw [Cursor.skipGroup, Cursor.inside, Cursor.rest, stands]
    simp only [if_true, ← skipGroup_eq_ok opens]
    cases ConfigEdit.skipGroup (opener :: inner) <;> simp [Cursor.after, cursor]
  constructor
  · rw [moves]
    constructor
    · rintro ⟨after, ended, offset⟩
      obtain ⟨body, rfl, -⟩ := exists_closesGroup_of_groupEnd? ended
      have inside : after <:+ opener :: (body ++ closer :: after) :=
        ⟨opener :: (body ++ [closer]), by simp⟩
      exact ⟨⟨after, inside⟩, (BracketWalk.emptiesFirst_start opens _).2 ended,
        offset⟩
    · rintro ⟨place, empties, offset⟩
      exact ⟨place.1, (BracketWalk.emptiesFirst_start opens place).1 empties,
        offset⟩
  · intro moved
    obtain ⟨after, ended, rfl⟩ := moves.1 moved
    obtain ⟨body, rfl, closes⟩ := exists_closesGroup_of_groupEnd? ended
    let slice : Text := opener :: (body ++ [closer])
    have parts : text = before ++ slice ++ after := by simp [text, slice]
    refine ⟨slice, after, parts, ?_, ?_⟩
    · rw [← Walk.offsetOf_append, ← parts]
      rfl
    · exact skipExpression_ofText (List.cons_ne_nil _ _)
        (BracketWalk.skipExpression_group opens closes)

/-- Behind the group the expression goes on with a bracket that is never
closed. -/
theorem Cursor.skipGroup_iff_emptiesFirst_call :
    let before : Text := "f".toList
    let inner : Text := "[1, ')'];\x60${2}\x60) + g(".toList
    let cursor : Cursor := ⟨before ++ '(' :: inner, before.utf8Size⟩
    cursor.skipExpression.2.toOption = none ∧
      cursor.skipGroup = ({ cursor with offset := 18 }, none) ∧
      (∃ place, (BracketWalk.start ('(' :: inner)).EmptiesFirst place ∧
        cursor.offsetOf place.1 = 18) ∧
      ∃ slice after, cursor.text = before ++ slice ++ after ∧
        (before ++ slice).utf8Size = 18 ∧
        (Cursor.ofText slice).skipExpression =
          (⟨slice, slice.utf8Size⟩, .ok slice.utf8Size) := by
  intro before inner cursor
  have opens : closerOf? '(' = some ')' := rfl
  have agree := skipGroup_iff_emptiesFirst opens before inner 18
  have moved : cursor.skipGroup = ({ cursor with offset := 18 }, none) := by
    decide +kernel
  exact ⟨by decide +kernel, moved, agree.1.1 moved, agree.2 moved⟩

end ConfigEdit
