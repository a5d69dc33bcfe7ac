import ConfigEdit.Scan.Expression

/-!
# Successful walks over brackets

The three walkers of `ConfigEdit.Scan.Expression` return places of a text, and
their faults name the brackets that are open.  A successful walk depends on
neither: `templateEnd?`, `groupEnd?` and `flatEnd?` are the same walks on texts
alone, with the closers of the open brackets as the only state.  Each of them
satisfies the equation one expects of it.
-/

namespace ConfigEdit

/-- The text behind a template literal of which the opening mark has been
read. -/
def templateEnd? (text : Text) : Option Text :=
  (skipTemplateBody [] (.start text)).toOption.map Subtype.val

/-- The text behind a group of which the opening bracket has been read. -/
def groupEnd? (closer : Char) (text : Text) : Option Text :=
  (skipGroupBody ⟨closer, []⟩ (.start text)).toOption.map Subtype.val

/-- The text behind the last token of an expression, while brackets with the
given closers are open. -/
def flatEnd? (closers : List Char) (text : Text) : Option Text :=
  (expressionEnd (closers.map (⟨·, []⟩)) (.start text)).toOption.map Subtype.val

theorem eq_ok_of_toOption
    {fault value : Type} {result : Except fault value} {found : value}
    (same : result.toOption = some found) : result = .ok found := by
  cases result with
  | error => contradiction
  | ok => exact congrArg Except.ok (Option.some.inj same)

private theorem skipTemplateBody_congr {left right text : Text}
    (first : text <:+ left) (second : text <:+ right) (opener other : Text) :
    (skipTemplateBody opener ⟨text, first⟩).toOption.map Subtype.val =
      (skipTemplateBody other ⟨text, second⟩).toOption.map Subtype.val := by
  cases text with
  | nil =>
      rw [skipTemplateBody, skipTemplateBody]
      rfl
  | cons character rest =>
      have shorter : rest.tail.length ≤ rest.length :=
        (List.tail_suffix rest).length_le
      rw [skipTemplateBody, skipTemplateBody]
      simp only
      split
      · exact skipTemplateBody_congr _ _ _ _
      · split
        · rfl
        · split
          · cases skipGroupBody ⟨'}', rest⟩ (Place.start rest.tail) with
            | error fault => rfl
            | ok after =>
                have : after.1.length ≤ rest.tail.length := after.length_le
                exact skipTemplateBody_congr _ _ _ _
          · exact skipTemplateBody_congr _ _ _ _
termination_by text.length
decreasing_by all_goals subst_vars; simp only [List.length_cons]; omega

private theorem skipGroupBody_congr
    {left right text : Text} (first : text <:+ left)
    (second : text <:+ right) {bracket other : OpenBracket}
    (closers : bracket.closer = other.closer) :
    (skipGroupBody bracket ⟨text, first⟩).toOption.map Subtype.val =
      (skipGroupBody other ⟨text, second⟩).toOption.map Subtype.val := by
  rw [skipGroupBody, skipGroupBody]
  simp only
  cases expressionEnd [] (Place.start text) with
  | error fault => rfl
  | ok finish =>
      have bound : finish.1.length ≤ text.length := finish.length_le
      simp only
      split
      · rfl
      · rfl
      · next character rest found =>
          have : rest.length < finish.1.length :=
            (skipTrivia_suffix found).length_le
          rw [closers]
          split
          · rfl
          · split
            · exact skipGroupBody_congr _ _ closers
            · rfl
termination_by text.length

private theorem expressionEnd_congr
    {left right text : Text} (first : text <:+ left)
    (second : text <:+ right) {stack others : List OpenBracket}
    (closers : stack.map OpenBracket.closer = others.map OpenBracket.closer) :
    (expressionEnd stack ⟨text, first⟩).toOption.map Subtype.val =
      (expressionEnd others ⟨text, second⟩).toOption.map Subtype.val := by
  have empty : stack.isEmpty = others.isEmpty := by
    simpa using congrArg List.isEmpty closers
  rw [expressionEnd.eq_def, expressionEnd.eq_def others]
  simp only
  split
  · rfl
  · cases stack <;> cases others <;> first | rfl | simp at empty
  · next character rest found =>
      have shorter : rest.length < text.length :=
        (skipTrivia_suffix found).length_le
      split
      · exact expressionEnd_congr _ _ (by simp [closers])
      · rw [empty]
        split
        · cases stack with
          | nil =>
              cases others with
              | nil => rfl
              | cons other others => simp at empty
          | cons bracket stack =>
              cases others with
              | nil => simp at empty
              | cons other others =>
                  simp only [List.map_cons, List.cons.injEq] at closers
                  simp only [closers.1]
                  split
                  · exact expressionEnd_congr _ _ closers.2
                  · rfl
        · split
          · rfl
          · split
            · split
              · rfl
              · next after ended =>
                  have : after.length ≤ rest.length :=
                    (skipString_suffix ended).length_le
                  exact expressionEnd_congr _ _ closers
            · split
              · cases skipTemplateBody (character :: rest)
                  (Place.start rest) with
                | error fault => rfl
                | ok after =>
                    have : after.1.length ≤ rest.length := after.length_le
                    exact expressionEnd_congr _ _ closers
              · exact expressionEnd_congr _ _ closers
termination_by text.length

/-- A walk over a template literal is the one on its text. -/
theorem skipTemplateBody_toOption
    (opener : Text) {whole : Text} (place : Place whole) :
    (skipTemplateBody opener place).toOption.map Subtype.val =
      templateEnd? place.1 :=
  skipTemplateBody_congr _ _ _ _

theorem skipGroupBody_toOption
    (bracket : OpenBracket) {whole : Text} (place : Place whole) :
    (skipGroupBody bracket place).toOption.map Subtype.val =
      groupEnd? bracket.closer place.1 :=
  skipGroupBody_congr _ _ rfl

theorem expressionEnd_toOption (stack : List OpenBracket) {whole : Text}
    (place : Place whole) :
    (expressionEnd stack place).toOption.map Subtype.val =
      flatEnd? (stack.map OpenBracket.closer) place.1 :=
  expressionEnd_congr _ _ (by simp [Function.comp_def])

theorem skipTemplate_eq_ok {opener : Char} {inner after : Text} :
    skipTemplate (opener :: inner) = .ok after ↔
      templateEnd? inner = some after := by
  have ended := skipTemplateBody_toOption (opener :: inner) (.start inner)
  rw [skipTemplate, ← ended]
  cases skipTemplateBody (opener :: inner) (Place.start inner) <;>
    simp [Except.map, Except.toOption]

theorem skipGroup_eq_ok {opener closer : Char}
    (opens : closerOf? opener = some closer) {inner after : Text} :
    skipGroup (opener :: inner) = .ok after ↔
      groupEnd? closer inner = some after := by
  have ended := skipGroupBody_toOption ⟨closer, opener :: inner⟩ (.start inner)
  rw [skipGroup, ← ended]
  simp only [opens]
  cases skipGroupBody ⟨closer, opener :: inner⟩ (Place.start inner) <;>
    simp [Except.map, Except.toOption]

theorem templateEnd?_nil : templateEnd? [] = none := by
  rw [templateEnd?, skipTemplateBody]
  rfl

theorem templateEnd?_cons (character : Char) (rest : Text) :
    templateEnd? (character :: rest) =
      if character = '\\' then templateEnd? rest.tail
      else if character = '\x60' then some rest
      else if character = '$' ∧ rest.head? = some '{' then
        (groupEnd? '}' rest.tail).bind templateEnd?
      else templateEnd? rest := by
  rw [templateEnd?, skipTemplateBody]
  simp only
  split
  · exact skipTemplateBody_toOption _ _
  · split
    · rfl
    · simp only [Bool.and_eq_true, decide_eq_true_eq]
      split
      · have group := skipGroupBody_toOption ⟨'}', rest⟩ (.start rest.tail)
        rw [← group]
        cases skipGroupBody ⟨'}', rest⟩ (Place.start rest.tail) with
        | error fault => rfl
        | ok after => exact skipTemplateBody_toOption _ _
      · exact skipTemplateBody_toOption _ _

/-- The ways in which a walk over a template literal gets to the text behind
it. -/
inductive TemplateStep (rest : Text) : Text → Prop where
  | mark : TemplateStep rest ('\x60' :: rest)
  | escape {escaped : Char} {others : Text} :
      templateEnd? others = some rest →
      TemplateStep rest ('\\' :: escaped :: others)
  | substitution {inner behind : Text} :
      groupEnd? '}' inner = some behind → templateEnd? behind = some rest →
      TemplateStep rest ('$' :: '{' :: inner)
  | other {character : Char} {others : Text} :
      character ≠ '\\' → character ≠ '\x60' →
      (character = '$' → others.head? ≠ some '{') →
      templateEnd? others = some rest → TemplateStep rest (character :: others)

theorem templateEnd?_eq_some_iff {text rest : Text} :
    templateEnd? text = some rest ↔ TemplateStep rest text := by
  constructor
  · intro walked
    cases text with
    | nil => simp [templateEnd?_nil] at walked
    | cons character others =>
        rw [templateEnd?_cons] at walked
        split at walked
        · next backslash =>
            subst backslash
            cases others with
            | nil => simp [templateEnd?_nil] at walked
            | cons escaped others => exact .escape walked
        · next notBackslash =>
            split at walked
            · next mark =>
                cases walked
                exact mark ▸ .mark
            · next notMark =>
                split at walked
                · next substitution =>
                    obtain ⟨rfl, opens⟩ := substitution
                    obtain ⟨inner, rfl⟩ := List.head?_eq_some_iff.1 opens
                    obtain ⟨behind, ended, walked⟩ :=
                      Option.bind_eq_some_iff.1 walked
                    exact .substitution ended walked
                · next notSubstitution =>
                    exact .other notBackslash notMark
                      (fun dollar opens => notSubstitution ⟨dollar, opens⟩)
                      walked
  · intro step
    cases step with
    | mark => rw [templateEnd?_cons, if_neg (by decide), if_pos rfl]
    | escape walked =>
        rw [templateEnd?_cons, if_pos rfl, List.tail_cons, walked]
    | substitution ended walked =>
        rw [templateEnd?_cons, if_neg (by decide), if_neg (by decide),
          if_pos ⟨rfl, rfl⟩, List.tail_cons, ended, Option.bind_some, walked]
    | other notBackslash notMark notSubstitution walked =>
        rw [templateEnd?_cons, if_neg notBackslash, if_neg notMark, if_neg,
          walked]
        rintro ⟨dollar, opens⟩
        exact notSubstitution dollar opens

theorem groupEnd?_eq (closer : Char) (text : Text) :
    groupEnd? closer text =
      (flatEnd? [] text).bind fun finish =>
        match skipTrivia finish with
        | .ok (character :: after) =>
            if character = closer then some after
            else if isSeparator character then groupEnd? closer after else none
        | _ => none := by
  have items := expressionEnd_toOption [] (.start text)
  simp only [List.map_nil] at items
  rw [groupEnd?, skipGroupBody, ← items]
  simp only
  cases expressionEnd [] (Place.start text) with
  | error fault => rfl
  | ok finish =>
      change _ = (match skipTrivia finish.1 with
        | .ok (character :: after) =>
            if character = closer then some after
            else if isSeparator character then groupEnd? closer after else none
        | _ => none)
      simp only
      split
      · next failed => simp [failed, Except.toOption]
      · next ended => simp [ended, Except.toOption]
      · next character after found =>
          simp only [found]
          split
          · rfl
          · split
            · exact skipGroupBody_toOption _ _
            · rfl

theorem groupEnd?_eq_some {closer : Char} {text rest : Text}
    (walked : groupEnd? closer text = some rest) :
    ∃ finish character after, flatEnd? [] text = some finish ∧
      skipTrivia finish = .ok (character :: after) ∧
      (character = closer ∧ rest = after ∨
        character ≠ closer ∧ isSeparator character = true ∧
          groupEnd? closer after = some rest) := by
  rw [groupEnd?_eq] at walked
  obtain ⟨finish, ended, walked⟩ := Option.bind_eq_some_iff.1 walked
  split at walked
  · next character after found =>
      refine ⟨finish, character, after, ended, found, ?_⟩
      split at walked
      · next same => exact .inl ⟨same, (Option.some.inj walked).symm⟩
      · next different =>
        split at walked
        · next separator => exact .inr ⟨different, separator, walked⟩
        · contradiction
  · contradiction

theorem flatEnd?_eq (closers : List Char) (text : Text) :
    flatEnd? closers text =
      match skipTrivia text with
      | .error _ => none
      | .ok [] => if closers = [] then some text else none
      | .ok (character :: rest) =>
          match closerOf? character with
          | some closer => flatEnd? (closer :: closers) rest
          | none =>
              if isCloser character then
                match closers with
                | [] => some text
                | closer :: others =>
                    if closer = character then flatEnd? others rest else none
              else if isSeparator character ∧ closers = [] then some text
              else if isQuotationMark character then
                (skipString (character :: rest)).toOption.bind
                  (flatEnd? closers)
              else if character = '\x60' then
                (templateEnd? rest).bind (flatEnd? closers)
              else flatEnd? closers rest := by
  have closing : (closers.map fun closer => (⟨closer, []⟩ : OpenBracket)).map
    OpenBracket.closer =
      closers := by
    simp [Function.comp_def]
  rw [flatEnd?, expressionEnd.eq_def]
  simp only
  split
  · next failed => simp [failed, Except.toOption]
  · next ended =>
      simp only [ended]
      cases closers <;> rfl
  next character rest found =>
  simp only [found]
  cases opens : closerOf? character with
  | some closer => simp only [expressionEnd_toOption, List.map_cons, closing]
  | none =>
  simp only
  by_cases closes : isCloser character = true
  · rw [if_pos closes, if_pos closes]
    cases closers with
    | nil => rfl
    | cons closer others =>
        simp only [List.map_cons, List.cons.injEq, true_and] at closing ⊢
        split
        · rw [expressionEnd_toOption, closing]
        · rfl
  rw [if_neg closes, if_neg closes]
  simp only [Bool.and_eq_true, List.isEmpty_iff, List.map_eq_nil_iff]
  by_cases separates : isSeparator character = true ∧ closers = []
  · rw [if_pos separates, if_pos separates]
    rfl
  rw [if_neg separates, if_neg separates]
  by_cases quotes : isQuotationMark character = true
  · rw [if_pos quotes, if_pos quotes]
    split
    · next failed => simp [failed, Except.toOption]
    · next after ended =>
        rw [expressionEnd_toOption, closing]
        simp [ended, Except.toOption]
  rw [if_neg quotes, if_neg quotes]
  by_cases mark : character = '\x60'
  · rw [if_pos mark, if_pos mark,
      ← skipTemplateBody_toOption (character :: rest) (.start rest)]
    cases skipTemplateBody (character :: rest) (Place.start rest) with
    | error fault => rfl
    | ok after =>
        rw [expressionEnd_toOption, closing]
        rfl
  · rw [if_neg mark, if_neg mark, expressionEnd_toOption, closing]

end ConfigEdit
