import ConfigEdit.Document.Parse
import ConfigEdit.Proofs.Scan.Tokens
import ConfigEdit.Proofs.Scan.Words

/-!
# What is read from a text

`ReadsValue strict text value rest` says that an expression is read from the
beginning of a text and what is left behind it.  It has one rule for each way
the reader takes, and the texts in the rules are cut where the reader cuts
them, so the rules can be followed in both directions: what the reader reads is
derived, and what is derived is read.
-/

namespace ConfigEdit

/-- The text behind type arguments, `none` inside if there are none. -/
def typesEnd? (depth : Nat) (text : Text) : Option (Option Text) :=
  (skipTypeArguments depth (.start text)).toOption.map (Option.map Subtype.val)

private theorem skipTypeArguments_congr {left right text : Text}
    (first : text <:+ left) (second : text <:+ right) (depth : Nat) :
    (skipTypeArguments depth ⟨text, first⟩).toOption.map
      (Option.map Subtype.val) =
      (skipTypeArguments depth ⟨text, second⟩).toOption.map
        (Option.map Subtype.val) := by
  rw [skipTypeArguments.eq_def, skipTypeArguments.eq_def]
  cases text with
  | nil => rfl
  | cons character rest =>
      simp only
      split
      · exact skipTypeArguments_congr _ _ _
      · split
        · split
          · rfl
          · exact skipTypeArguments_congr _ _ _
        · split
          · split
            · rfl
            · next after ended =>
                have : after.length ≤ rest.length :=
                  (skipString_suffix ended).length_le
                exact skipTypeArguments_congr _ _ _
          · split
            · rfl
            · exact skipTypeArguments_congr _ _ _
termination_by text.length
decreasing_by all_goals subst_vars; simp only [List.length_cons]; omega

theorem skipTypeArguments_toOption
    (depth : Nat) {whole : Text} (place : Place whole) :
    (skipTypeArguments depth place).toOption.map (Option.map Subtype.val) =
      typesEnd? depth place.1 :=
  skipTypeArguments_congr _ _ _

theorem typesEnd?_nil (depth : Nat) : typesEnd? depth [] = some none := by
  rw [typesEnd?, skipTypeArguments.eq_def]
  rfl

theorem typesEnd?_cons (depth : Nat) (character : Char) (rest : Text) :
    typesEnd? depth (character :: rest) =
      if character = '<' then typesEnd? (depth + 1) rest
      else if character = '>' then
        if depth ≤ 1 then some (some rest) else typesEnd? (depth - 1) rest
      else if isQuotationMark character then
        (skipString (character :: rest)).toOption.bind (typesEnd? depth)
      else if character = '(' || character = ')' || character = ';' ||
          character = ',' || character = '{' || character = '}' then some none
      else typesEnd? depth rest := by
  rw [typesEnd?, skipTypeArguments.eq_def]
  simp only
  split
  · exact skipTypeArguments_toOption _ _
  · split
    · split
      · rfl
      · exact skipTypeArguments_toOption _ _
    · split
      · split
        · next failed => simp [failed, Except.toOption]
        · next after ended =>
            simp only [ended, Except.toOption, Option.bind_some]
            exact skipTypeArguments_toOption _ _
      · split
        · rfl
        · exact skipTypeArguments_toOption _ _

theorem typesEnd?_string {depth : Nat} {mark : Char} {body : Text}
    (quotes : isQuotationMark mark = true) (closes : ClosesString mark body)
    (rest : Text) :
    typesEnd? depth (mark :: (body ++ mark :: rest)) =
      typesEnd? depth rest := by
  have notAngle : mark ≠ '<' ∧ mark ≠ '>' := by
    rcases mem_of_isQuotationMark quotes with rfl | rfl <;> decide
  rw [typesEnd?_cons, if_neg notAngle.1, if_neg notAngle.2, if_pos quotes,
    closes rest, Except.toOption, Option.bind_some]

/-- The ways in which a walk over type arguments gets to its end. -/
inductive TypesStep (depth : Nat) : Text → Option Text → Prop where
  | nil : TypesStep depth [] none
  | closed {character : Char} {others : Text} :
      isGap character = false →
      (∀ behind, typesEnd? depth (character :: behind) = some (some behind)) →
      TypesStep depth (character :: others) (some others)
  | delimited {character : Char} {others : Text} :
      isGap character = false →
      (∀ behind, typesEnd? depth (character :: behind) = some none) →
      TypesStep depth (character :: others) none
  | passed {next : Nat} {character : Char} {others : Text}
      {found : Option Text} :
      (∀ behind,
        typesEnd? depth (character :: behind) = typesEnd? next behind) →
      typesEnd? next others = some found →
      TypesStep depth (character :: others) found
  | string {mark : Char} {body others : Text} {found : Option Text} :
      isQuotationMark mark = true → ClosesString mark body →
      typesEnd? depth others = some found →
      TypesStep depth (mark :: (body ++ mark :: others)) found

theorem typesStep_of_typesEnd? {depth : Nat} {text : Text} {found : Option Text}
    (walked : typesEnd? depth text = some found) :
    TypesStep depth text found := by
  cases text with
  | nil =>
      rw [typesEnd?_nil] at walked
      cases walked
      exact .nil
  | cons character others =>
      rw [typesEnd?_cons] at walked
      split at walked
      · next opens =>
          exact .passed (fun behind => by rw [typesEnd?_cons, if_pos opens])
            walked
      · next notOpens =>
          split at walked
          · next closes =>
              split at walked
              · next outermost =>
                  cases walked
                  refine .closed (by simp [closes, isGap]) fun behind => ?_
                  rw [typesEnd?_cons, if_neg notOpens, if_pos closes,
                    if_pos outermost]
              · next inner =>
                  exact .passed (fun behind => by
                    rw [typesEnd?_cons, if_neg notOpens, if_pos closes,
                      if_neg inner]) walked
          · next notCloses =>
              split at walked
              · next quotes =>
                  obtain ⟨behind, ended, further⟩ :=
                    Option.bind_eq_some_iff.1 walked
                  obtain ⟨-, body, rfl, closes⟩ :=
                    skipString_eq_ok (eq_ok_of_toOption ended)
                  exact .string quotes closes further
              · next notQuotes =>
                  split at walked
                  · next delimiter =>
                      cases walked
                      refine .delimited ?_ fun behind => ?_
                      · simp only [Bool.or_eq_true, decide_eq_true_eq]
                          at delimiter
                        rcases delimiter with
                          ((((rfl | rfl) | rfl) | rfl) | rfl) | rfl <;> decide
                      · rw [typesEnd?_cons, if_neg notOpens, if_neg notCloses,
                          if_neg notQuotes, if_pos delimiter]
                  · next notDelimiter =>
                      exact .passed (fun behind => by
                        rw [typesEnd?_cons, if_neg notOpens, if_neg notCloses,
                          if_neg notQuotes, if_neg notDelimiter]) walked

/-- The text is stepped over as type arguments, whatever follows it. -/
def ClosesTypes (depth : Nat) (types : Text) : Prop :=
  ∀ rest, typesEnd? depth (types ++ rest) = some (some rest)

/-- Type arguments that have been stepped over, whatever follows them. -/
theorem typesEnd?_eq_some {depth : Nat} {text rest : Text}
    (walked : typesEnd? depth text = some (some rest)) :
    ∃ types, text = types ++ rest ∧ ClosesTypes depth types := by
  cases typesStep_of_typesEnd? walked with
  | @closed character _ _ closes => exact ⟨[character], rfl, closes⟩
  | @passed _ character _ _ step further =>
      obtain ⟨types, rfl, closes⟩ := typesEnd?_eq_some further
      exact ⟨character :: types, rfl,
        fun behind => (step _).trans (closes behind)⟩
  | @string mark body _ _ quotes closesString further =>
      obtain ⟨types, rfl, closes⟩ := typesEnd?_eq_some further
      refine ⟨mark :: (body ++ mark :: types), by simp, fun behind => ?_⟩
      have same : mark :: (body ++ mark :: types) ++ behind =
          mark :: (body ++ mark :: (types ++ behind)) := by simp
      rw [same, typesEnd?_string quotes closesString]
      exact closes behind
termination_by text.length
decreasing_by
  all_goals
    subst_vars
    simp only [List.length_append, List.length_cons]
    omega

/-- An expression that is passed over as a run of tokens. -/
structure IsRun (run rest : Text) : Prop where
  more : run ≠ []
  passes : Runs [] run []
  joins : Joins run rest
  stops : Stops rest

/-- The word of a truth value. -/
def truthWord : Bool → Text
  | true => ['t', 'r', 'u', 'e']
  | false => ['f', 'a', 'l', 's', 'e']

/-- The text between the name of a function and the opening parenthesis. -/
inductive CallOpening : Text → Prop where
  | plain {blank : Text} : Trivia blank → CallOpening blank
  | typed {before types behind : Text} :
      Trivia before → types.head? = some '<' → ClosesTypes 0 types →
      Trivia behind →
      CallOpening (before ++ (types ++ behind))

/-- What follows a word calls nothing. -/
inductive NoCall : Text → Prop where
  | plain {text token : Text} :
      skipTrivia text = .ok token → token.head? ≠ some '<' →
      token.head? ≠ some '(' →
      NoCall text
  | unbalanced {text token : Text} :
      skipTrivia text = .ok token → token.head? = some '<' →
      typesEnd? 0 token = some none → NoCall text
  | typed {text token behind next : Text} :
      skipTrivia text = .ok token → token.head? = some '<' →
      typesEnd? 0 token = some (some behind) → skipTrivia behind = .ok next →
      next.head? ≠ some '(' → NoCall text

/-- No node begins here, if an expression does. -/
inductive NoNode : Text → Prop where
  | other {first : Char} {rest : Text} :
      first ≠ '{' → isQuotationMark first = false →
      (first.isDigit || first = '.' || first = '-') = false →
      isIdentifierStart first = false → NoNode (first :: rest)
  | number {first : Char} {run rest : Text} :
      (first.isDigit || first = '.' || first = '-') = true →
      Text.isNumeral (first :: run) = false → IsRun (first :: run) rest →
      NoNode (first :: run ++ rest)
  | word {first : Char} {path rest : Text} :
      isIdentifierStart first = true → identifierPathEnd path = [] →
      EndsWord rest →
      (∀ value, first :: path ≠ truthWord value) → NoCall rest →
      NoNode (first :: path ++ rest)

/-- A property key is read. -/
inductive ReadsKey : Text → Key → Text → Prop where
  | quoted {mark : Char} {body rest : Text} :
      isQuotationMark mark = true → ClosesString mark body →
      ReadsKey (mark :: (body ++ mark :: rest))
        ⟨body.unescape, some (mark :: (body ++ [mark]))⟩ rest
  | numeric {first : Char} {others rest : Text} :
      first.isDigit = true → others.all isNumericKeyPart = true →
      EndsAt isNumericKeyPart rest →
      ReadsKey (first :: others ++ rest)
        ⟨first :: others, some (first :: others)⟩ rest
  | word {first : Char} {others rest : Text} :
      isIdentifierStart first = true → others.all isIdentifierPart = true →
      EndsAt isIdentifierPart rest →
      ReadsKey (first :: others ++ rest)
        ⟨first :: others, some (first :: others)⟩ rest

/-- No property key begins here. -/
def NoKey (text : Text) : Prop :=
  ∀ first ∈ text.head?, isQuotationMark first = false ∧ first.isDigit = false ∧
    isIdentifierStart first = false

/-- A token begins here that is not the given closer. -/
structure Begins (closer : Char) (text : Text) : Prop where
  token : BeginsToken text
  more : text ≠ []
  different : text.head? ≠ some closer

/-- The expression goes on behind a node. -/
def GoesOn (text : Text) : Prop :=
  ∃ character rest, skipTrivia text = .ok (character :: rest) ∧
    isSeparator character = false ∧ isCloser character = false

mutual

/-- An expression is read. -/
inductive ReadsValue : Bool → Text → Expr → Text → Prop where
  | node {strict : Bool} {text rest : Text} {value : Expr} :
      ReadsNode text value rest → (strict = true → Stops rest) →
      ReadsValue strict text value rest
  | beyond {run other rest : Text} {value : Expr} :
      ReadsNode (run ++ rest) value other → GoesOn other → IsRun run rest →
      ReadsValue true (run ++ rest) (.verbatim run) rest
  | verbatim {strict : Bool} {run rest : Text} :
      NoNode (run ++ rest) → IsRun run rest →
      ReadsValue strict (run ++ rest) (.verbatim run) rest

/-- A node is read. -/
inductive ReadsNode : Text → Expr → Text → Prop where
  | object {text rest : Text} {literal : ObjectLiteral} :
      ReadsMembers false text literal rest →
      ReadsNode ('{' :: text)
        (.object
          { literal with
            trailingComma :=
              if literal.members.isEmpty then none else literal.trailingComma })
        rest
  | string {mark : Char} {body rest : Text} :
      isQuotationMark mark = true → ClosesString mark body →
      ReadsNode (mark :: (body ++ mark :: rest))
        (.string body.unescape (some (mark :: (body ++ [mark])))) rest
  | number {run rest : Text} :
      Text.isNumeral run = true → IsRun run rest →
      ReadsNode (run ++ rest) (.number run) rest
  | boolean {value : Bool} {rest : Text} :
      EndsWord rest → ReadsNode (truthWord value ++ rest) (.boolean value) rest
  | call {first : Char} {path opening inner rest : Text} {call : Call} :
      isIdentifierStart first = true → identifierPathEnd path = [] →
      EndsWord (opening ++ '(' :: inner) →
      (∀ value, first :: path ≠ truthWord value) →
      CallOpening opening →
      ReadsArguments (first :: path ++ opening) false inner call rest →
      ReadsNode (first :: path ++ (opening ++ '(' :: inner)) (.call call) rest

/-- The arguments of a call are read, with the closing parenthesis. -/
inductive ReadsArguments : Text → Bool → Text → Call → Text → Prop where
  | close {callee close rest : Text} {afterComma : Bool} :
      Trivia close →
      ReadsArguments callee afterComma (close ++ ')' :: rest)
        ⟨callee, [], close, afterComma⟩ rest
  | last {callee leading text trailing rest : Text} {afterComma : Bool}
      {value : Expr} :
      Trivia leading → Begins ')' text →
      ReadsValue true text value (trailing ++ ')' :: rest) → Trivia trailing →
      ReadsArguments callee afterComma (leading ++ text)
        ⟨callee, [⟨leading, value, trailing⟩], [], false⟩ rest
  | more {callee leading text trailing others rest : Text} {afterComma : Bool}
      {value : Expr} {call : Call} :
      Trivia leading → Begins ')' text →
      ReadsValue true text value (trailing ++ ',' :: others) → Trivia trailing →
      ReadsArguments callee true others call rest →
      ReadsArguments callee afterComma (leading ++ text)
        { call with args := ⟨leading, value, trailing⟩ :: call.args } rest

/-- The members of an object literal are read, with the closing brace. -/
inductive ReadsMembers : Bool → Text → ObjectLiteral → Text → Prop where
  | close {close rest : Text} {afterComma : Bool} :
      Trivia close →
      ReadsMembers afterComma (close ++ '}' :: rest)
        ⟨[], some close, some afterComma⟩ rest
  | last {leading text trailing rest : Text} {afterComma : Bool}
      {member : Member} :
      Trivia leading → Begins '}' text →
      ReadsMember leading text member (trailing ++ '}' :: rest) →
      Trivia trailing →
      ReadsMembers afterComma (leading ++ text)
        ⟨[member], some trailing, some false⟩ rest
  | more {leading text trailing others rest : Text} {afterComma : Bool}
      {member : Member}
      {literal : ObjectLiteral} :
      Trivia leading → Begins '}' text →
      ReadsMember leading text member (trailing ++ ',' :: others) →
      Trivia trailing →
      ReadsMembers true others literal rest →
      ReadsMembers afterComma (leading ++ text)
        { literal with
          members := member.withTrailing trailing :: literal.members } rest

/-- A member of an object literal is read. -/
inductive ReadsMember : Text → Text → Member → Text → Prop where
  | property {leading text before behind inner rest : Text} {key : Key}
      {value : Expr} :
      ReadsKey text key (before ++ ':' :: (behind ++ inner)) →
      Trivia before → Trivia behind → BeginsToken inner →
      ReadsValue true inner value rest →
      ReadsMember leading text
        (.property ⟨key, value, some ⟨leading, before ++ ':' :: behind, []⟩⟩)
        rest
  | method {leading run before others rest : Text} {key : Key} {opener : Char} :
      ReadsKey (run ++ rest) key (before ++ opener :: others) → Trivia before →
      opener = '(' ∨ opener = '<' → IsRun run rest →
      ReadsMember leading (run ++ rest)
        (.written ⟨some key.name, run, leading, []⟩) rest
  | shorthand {leading raw rest others : Text} {key : Key} {delimiter : Char} :
      ReadsKey (raw ++ rest) key rest →
      skipTrivia rest = .ok (delimiter :: others) →
      delimiter = ',' ∨ delimiter = '}' →
      ReadsMember leading (raw ++ rest)
        (.written ⟨some key.name, raw, leading, []⟩) rest
  | modified {leading run before name others rest : Text} {key : Key} :
      ReadsKey (run ++ rest) key (before ++ (name ++ others)) → Trivia before →
      BeginsToken (name ++ others) →
      scanIdentifier? (name ++ others) = some (name, others) →
      isMethodModifier key.name = true → IsRun run rest →
      ReadsMember leading (run ++ rest)
        (.written ⟨some name, run, leading, []⟩) rest
  | unnamed {leading run rest : Text} :
      NoKey (run ++ rest) → IsRun run rest →
      ReadsMember leading (run ++ rest) (.written ⟨none, run, leading, []⟩) rest

end

theorem ReadsNode.ne_nil {text rest : Text} {value : Expr}
    (reads : ReadsNode text value rest) : text ≠ [] := by
  cases reads with
  | object | string => simp
  | number _ isRun => simp [isRun.more]
  | @boolean value => cases value <;> simp [truthWord]
  | call => simp

theorem ReadsValue.ne_nil {strict : Bool} {text rest : Text} {value : Expr}
    (reads : ReadsValue strict text value rest) : text ≠ [] := by
  cases reads with
  | node reads _ => exact reads.ne_nil
  | beyond _ _ isRun => simp [isRun.more]
  | verbatim _ isRun => simp [isRun.more]

end ConfigEdit
