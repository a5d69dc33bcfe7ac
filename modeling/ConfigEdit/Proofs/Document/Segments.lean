import ConfigEdit.Proofs.Document.Relocation
import ConfigEdit.Proofs.Document.Recognition

/-!
# The walk to the default export

Outside the exported expressions a document is only walked over, token by
token.  `SegmentStep` is one step of this walk.  A step looks no further than
at the first character of what follows it, so the walk to an export is the same
whatever expression is exported, as long as it begins in the same way.
-/

namespace ConfigEdit

/-- The word in front of a default export, and the word behind it. -/
def exportWord : Text := ['e', 'x', 'p', 'o', 'r', 't']

def defaultWord : Text := ['d', 'e', 'f', 'a', 'u', 'l', 't']

/-- One step over the text of a document, with the number of open brackets and
whether a point stands in front, before it and behind it. -/
inductive SegmentStep : Nat → Bool → Text → Nat → Bool → Text → Prop where
  | string {depth : Nat} {afterPoint : Bool} {trivia body next : Text}
      {mark : Char} :
      Trivia trivia → isQuotationMark mark = true → ClosesString mark body →
      SegmentStep depth afterPoint (trivia ++ mark :: (body ++ mark :: next))
        depth false next
  | template {depth : Nat} {afterPoint : Bool} {trivia body next : Text} :
      Trivia trivia → ClosesTemplate body →
      SegmentStep depth afterPoint
        (trivia ++ '\x60' :: (body ++ '\x60' :: next)) depth false next
  | opener {depth : Nat} {afterPoint : Bool} {trivia next : Text}
      {character closer : Char} :
      Trivia trivia → closerOf? character = some closer →
      SegmentStep depth afterPoint (trivia ++ character :: next)
        (depth + 1) false next
  | closer {depth : Nat} {afterPoint : Bool} {trivia next : Text}
      {character : Char} :
      Trivia trivia → isCloser character = true →
      SegmentStep (depth + 1) afterPoint (trivia ++ character :: next) depth
        false next
  | word {depth : Nat} {afterPoint : Bool} {trivia others next : Text}
      {first : Char} :
      Trivia trivia → isIdentifierStart first = true →
      others.all isIdentifierPart = true →
      EndsAt isIdentifierPart next →
      (depth ≠ 0 ∨ first :: others ≠ exportWord ∨
        afterPoint = true ∧ trivia = []) →
      SegmentStep depth afterPoint (trivia ++ first :: (others ++ next)) depth
        false next
  | noDefault {afterPoint : Bool} {trivia next token : Text} :
      Trivia trivia → EndsAt isIdentifierPart next →
      (afterPoint = true → trivia ≠ []) →
      skipTrivia next = .ok token →
      (scanIdentifier? token).map Prod.fst ≠ some defaultWord →
      SegmentStep 0 afterPoint (trivia ++ (exportWord ++ next)) 0 false next
  | other {depth : Nat} {afterPoint : Bool} {trivia next : Text}
      {character : Char} :
      Trivia trivia → BeginsToken (character :: next) →
      isQuotationMark character = false →
      character ≠ '\x60' → closerOf? character = none →
      isCloser character = false →
      isIdentifierStart character = false →
      SegmentStep depth afterPoint (trivia ++ character :: next) depth
        (character = '.') next

/-- A default export, with the words in front of its expression. -/
inductive ExportHead : Bool → Text → Text → Text → Prop where
  | words {afterPoint : Bool} {trivia between behind expression : Text} :
      Trivia trivia → (afterPoint = true → trivia ≠ []) → Trivia between →
      between ≠ [] →
      Trivia behind → BeginsToken expression → expression ≠ [] →
      EndsAt isIdentifierPart (behind ++ expression) →
      ExportHead afterPoint (exportWord ++ (between ++ (defaultWord ++ behind)))
        (trivia ++
          (exportWord ++ (between ++ (defaultWord ++ (behind ++ expression)))))
        expression

theorem SegmentStep.suffix
    {depth later : Nat} {afterPoint point : Bool} {text next : Text}
    (step : SegmentStep depth afterPoint text later point next) :
    next <:+ text := by
  cases step with
  | @string _ _ trivia body _ mark =>
      exact ⟨trivia ++ mark :: (body ++ [mark]), by simp⟩
  | @template _ _ trivia body _ =>
      exact ⟨trivia ++ '\x60' :: (body ++ ['\x60']), by simp⟩
  | @word _ _ trivia others _ first =>
      exact ⟨trivia ++ first :: others, by simp⟩
  | @noDefault _ trivia => exact ⟨trivia ++ exportWord, by simp⟩
  | @opener _ _ trivia _ character => exact ⟨trivia ++ [character], by simp⟩
  | @closer _ _ trivia _ character => exact ⟨trivia ++ [character], by simp⟩
  | @other _ _ trivia _ character => exact ⟨trivia ++ [character], by simp⟩

theorem SegmentStep.length_lt
    {depth later : Nat} {afterPoint point : Bool} {text next : Text}
    (step : SegmentStep depth afterPoint text later point next) :
    next.length < text.length := by
  cases step <;> simp [exportWord] <;> omega

theorem ExportHead.suffix {afterPoint : Bool} {front text expression : Text}
    (head : ExportHead afterPoint front text expression) :
    front ++ expression <:+ text := by
  cases head with
  | @words trivia => exact ⟨trivia, by simp⟩

theorem ExportHead.length_lt {afterPoint : Bool} {front text expression : Text}
    (head : ExportHead afterPoint front text expression) :
    expression.length < text.length := by
  cases head with
  | words =>
      simp [exportWord]
      omega

/-- The segments from the word of an export on. -/
def parseExport (start here afterWord : Text) : Except Fault (List Segment) :=
  match skipTrivia afterWord with
  | .error fault => .error fault
  | .ok token =>
      match scanIdentifier? token with
      | some (['d', 'e', 'f', 'a', 'u', 'l', 't'], afterDefault) =>
          match skipTrivia afterDefault with
          | .error fault => .error fault
          | .ok [] => .error (.here .expectedExport [])
          | .ok (first :: others) =>
              match parseValue false (first :: others) with
              | .error fault => .error fault
              | .ok (value, finish) =>
                  match parseSegments finish.1 0 false finish.1 with
                  | .error fault => .error fault
                  | .ok segments =>
                      .ok (Segment.textThen (start.upTo here)
                        (.defaultExport ⟨here.upTo (first :: others), value⟩ ::
                          segments))
      | _ => parseSegments start 0 false afterWord

theorem parseSegments_error
    {start text : Text} {depth : Nat} {afterPoint : Bool} {fault : Fault}
    (found : skipTrivia text = .error fault) :
    parseSegments start depth afterPoint text = .error fault := by
  rw [parseSegments]
  split <;> simp_all

theorem parseSegments_ended {start text : Text} {depth : Nat}
    {afterPoint : Bool} (found : skipTrivia text = .ok []) :
    parseSegments start depth afterPoint text =
      if depth = 0 then .ok (Segment.textThen start [])
      else .error (.here .unclosedDocument []) := by
  rw [parseSegments]
  split <;> simp_all

theorem parseSegments_token
    {start text rest : Text} {depth : Nat} {afterPoint : Bool}
    {character : Char} (found : skipTrivia text = .ok (character :: rest)) :
    parseSegments start depth afterPoint text =
      if isQuotationMark character then
        match skipString (character :: rest) with
        | .error fault => .error fault
        | .ok after => parseSegments start depth false after
      else if character = '\x60' then
        match skipTemplateBody (character :: rest) (.start rest) with
        | .error fault => .error fault
        | .ok after => parseSegments start depth false after.1
      else if (closerOf? character).isSome then
        parseSegments start (depth + 1) false rest
      else if isCloser character then
        if depth = 0 then
          .error (.here (.unmatched character) (character :: rest))
        else parseSegments start (depth - 1) false rest
      else if isIdentifierStart character then
        if depth ≠ 0 ||
            character :: rest.takeWhile isIdentifierPart ≠
              ['e', 'x', 'p', 'o', 'r', 't'] ||
            (afterPoint && text.length = rest.length + 1) then
          parseSegments start depth false (rest.dropWhile isIdentifierPart)
        else parseExport start (character :: rest)
          (rest.dropWhile isIdentifierPart)
      else parseSegments start depth (character = '.') rest := by
  rw [parseSegments]
  split
  · simp_all
  · simp_all
  · next first others began =>
      obtain ⟨rfl, rfl⟩ : character = first ∧ rest = others := by simp_all
      -- the walk remembers what it has read where it must show that the rest is
      -- shorter
      refine if_congr Iff.rfl ?string
        (if_congr Iff.rfl rfl (if_congr Iff.rfl rfl (if_congr Iff.rfl
          rfl (if_congr Iff.rfl (ite_congr rfl (fun _ => rfl) ?exported) rfl))))
      case string => split <;> simp_all
      case exported =>
        intro isExport
        obtain rfl : depth = 0 := by simp_all
        simp only [parseExport]
        cases skipTrivia (rest.dropWhile isIdentifierPart) with
        | error fault => rfl
        | ok token =>
            simp only
            split
            · next afterDefault named =>
                simp only [named]
                cases skipTrivia afterDefault with
                | error fault => rfl
                | ok token => cases token <;> rfl
            · next other =>
                split
                · next afterDefault named =>
                    exact absurd named (other afterDefault)
                · rfl

section Walk

variable {start text next : Text} {depth later : Nat} {afterPoint point : Bool}

/-- The character opens or closes a literal or a group. -/
def IsMark (character : Char) : Prop :=
  isQuotationMark character = true ∨ character = '\x60' ∨
    (∃ closer, closerOf? character = some closer) ∨ isCloser character = true

theorem IsMark.beginsToken
    {character : Char} (mark : IsMark character) (rest : Text) :
    BeginsToken (character :: rest) := by
  rcases mark with quotes | rfl | ⟨closer, opens⟩ | closes
  · exact beginsToken_of_notGap (notGap_of_isQuotationMark quotes) rest
  · exact skipTrivia_token (by decide) (by decide) rest
  · exact beginsToken_of_notGap (notGap_of_closerOf? opens) rest
  · exact beginsToken_of_notGap (notGap_of_isCloser closes) rest

theorem beginsToken_of_identifierStart {character : Char} {rest : Text}
    (starts : isIdentifierStart character = true) :
    BeginsToken (character :: rest) := by
  obtain ⟨notGap, notSlash, -⟩ := identifierStart_cases starts
  exact skipTrivia_token notGap notSlash _

theorem identifierStart_notMark
    {character : Char} (starts : isIdentifierStart character = true) :
    isQuotationMark character = false ∧ character ≠ '\x60' ∧
    closerOf? character = none ∧
    isCloser character = false := by
  obtain ⟨plain, -⟩ := isPlain_of_part (by simp [isIdentifierPart, starts] :
    isIdentifierPart character = true)
  simp only [isPlain, Bool.and_eq_true, Bool.not_eq_true', decide_eq_true_eq,
    Option.isNone_iff_eq_none] at plain
  exact ⟨plain.1.2, plain.2, plain.1.1.1.1.2, plain.1.1.1.2⟩

theorem parseSegments_word
    {first : Char} {others : Text} (starts : isIdentifierStart first = true)
    (all : others.all isIdentifierPart = true)
    (ends : EndsAt isIdentifierPart next)
    (found : skipTrivia text = .ok (first :: (others ++ next))) :
    parseSegments start depth afterPoint text =
      if depth ≠ 0 || first :: others ≠ exportWord ||
          (afterPoint && text.length = (others ++ next).length + 1) then
        parseSegments start depth false next
      else parseExport start (first :: (others ++ next)) next := by
  obtain ⟨notQuotes, notTemplate, notOpener, notCloser⟩ :=
    identifierStart_notMark starts
  rw [parseSegments_token found, takeWhile_append_of_endsAt all ends,
    dropWhile_append_of_endsAt all ends]
  simp only [notQuotes, notTemplate, notOpener, notCloser, starts,
    Bool.false_eq_true, if_false, if_true, Option.isSome_none]
  rfl

theorem parseSegments_exportWord {trivia : Text} (complete : Trivia trivia)
    (ends : EndsAt isIdentifierPart next)
    (notMember : afterPoint = true → trivia ≠ []) :
    parseSegments start 0 afterPoint (trivia ++ (exportWord ++ next)) =
      parseExport start (exportWord ++ next) next := by
  have all :
      (['x', 'p', 'o', 'r', 't'] : Text).all isIdentifierPart = true := by
    decide
  have starts : isIdentifierStart 'e' = true := by decide
  have found := complete.skipTrivia_eq
    (beginsToken_of_identifierStart starts :
      BeginsToken ('e' :: (['x', 'p', 'o', 'r', 't'] ++ next)))
  rw [exportWord, List.cons_append, parseSegments_word starts all ends found]
  refine if_neg ?_
  cases afterPoint with
  | false => simp [exportWord]
  | true => simp [exportWord, notMember rfl]

theorem parseSegments_of_step
    (step : SegmentStep depth afterPoint text later point next) :
    parseSegments start depth afterPoint text =
      parseSegments start later point next := by
  cases step with
  | @string _ _ trivia body _ mark complete quotes closes =>
      have isMark : IsMark mark := .inl quotes
      have found :=
        complete.skipTrivia_eq (isMark.beginsToken (body ++ mark :: next))
      rw [parseSegments_token found, if_pos quotes, closes]
  | @template _ _ trivia body _ complete closes =>
      have isMark : IsMark '\x60' := .inr (.inl rfl)
      have found :=
        complete.skipTrivia_eq (isMark.beginsToken (body ++ '\x60' :: next))
      have ended :=
        skipTemplateBody_toOption ('\x60' :: (body ++ '\x60' :: next))
          (.start (body ++ '\x60' :: next))
      rw [closes] at ended
      rw [parseSegments_token found, if_neg (by decide), if_pos rfl]
      split
      · next failed =>
          rw [failed] at ended
          cases ended
      · next after passed =>
          rw [passed] at ended
          simp only [Except.toOption, Option.map_some, Option.some.injEq]
            at ended
          rw [ended]
  | @opener _ _ trivia _ character closer complete opens =>
      have isMark : IsMark character := .inr (.inr (.inl ⟨closer, opens⟩))
      have found := complete.skipTrivia_eq (isMark.beginsToken next)
      rw [parseSegments_token found]
      rcases mem_of_closerOf? opens with ⟨rfl, -⟩ | ⟨rfl, -⟩ | ⟨rfl, -⟩ <;> rfl
  | @closer _ _ trivia _ character complete closes =>
      have isMark : IsMark character := .inr (.inr (.inr closes))
      have found := complete.skipTrivia_eq (isMark.beginsToken next)
      rw [parseSegments_token found]
      rcases mem_of_isCloser closes with rfl | rfl | rfl <;> rfl
  | @word _ _ trivia others _ first complete starts all ends noExport =>
      have found := complete.skipTrivia_eq
        (beginsToken_of_identifierStart starts :
          BeginsToken (first :: (others ++ next)))
      rw [parseSegments_word starts all ends found]
      refine if_pos ?_
      rcases noExport with open' | other | ⟨rfl, rfl⟩
      · simp [open']
      · simp [other]
      · simp
  | @noDefault _ trivia _ token complete ends notMember second other =>
      rw [parseSegments_exportWord complete ends notMember, parseExport, second]
      simp only
      split
      · next afterDefault named => exact absurd (by rw [named]; rfl) other
      · rfl
  | @other _ _ trivia _ character complete begins notQuotes notTemplate
        notOpener notCloser notStart =>
      rw [parseSegments_token (complete.skipTrivia_eq begins)]
      simp [notQuotes, notTemplate, notOpener, notCloser, notStart]

theorem exists_textThen (text : Text) (others : List Segment) :
    ∃ before, Segment.textThen text others = before ++ others ∧
      ∀ segment ∈ before, ∃ kept, segment = .text kept := by
  cases text with
  | nil => exact ⟨[], rfl, by simp⟩
  | cons character rest =>
      refine ⟨[.text (character :: rest)], rfl, fun segment inside => ?_⟩
      exact ⟨_, List.mem_singleton.1 inside⟩

theorem textThen_append (text : Text) (others : List Segment) :
    Segment.textThen text others = Segment.textThen text [] ++ others := by
  cases text <;> rfl

theorem parseSegments_of_export {front expression : Text} {value : Expr}
    {finish : Place expression} {after : List Segment}
    (head : ExportHead afterPoint front text expression)
    (read : parseValue false expression = .ok (value, finish))
    (further : parseSegments finish.1 0 false finish.1 = .ok after) :
    parseSegments start 0 afterPoint text =
      .ok (Segment.textThen (start.upTo (front ++ expression))
        (.defaultExport ⟨front, value⟩ :: after)) := by
  cases head with
  | @words trivia between behind _ complete notMember first more second begins
        nonempty ends =>
      have word : EndsAt isIdentifierPart
          (between ++ (defaultWord ++ (behind ++ expression))) :=
        (first.beginsAtBoundary.append more).endsAt_part
      have token : BeginsToken (defaultWord ++ (behind ++ expression)) :=
        beginsToken_of_identifierStart (by decide)
      have named : scanIdentifier? (defaultWord ++ (behind ++ expression)) =
          some (defaultWord, behind ++ expression) := by
        have all :
            (['e', 'f', 'a', 'u', 'l', 't'] : Text).all isIdentifierPart =
              true := by decide
        rw [defaultWord, List.cons_append, scanIdentifier?, if_pos (by decide),
          takeWhile_append_of_endsAt all ends,
          dropWhile_append_of_endsAt all ends]
      rw [parseSegments_exportWord complete word notMember, parseExport,
        first.skipTrivia_eq token]
      cases expression with
      | nil => contradiction
      | cons character others =>
          simp only [named]
          simp only [defaultWord, second.skipTrivia_eq begins, read, further]
          have whole (here : Text)
              (split : here =
                exportWord ++ (between ++ (defaultWord ++ behind)) ++
                  character :: others) : Segment.textThen (start.upTo here)
                  (.defaultExport ⟨here.upTo (character :: others), value⟩ ::
                    after) = Segment.textThen (start.upTo
                    (exportWord ++ (between ++ (defaultWord ++ behind)) ++
                      character :: others)) (.defaultExport
                ⟨exportWord ++ (between ++ (defaultWord ++ behind)), value⟩ ::
                    after) := by
            rw [split, upTo_append]
          exact congrArg Except.ok (whole _ (by simp [defaultWord]))

/-- Behind the word of an export stands a default export or something else. -/
theorem parseExport_cases {here : Text} {segments : List Segment}
    (found : parseExport start here next = .ok segments)
    (ends : EndsAt isIdentifierPart next) :
    (∃ token, skipTrivia next = .ok token ∧
        (scanIdentifier? token).map Prod.fst ≠ some defaultWord ∧
        parseSegments start 0 false next = .ok segments) ∨
    ∃ (between behind expression : Text) (value : Expr)
      (finish : Place expression) (after : List Segment),
      next = between ++ (defaultWord ++ (behind ++ expression)) ∧
        Trivia between ∧ between ≠ [] ∧ Trivia behind ∧ BeginsToken expression ∧
        expression ≠ [] ∧ EndsAt isIdentifierPart (behind ++ expression) ∧
        parseValue false expression = .ok (value, finish) ∧
        parseSegments finish.1 0 false finish.1 = .ok after ∧
        segments = Segment.textThen (start.upTo here)
          (.defaultExport ⟨here.upTo expression, value⟩ :: after) := by
  rw [parseExport] at found
  split at found
  · contradiction
  · next token second =>
      split at found
      · next afterDefault named =>
          split at found
          · contradiction
          · contradiction
          · next first others third =>
              split at found
              · contradiction
              · next value finish read =>
                  split at found
                  · contradiction
                  · next after further =>
                      cases found
                      obtain ⟨_, _, shape, -, -, ends'⟩ :=
                        scanIdentifier?_eq_some named
                      have token' := (scanIdentifier?_append named).symm
                      obtain ⟨between, rfl, complete⟩ :=
                        exists_trivia_of_skipTrivia second
                          (by rw [token']; simp)
                      obtain ⟨behind, rfl, complete'⟩ :=
                        exists_trivia_of_skipTrivia third (List.cons_ne_nil _ _)
                      refine .inr ⟨between, behind, first :: others, value,
                        finish, after, by rw [token', defaultWord], complete,
                        ?_, complete', beginsToken_of_skipTrivia third,
                        List.cons_ne_nil _ _, ends', read, further, rfl⟩
                      rintro rfl
                      rw [token', List.nil_append] at ends
                      exact absurd (ends 'd' rfl) (by decide)
      · next other =>
          refine .inl ⟨token, second, ?_, found⟩
          intro named
          obtain ⟨⟨name, after⟩, named, same⟩ := Option.map_eq_some_iff.1 named
          simp only at same
          subst same
          exact other after named

/-- The walk goes on behind one step. -/
def StepsOn (start : Text) (depth : Nat) (afterPoint : Bool) (text : Text)
    (segments : List Segment) : Prop :=
  ∃ later point next, SegmentStep depth afterPoint text later point next ∧
    next.length < text.length ∧
    parseSegments start later point next = .ok segments

/-- The walk reads a default export and goes on behind its expression. -/
def ReadsExport (start : Text) (afterPoint : Bool) (text : Text)
    (segments : List Segment) : Prop :=
  ∃ (front expression : Text) (value : Expr) (finish : Place expression)
    (after : List Segment),
    ExportHead afterPoint front text expression ∧
      parseValue false expression = .ok (value, finish) ∧
      parseSegments finish.1 0 false finish.1 = .ok after ∧
      segments = Segment.textThen (start.upTo (front ++ expression))
        (.defaultExport ⟨front, value⟩ :: after)

variable {segments : List Segment}

theorem SegmentStep.stepsOn
    (step : SegmentStep depth afterPoint text later point next)
    (found : parseSegments start later point next = .ok segments) :
    StepsOn start depth afterPoint text segments :=
  ⟨later, point, next, step, step.length_lt, found⟩

theorem SegmentStep.of_skipString {trivia rest : Text} {mark : Char}
    (complete : Trivia trivia) (quotes : isQuotationMark mark = true)
    (ended : skipString (mark :: rest) = .ok next) :
    SegmentStep depth afterPoint (trivia ++ mark :: rest) depth false next := by
  obtain ⟨-, body, rfl, closes⟩ := skipString_eq_ok ended
  exact .string complete quotes closes

theorem SegmentStep.of_skipTemplateBody
    {trivia rest : Text} {after : Place rest} (complete : Trivia trivia)
    (ended : skipTemplateBody ('\x60' :: rest) (.start rest) = .ok after) :
    SegmentStep depth afterPoint (trivia ++ '\x60' :: rest) depth false
      after.1 := by
  have walked := skipTemplateBody_toOption ('\x60' :: rest) (.start rest)
  rw [ended] at walked
  obtain ⟨body, split, closes⟩ := templateEnd?_eq_some walked.symm
  obtain ⟨next, inside⟩ := after
  simp only at split
  subst split
  exact .template complete closes

/-- Behind the word of an export the walk goes on, or it reads the export. -/
theorem stepsOn_or_readsExport {trivia : Text} (complete : Trivia trivia)
    (apart : afterPoint = true → trivia ≠ [])
    (ends : EndsAt isIdentifierPart next)
    (found : parseExport start (exportWord ++ next) next = .ok segments) :
    StepsOn start 0 afterPoint (trivia ++ (exportWord ++ next)) segments ∨
    ReadsExport start afterPoint (trivia ++ (exportWord ++ next)) segments := by
  rcases parseExport_cases found ends with ⟨token, second, other, found⟩ |
    ⟨between, behind, expression, value, finish, after, rfl, between', more,
      behind', begins, nonempty, ends', read, further, rfl⟩
  · exact .inl ((SegmentStep.noDefault complete ends apart second other).stepsOn
      found)
  · refine .inr ⟨_, expression, value, finish, after,
      .words complete apart between' more behind' begins nonempty ends', read,
      further, ?_⟩
    have cut := upTo_append (exportWord ++ (between ++ (defaultWord ++ behind)))
      expression
    simp only [List.append_assoc] at cut ⊢
    rw [cut]

/-- What the walk over a document does first. -/
theorem parseSegments_cases
    (found : parseSegments start depth afterPoint text = .ok segments) :
    (depth = 0 ∧ skipTrivia text = .ok [] ∧
      segments = Segment.textThen start []) ∨
      StepsOn start depth afterPoint text segments ∨
      depth = 0 ∧ ReadsExport start afterPoint text segments := by
  rcases began : skipTrivia text with fault | (_ | ⟨character, rest⟩)
  · rw [parseSegments_error began] at found
    contradiction
  · rw [parseSegments_ended began] at found
    split at found
    · next closed =>
        cases found
        exact .inl ⟨closed, rfl, rfl⟩
    · contradiction
  obtain ⟨trivia, rfl, complete⟩ :=
    exists_trivia_of_skipTrivia began (List.cons_ne_nil _ _)
  rw [parseSegments_token began] at found
  refine .inr ?_
  by_cases quotes : isQuotationMark character = true
  · rw [if_pos quotes] at found
    split at found
    · contradiction
    · next after ended =>
        exact .inl ((SegmentStep.of_skipString complete quotes ended).stepsOn
          found)
  by_cases template : character = '\x60'
  · rw [if_neg quotes, if_pos template] at found
    subst template
    split at found
    · contradiction
    · next after ended =>
        exact .inl ((SegmentStep.of_skipTemplateBody complete ended).stepsOn
          found)
  rw [if_neg quotes, if_neg template] at found
  cases opens : closerOf? character with
  | some closer =>
    rw [opens] at found
    exact .inl ((SegmentStep.opener complete opens).stepsOn found)
  | none =>
  rw [opens] at found
  simp only [Option.isSome_none, Bool.false_eq_true, if_false] at found
  by_cases closes : isCloser character = true
  · rw [if_pos closes] at found
    cases depth with
    | zero => contradiction
    | succ depth =>
        exact .inl ((SegmentStep.closer complete closes).stepsOn found)
  rw [if_neg closes] at found
  by_cases starts : isIdentifierStart character = true
  · obtain ⟨others, next, rfl, all, ends, taken, dropped⟩ :=
      exists_endsAt isIdentifierPart rest
    rw [if_pos starts, taken, dropped] at found
    split at found
    · next noExport =>
        refine .inl (SegmentStep.stepsOn (.word complete starts all ends ?_)
          found)
        simpa [exportWord, or_assoc, imp_iff_not_or] using noExport
    · next isExport =>
        simp only [Bool.or_eq_true, decide_eq_true_eq, not_or, not_not,
          Bool.and_eq_true, not_and] at isExport
        obtain ⟨⟨rfl, word⟩, notMember⟩ := isExport
        have apart : afterPoint = true → trivia ≠ [] := by
          rintro point rfl
          exact notMember point (by simp)
        obtain ⟨rfl, rfl⟩ := List.cons.inj word
        exact (stepsOn_or_readsExport complete apart ends found).imp_right
          fun reads => ⟨rfl, reads⟩
  · rw [if_neg starts] at found
    have begins := beginsToken_of_skipTrivia began
    exact .inl (SegmentStep.stepsOn (.other complete begins
      (by simpa using quotes) template opens
      (by simpa using closes) (by simpa using starts)) found)

end Walk

/-- The first tokens of both texts are the same word, or are no words. -/
def SameWord (left right : Text) : Prop :=
  ∃ token other, skipTrivia left = .ok token ∧ skipTrivia right = .ok other ∧
    (scanIdentifier? token).map Prod.fst = (scanIdentifier? other).map Prod.fst

theorem IsMark.notStart {character : Char} (mark : IsMark character) :
    isIdentifierStart character = false := by
  cases starts : isIdentifierStart character with
  | false => rfl
  | true =>
      obtain ⟨notQuotes, notTemplate, notOpener, notCloser⟩ :=
        identifierStart_notMark starts
      rcases mark with quotes | template | ⟨closer, opens⟩ | closes
      · simp [quotes] at notQuotes
      · contradiction
      · simp [opens] at notOpener
      · simp [closes] at notCloser

theorem SameWord.of_token {trivia left right : Text} {character : Char}
    (complete : Trivia trivia) (first : BeginsToken (character :: left))
    (second : BeginsToken (character :: right))
    (notStart : isIdentifierStart character = false) :
    SameWord (trivia ++ character :: left) (trivia ++ character :: right) := by
  refine ⟨_, _, complete.skipTrivia_eq first, complete.skipTrivia_eq second, ?_⟩
  simp [scanIdentifier?, notStart]

theorem SameWord.of_mark {trivia : Text} {character : Char}
    (complete : Trivia trivia) (mark : IsMark character) (left right : Text) :
    SameWord (trivia ++ character :: left) (trivia ++ character :: right) :=
  .of_token complete (mark.beginsToken left)
    (mark.beginsToken right) mark.notStart

theorem SameWord.of_word {trivia others left right : Text} {first : Char}
    (complete : Trivia trivia) (starts : isIdentifierStart first = true)
    (all : others.all isIdentifierPart = true)
    (ends : EndsAt isIdentifierPart left)
    (ends' : EndsAt isIdentifierPart right) :
    SameWord (trivia ++ first :: (others ++ left))
      (trivia ++ first :: (others ++ right)) := by
  refine ⟨_, _, complete.skipTrivia_eq (beginsToken_of_identifierStart starts),
    complete.skipTrivia_eq (beginsToken_of_identifierStart starts), ?_⟩
  simp only [scanIdentifier?, if_pos starts,
    takeWhile_append_of_endsAt all ends, takeWhile_append_of_endsAt all ends',
    Option.map_some]

theorem EndsAt.congr
    {continues : Char → Bool} {left right : Text} (ends : EndsAt continues left)
    (same : right.head? = left.head?) : EndsAt continues right := by
  rwa [EndsAt, same]

/-- A step is the same in front of another text with the same first character
and the same first word. -/
theorem SegmentStep.relocates
    {depth later : Nat} {afterPoint point : Bool} {text next : Text}
    (step : SegmentStep depth afterPoint text later point next) :
    ∃ passed, text = passed ++ next ∧
      ∀ other, other.head? = next.head? → SameWord next other →
        SegmentStep depth afterPoint (passed ++ other) later point other ∧
        SameWord text (passed ++ other) := by
  cases step with
  | @string _ _ trivia body _ mark complete quotes closes =>
      refine ⟨trivia ++ mark :: (body ++ [mark]),
        by simp, fun other same word => ?_⟩
      simp only [List.append_assoc, List.cons_append, List.nil_append]
      exact ⟨.string complete quotes closes,
        .of_mark complete (.inl quotes) _ _⟩
  | @template _ _ trivia body _ complete closes =>
      refine ⟨trivia ++ '\x60' :: (body ++ ['\x60']),
        by simp, fun other same word => ?_⟩
      simp only [List.append_assoc, List.cons_append, List.nil_append]
      exact ⟨.template complete closes, .of_mark complete (.inr (.inl rfl)) _ _⟩
  | @opener _ _ trivia _ character closer complete opens =>
      refine ⟨trivia ++ [character], by simp, fun other same word => ?_⟩
      simp only [List.append_assoc, List.cons_append, List.nil_append]
      exact ⟨.opener complete opens,
        .of_mark complete (.inr (.inr (.inl ⟨closer, opens⟩))) _ _⟩
  | @closer _ _ trivia _ character complete closes =>
      refine ⟨trivia ++ [character], by simp, fun other same word => ?_⟩
      simp only [List.append_assoc, List.cons_append, List.nil_append]
      exact ⟨.closer complete closes,
        .of_mark complete (.inr (.inr (.inr closes))) _ _⟩
  | @word _ _ trivia others _ first complete starts all ends noExport =>
      refine ⟨trivia ++ first :: others, by simp, fun other same word => ?_⟩
      simp only [List.append_assoc, List.cons_append]
      exact ⟨.word complete starts all (ends.congr same) noExport,
        .of_word complete starts all ends (ends.congr same)⟩
  | @noDefault _ trivia _ token complete ends notMember found different =>
      refine ⟨trivia ++ exportWord, by simp, fun other same word => ?_⟩
      obtain ⟨token', found', second, third, equal⟩ := word
      rw [found] at second
      cases second
      simp only [List.append_assoc]
      refine ⟨.noDefault complete (ends.congr same) notMember third
        (equal ▸ different), ?_⟩
      exact @SameWord.of_word trivia ['x', 'p', 'o', 'r', 't'] _ _ 'e' complete
        (by decide) (by decide) ends (ends.congr same)
  | @other _ _ trivia _ character complete begins notQuotes notTemplate
        notOpener notCloser notStart =>
      refine ⟨trivia ++ [character], by simp, fun other same word => ?_⟩
      have begins' : BeginsToken (character :: other) := by
        by_cases slash : character = '/'
        · subst slash
          obtain ⟨notLine, notBlock⟩ := begins.after_slash
          exact skipTrivia_slash (same ▸ notLine) (same ▸ notBlock)
        · exact skipTrivia_token begins.not_gap slash _
      simp only [List.append_assoc, List.cons_append, List.nil_append]
      exact ⟨.other complete begins' notQuotes notTemplate notOpener
        notCloser notStart,
        .of_token complete begins begins' notStart⟩

/-- A default export begins in the same way whatever is exported. -/
theorem ExportHead.relocates {afterPoint : Bool} {front text expression : Text}
    (head : ExportHead afterPoint front text expression) :
    ∃ lead, text = lead ++ (front ++ expression) ∧ ∀ other, other ≠ [] →
      other.head? = expression.head? → BeginsToken other →
        ExportHead afterPoint front (lead ++ (front ++ other)) other ∧
          SameWord text (lead ++ (front ++ other)) := by
  cases head with
  | @words trivia between behind _ complete notMember first more second begins
        nonempty ends =>
      refine ⟨trivia, by simp, fun other some same begins' => ?_⟩
      have ends' : EndsAt isIdentifierPart (behind ++ other) := by
        refine ends.congr ?_
        cases behind with
        | nil => exact same
        | cons character rest => rfl
      have word (rest : Text) :
          EndsAt isIdentifierPart (between ++ (defaultWord ++ rest)) :=
        (first.beginsAtBoundary.append more).endsAt_part
      simp only [List.append_assoc]
      refine ⟨.words complete notMember first more second begins' some ends',
        ?_⟩
      exact @SameWord.of_word trivia ['x', 'p', 'o', 'r', 't'] _ _ 'e' complete
        (by decide) (by decide) (word _) (word _)

/-- What is in front of a default export leads to it, whatever is exported, as
long as it begins with the same character. -/
def LeadsTo (depth : Nat) (afterPoint : Bool)
    (lead front expression : Text) : Prop :=
  ∀ other, other ≠ [] → other.head? = expression.head? → BeginsToken other →
    SameWord (lead ++ (front ++ expression)) (lead ++ (front ++ other)) ∧
      ∀ (value : Expr) (finish : Place other) (after : List Segment),
        parseValue false other = .ok (value, finish) →
        parseSegments finish.1 0 false finish.1 = .ok after → ∀ start,
          parseSegments start depth afterPoint (lead ++ (front ++ other)) =
            .ok (Segment.textThen (start.upTo (front ++ other))
              (.defaultExport ⟨front, value⟩ :: after))

/-- The walk over a document leads to its first export. -/
theorem exists_leadsTo {start text : Text} {depth : Nat} {afterPoint : Bool}
    {segments : List Segment}
    (found : parseSegments start depth afterPoint text = .ok segments)
    (exports : ∃ exported, Segment.defaultExport exported ∈ segments) :
    ∃ (lead front expression : Text) (value : Expr) (finish : Place expression)
      (after : List Segment), text = lead ++ (front ++ expression) ∧
        parseValue false expression = .ok (value, finish) ∧
        parseSegments finish.1 0 false finish.1 = .ok after ∧
        segments = Segment.textThen (start.upTo (front ++ expression))
          (.defaultExport ⟨front, value⟩ :: after) ∧
        LeadsTo depth afterPoint lead front expression := by
  rcases parseSegments_cases found with ⟨-, -, rfl⟩ |
    ⟨later, point, next, step, shorter, behind⟩ |
    ⟨rfl, front, expression, value, finish, after, head, read, further, rfl⟩
  · obtain ⟨exported, inside⟩ := exports
    obtain ⟨before, whole, texts⟩ := exists_textThen start []
    rw [whole, List.append_nil] at inside
    obtain ⟨kept, same⟩ := texts _ inside
    cases same
  · obtain ⟨passed, rfl, relocates⟩ := step.relocates
    obtain ⟨lead, front, expression, value, finish, after, rfl, read, further,
        split, leads⟩ :=
      exists_leadsTo behind exports
    refine ⟨passed ++ lead, front, expression, value, finish, after,
      by simp, read, further, split,
      fun other some same begins => ?_⟩
    obtain ⟨word, leads⟩ := leads other some same begins
    have heads : (lead ++ (front ++ other)).head? =
        (lead ++ (front ++ expression)).head? := by
      rw [← List.append_assoc, ← List.append_assoc]
      cases lead ++ front with
      | nil => exact same
      | cons character rest => rfl
    obtain ⟨step', word'⟩ := relocates _ heads word
    rw [List.append_assoc, List.append_assoc]
    refine ⟨word', fun value finish after read further start => ?_⟩
    rw [parseSegments_of_step step']
    exact leads value finish after read further start
  · obtain ⟨lead, rfl, relocates⟩ := head.relocates
    refine ⟨lead, front, expression, value, finish, after, rfl, read,
      further, rfl,
      fun other some same begins => ?_⟩
    obtain ⟨head', word⟩ := relocates other some same begins
    exact ⟨word, fun value finish after read further start =>
      parseSegments_of_export head' read further⟩
termination_by text.length

end ConfigEdit
