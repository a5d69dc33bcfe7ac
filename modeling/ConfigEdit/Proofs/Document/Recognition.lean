import ConfigEdit.Proofs.Document.Reading

/-!
# What the rules derive is read

The converse of `ConfigEdit.Proofs.Document.Reading`: a derivation of
`ReadsValue` tells how the reader goes on, step by step.
-/

namespace ConfigEdit

theorem parseNumber?_eq_none {text run rest : Text} (split : text = run ++ rest)
    (isRun : IsRun run rest) (notNumeral : run.isNumeral = false) :
    parseNumber? text = .ok none := by
  subst split
  rw [parseNumber?, isRun.skipExpression_eq]
  simp [upTo_append, notNumeral]

theorem parseNumber?_eq_some {text run rest : Text} (split : text = run ++ rest)
    (isRun : IsRun run rest) (numeral : run.isNumeral = true) :
    ∃ finish, parseNumber? text = .ok (some (.number run, finish)) ∧
      finish.1 = rest := by
  subst split
  rw [parseNumber?, isRun.skipExpression_eq]
  simp [upTo_append, numeral]

/-- Without a call, the type arguments are read without a fault, and no
parenthesis follows them. -/
theorem NoCall.of_skipped {rest typed : Text} (noCall : NoCall rest)
    (began : skipTrivia rest = .ok typed) :
    (∀ fault, (if typed.head? = some '<' then skipTypeArguments 0 (.start typed)
      else .ok (some (.start typed))) ≠ .error fault) ∧
    ∀ behind, (if typed.head? = some '<' then skipTypeArguments 0 (.start typed)
      else .ok (some (.start typed))) = .ok (some behind) →
      ∃ next, skipTrivia behind.1 = .ok next ∧ next.head? ≠ some '(' := by
  have noFault {ended : Option Text} (found : typesEnd? 0 typed = some ended)
      (fault : Fault) : skipTypeArguments 0 (.start typed) ≠ .error fault := by
    intro failed
    rw [typesEnd?, failed] at found
    contradiction
  cases noCall with
  | plain also notTyped notCall =>
      cases began.symm.trans also
      rw [if_neg notTyped]
      refine ⟨fun fault => by simp, fun behind found => ?_⟩
      cases found
      exact ⟨_, beginsToken_of_skipTrivia began, notCall⟩
  | unbalanced also opens ended =>
      cases began.symm.trans also
      rw [if_pos opens]
      refine ⟨noFault ended, fun behind found => ?_⟩
      simp [typesEnd?, found, Except.toOption] at ended
  | typed also opens ended found' notCall =>
      cases began.symm.trans also
      rw [if_pos opens]
      refine ⟨noFault ended, fun behind found => ⟨_, ?_, notCall⟩⟩
      rw [typesEnd?, found] at ended
      cases ended
      exact found'

theorem parseWord_eq_none {first : Char} {path rest : Text}
    (complete : identifierPathEnd path = []) (ends : EndsWord rest)
    (noWord : ∀ value, first :: path ≠ truthWord value) (noCall : NoCall rest) :
    parseWord first (path ++ rest) = .ok none := by
  have same := identifierPathEnd_append complete ends
  have word :
      Text.upTo (first :: (path ++ rest)) (identifierPathEnd (path ++ rest)) =
        first :: path := upTo_of_eq_append (by rw [same, List.cons_append])
  have noTruth : first :: path ≠ ['t', 'r', 'u', 'e'] := noWord true
  have noLie : first :: path ≠ ['f', 'a', 'l', 's', 'e'] := noWord false
  obtain ⟨token, began⟩ : ∃ token, skipTrivia rest = .ok token := by
    cases noCall with
    | plain began | unbalanced began | typed began => exact ⟨_, began⟩
  obtain ⟨noFault, noParenthesis⟩ := noCall.of_skipped began
  rw [parseWord]
  simp only [word, noTruth, noLie, if_false]
  split
  · next failed =>
      rw [same, began] at failed
      contradiction
  · next typed began' =>
      rw [same, began] at began'
      cases began'
      split
      · next failed => exact absurd failed (noFault _)
      · rfl
      · next behind skipped =>
          obtain ⟨next, found, different⟩ := noParenthesis behind skipped
          split
          · next failed =>
              rw [found] at failed
              contradiction
          · next parenthesis =>
              rw [found] at parenthesis
              cases parenthesis
              exact absurd rfl different
          · rfl

theorem parseNode?_of_noNode {text : Text} (noNode : NoNode text) :
    parseNode? text = .ok none := by
  cases noNode with
  | other notBrace notQuotes notNumber notStart =>
      rw [parseNode?]
      simp [notBrace, notQuotes, notNumber, notStart]
  | @number first run rest starts notNumeral isRun =>
      obtain ⟨-, -, -, -, notBrace, notQuotes⟩ := numberStart_cases starts
      have number :=
        parseNumber?_eq_none (List.cons_append ..).symm isRun notNumeral
      rw [List.cons_append, parseNode?]
      simpa [notBrace, notQuotes, starts] using number
  | @word first path rest starts complete ends noWord noCall =>
      obtain ⟨-, -, notBrace, notQuotes, notNumber⟩ :=
        identifierStart_cases starts
      rw [List.cons_append, parseNode?]
      simp only [notBrace, notQuotes, notNumber, starts, if_false, if_true,
        Bool.false_eq_true]
      exact parseWord_eq_none complete ends noWord noCall

theorem parseKey?_of_readsKey
    {text rest : Text} {key : Key} (reads : ReadsKey text key rest) :
    ∃ finish, parseKey? text = .ok (some (key, finish)) ∧ finish.1 = rest := by
  cases reads with
  | @quoted mark body rest quotes closes =>
      have ended := closes rest
      have raw : Text.upTo (mark :: (body ++ mark :: rest)) rest =
          mark :: (body ++ [mark]) :=
        upTo_of_eq_append (by simp)
      rw [parseKey?]
      simp only [quotes, if_true]
      split
      · next failed =>
          rw [ended] at failed
          contradiction
      · next after found =>
          rw [ended] at found
          cases found
          refine ⟨⟨rest, mark :: (body ++ [mark]), by simp⟩, ?_, rfl⟩
          simp [raw, Text.unquoted]
  | @numeric first others rest digit all ends =>
      have starts : (first.isDigit || first = '.' || first = '-') = true := by
        simp [digit]
      have notQuotes := (numberStart_cases starts).2.2.2.2.2
      rw [List.cons_append, parseKey?]
      simp [notQuotes, digit, takeWhile_append_of_endsAt all ends,
        dropWhile_append_of_endsAt all ends]
  | @word first others rest starts all ends =>
      obtain ⟨-, -, -, notQuotes, notNumber⟩ := identifierStart_cases starts
      have notDigit := isDigit_eq_false_of_identifierStart starts
      rw [List.cons_append, parseKey?]
      simp [notQuotes, notDigit, starts, takeWhile_append_of_endsAt all ends,
        dropWhile_append_of_endsAt all ends]

theorem parseKey?_of_noKey {text : Text} (noKey : NoKey text) :
    parseKey? text = .ok none := by
  cases text with
  | nil => rw [parseKey?]
  | cons first rest =>
      obtain ⟨notQuotes, notDigit, notStart⟩ := noKey first rfl
      rw [parseKey?]
      simp [notQuotes, notDigit, notStart]

theorem CallOpening.skipped
    {opening : Text} (opens : CallOpening opening) (inner : Text) :
    ∃ typed, skipTrivia (opening ++ '(' :: inner) = .ok typed ∧
      ∃ behind : Place typed,
        (if typed.head? = some '<' then skipTypeArguments 0 (.start typed)
          else .ok (some (.start typed))) = .ok (some behind) ∧
        skipTrivia behind.1 = .ok ('(' :: inner) := by
  have parenthesis : BeginsToken ('(' :: inner) :=
    skipTrivia_token (by decide) (by decide) inner
  cases opens with
  | plain complete =>
      refine ⟨_, complete.skipTrivia_eq parenthesis, .start _, ?_, parenthesis⟩
      rw [if_neg (by simp)]
  | @typed before types behind complete first closes closed =>
      obtain ⟨others, rfl⟩ : ∃ others, types = '<' :: others := by
        cases types with
        | nil => simp at first
        | cons character others =>
            cases first
            exact ⟨others, rfl⟩
      have token : BeginsToken ('<' :: others ++ (behind ++ '(' :: inner)) :=
        skipTrivia_token (by decide) (by decide) _
      have ended := closes (behind ++ '(' :: inner)
      rw [typesEnd?] at ended
      cases result : skipTypeArguments 0
        (.start ('<' :: others ++ (behind ++ '(' :: inner))) with
      | error fault =>
          rw [result] at ended
          contradiction
      | ok found =>
          rw [result] at ended
          cases found with
          | none => simp [Except.toOption] at ended
          | some place =>
              simp only [Except.toOption, Option.map_some, Option.some.injEq]
                at ended
              refine ⟨_, ?_, place, ?_, ?_⟩
              · have skipped := complete.skipTrivia_eq token
                simpa using skipped
              · rw [if_pos (by simp)]
                exact result
              · rw [ended]
                exact closed.skipTrivia_eq parenthesis

theorem parseNode?_of_truthWord
    (value : Bool) {rest : Text} (ends : EndsWord rest) :
    parseNode? (truthWord value ++ rest) =
      .ok (some (.boolean value, ⟨rest, List.suffix_append _ _⟩)) := by
  have read (first : Char) (path : Text)
      (word : truthWord value = first :: path)
      (starts : isIdentifierStart first = true)
      (complete : identifierPathEnd path = []) :
      parseNode? (first :: (path ++ rest)) =
        .ok (some (.boolean value, ⟨rest, first :: path, rfl⟩)) := by
    have after := identifierPathEnd_append complete ends
    have same : Text.upTo (first :: (path ++ rest)) rest = truthWord value :=
      upTo_of_eq_append (by rw [word, List.cons_append])
    obtain ⟨-, -, notBrace, notQuotes, notNumber⟩ :=
      identifierStart_cases starts
    rw [parseNode?]
    simp only [notBrace, notQuotes, notNumber, starts, if_false, if_true,
      Bool.false_eq_true]
    rw [parseWord]
    simp only [after, same]
    cases value <;> simp [truthWord]
  cases value with
  | true => exact read 't' ['r', 'u', 'e'] rfl (by decide) (by decide)
  | false => exact read 'f' ['a', 'l', 's', 'e'] rfl (by decide) (by decide)

theorem parseNode?_of_call
    {first : Char} {path opening inner : Text} {call : Call}
    {finish : Place inner} (starts : isIdentifierStart first = true)
    (complete : identifierPathEnd path = [])
    (ends : EndsWord (opening ++ '(' :: inner))
    (noWord : ∀ value, first :: path ≠ truthWord value)
    (opens : CallOpening opening) (found :
      parseArguments ('(' :: inner) (first :: path ++ opening) false inner =
        .ok (call, finish)) :
    parseNode? (first :: (path ++ (opening ++ '(' :: inner))) =
      .ok (some (.call call, ⟨finish.1,
        finish.2.trans ⟨first :: path ++ (opening ++ ['(']), by simp⟩⟩)) := by
  obtain ⟨typed, began, behind, skipped, parenthesis⟩ := opens.skipped inner
  obtain ⟨-, -, notBrace, notQuotes, notNumber⟩ := identifierStart_cases starts
  have after := identifierPathEnd_append complete ends
  have word : Text.upTo (first :: (path ++ (opening ++ '(' :: inner)))
      (identifierPathEnd (path ++ (opening ++ '(' :: inner))) = first :: path :=
    upTo_of_eq_append (by rw [after, List.cons_append])
  have callee :
      Text.upTo (first :: (path ++ (opening ++ '(' :: inner))) ('(' :: inner) =
        first :: path ++ opening := upTo_of_eq_append (by simp)
  have noTruth : first :: path ≠ ['t', 'r', 'u', 'e'] := noWord true
  have noLie : first :: path ≠ ['f', 'a', 'l', 's', 'e'] := noWord false
  rw [parseNode?]
  simp only [notBrace, notQuotes, notNumber, starts, if_false, if_true,
    Bool.false_eq_true]
  rw [parseWord]
  simp only [word, noTruth, noLie, if_false]
  split
  · next failed =>
      rw [after, began] at failed
      contradiction
  · next typed' began' =>
      rw [after, began] at began'
      cases began'
      split
      · next failed =>
          rw [skipped] at failed
          contradiction
      · next failed =>
          rw [skipped] at failed
          simp at failed
      · next behind' skipped' =>
          rw [skipped] at skipped'
          cases skipped'
          split
          · next failed =>
              rw [parenthesis] at failed
              contradiction
          · next inner' parenthesis' =>
              rw [parenthesis] at parenthesis'
              cases parenthesis'
              rw [callee, found]
          · next noParenthesis found' =>
              rw [parenthesis] at found'
              cases found'
              exact absurd rfl (noParenthesis _)

section Steps

variable {callee leading text close trailing rest : Text} {afterComma : Bool}

theorem parseArguments_close (complete : Trivia close) (opener : Text) :
    parseArguments opener callee afterComma (close ++ ')' :: rest) =
      .ok (⟨callee, [], close, afterComma⟩,
        ⟨rest, close ++ [')'], by simp⟩) := by
  have began : skipTrivia (close ++ ')' :: rest) = .ok (')' :: rest) :=
    complete.skipTrivia_eq (skipTrivia_token (by decide) (by decide) rest)
  rw [parseArguments]
  split
  · next failed =>
      rw [began] at failed
      contradiction
  · next failed =>
      rw [began] at failed
      cases failed
  · next first others found =>
      rw [began] at found
      cases found
      simp [upTo_append]

/-- One argument is read, and what stands behind it decides how the reader
goes on. -/
theorem parseArguments_item {value : Expr} {finish : Place text}
    {delimiter : Char} (complete : Trivia leading) (begins : Begins ')' text)
    (read : parseValue true text = .ok (value, finish))
    (same : finish.1 = trailing ++ delimiter :: rest) (closed : Trivia trailing)
    (delimits : delimiter = ',' ∨ delimiter = ')') (opener : Text) :
    ∃ later : rest <:+ leading ++ text,
      parseArguments opener callee afterComma (leading ++ text) =
        if delimiter = ',' then
          match parseArguments opener callee true rest with
          | .error fault => .error fault
          | .ok (call, place) =>
              .ok
                ({ call with args := ⟨leading, value, trailing⟩ :: call.args },
                  ⟨place.1, place.2.trans later⟩)
        else .ok (⟨callee, [⟨leading, value, trailing⟩], [], false⟩,
            ⟨rest, later⟩) := by
  have began := complete.skipTrivia_eq begins.token
  have ended : skipTrivia finish.1 = .ok (delimiter :: rest) := by
    rw [same]
    apply closed.skipTrivia_eq
    rcases delimits with rfl | rfl <;>
      exact skipTrivia_token (by decide) (by decide) rest
  have between : finish.1.upTo (delimiter :: rest) = trailing := by
    rw [same, upTo_append]
  have later : rest <:+ leading ++ text := by
    have inside := finish.2
    rw [same] at inside
    exact (List.suffix_cons _ _).trans ((List.suffix_append _ _).trans
      (inside.trans (List.suffix_append _ _)))
  refine ⟨later, ?_⟩
  rw [parseArguments]
  split
  · next failed =>
      rw [began] at failed
      contradiction
  · next failed =>
      rw [began] at failed
      cases failed
      exact absurd rfl begins.more
  · next first others found =>
      rw [began] at found
      cases found
      have different : first ≠ ')' := by
        rintro rfl
        exact begins.different rfl
      simp only [different, if_false, read]
      split
      · next failed =>
          rw [ended] at failed
          contradiction
      · next failed =>
          rw [ended] at failed
          cases failed
      · next character behind found' =>
          rw [ended] at found'
          cases found'
          rcases delimits with rfl | rfl
          · simp only [upTo_append, between]
            rfl
          · simp [upTo_append, between]

theorem parseMembers_close (complete : Trivia close) (opener : Text) :
    parseMembers opener afterComma (close ++ '}' :: rest) =
      .ok (⟨[], some close, some afterComma⟩,
        ⟨rest, close ++ ['}'], by simp⟩) := by
  have began : skipTrivia (close ++ '}' :: rest) = .ok ('}' :: rest) :=
    complete.skipTrivia_eq (skipTrivia_token (by decide) (by decide) rest)
  rw [parseMembers]
  split
  · next failed =>
      rw [began] at failed
      contradiction
  · next failed =>
      rw [began] at failed
      cases failed
  · next first others found =>
      rw [began] at found
      cases found
      simp [upTo_append]

/-- One member is read, and what stands behind it decides how the reader
goes on. -/
theorem parseMembers_item {member : Member} {finish : Place text}
    {delimiter : Char} (complete : Trivia leading) (begins : Begins '}' text)
    (read : parseMember leading text = .ok (member, finish))
    (same : finish.1 = trailing ++ delimiter :: rest) (closed : Trivia trailing)
    (delimits : delimiter = ',' ∨ delimiter = '}') (opener : Text) :
    ∃ later : rest <:+ leading ++ text,
      parseMembers opener afterComma (leading ++ text) =
        if delimiter = ',' then
          match parseMembers opener true rest with
          | .error fault => .error fault
          | .ok (literal, place) =>
              .ok ({ literal with
                members := member.withTrailing trailing :: literal.members },
                ⟨place.1, place.2.trans later⟩)
        else .ok (⟨[member], some trailing, some false⟩, ⟨rest, later⟩) := by
  have began := complete.skipTrivia_eq begins.token
  have ended : skipTrivia finish.1 = .ok (delimiter :: rest) := by
    rw [same]
    apply closed.skipTrivia_eq
    rcases delimits with rfl | rfl <;>
      exact skipTrivia_token (by decide) (by decide) rest
  have between : finish.1.upTo (delimiter :: rest) = trailing := by
    rw [same, upTo_append]
  have later : rest <:+ leading ++ text := by
    have inside := finish.2
    rw [same] at inside
    exact (List.suffix_cons _ _).trans ((List.suffix_append _ _).trans
      (inside.trans (List.suffix_append _ _)))
  refine ⟨later, ?_⟩
  rw [parseMembers]
  split
  · next failed =>
      rw [began] at failed
      contradiction
  · next failed =>
      rw [began] at failed
      cases failed
      exact absurd rfl begins.more
  · next first others found =>
      rw [began] at found
      cases found
      have different : first ≠ '}' := by
        rintro rfl
        exact begins.different rfl
      simp only [different, if_false, upTo_append, read]
      split
      · next failed =>
          rw [ended] at failed
          contradiction
      · next failed =>
          rw [ended] at failed
          cases failed
      · next character behind found' =>
          rw [ended] at found'
          cases found'
          rcases delimits with rfl | rfl
          · simp only [between]
            rfl
          · simp [between]

theorem parseMember_property {before behind inner : Text} {key : Key}
    {value : Expr} {finish : Place inner}
    (reads : ReadsKey text key (before ++ ':' :: (behind ++ inner)))
    (first : Trivia before) (second : Trivia behind)
    (begins : BeginsToken inner)
    (read : parseValue true inner = .ok (value, finish)) (leading : Text) :
    ∃ later : finish.1 <:+ text,
      parseMember leading text =
        .ok (.property ⟨key, value,
          some ⟨leading, before ++ ':' :: behind, []⟩⟩,
          ⟨finish.1, later⟩) := by
  obtain ⟨keyEnd, foundKey, same⟩ := parseKey?_of_readsKey reads
  have colon : skipTrivia keyEnd.1 = .ok (':' :: (behind ++ inner)) := by
    rw [same]
    exact first.skipTrivia_eq (skipTrivia_token (by decide) (by decide) _)
  have start := second.skipTrivia_eq begins
  have separator : keyEnd.1.upTo inner = before ++ ':' :: behind :=
    upTo_of_eq_append (by rw [same]; simp)
  have later : finish.1 <:+ text := by
    have inside := keyEnd.2
    rw [same] at inside
    exact finish.2.trans ((List.suffix_append behind inner).trans
      ((List.suffix_cons _ _).trans
        ((List.suffix_append before _).trans inside)))
  refine ⟨later, ?_⟩
  rw [parseMember]
  simp only [foundKey]
  split
  · next failed =>
      rw [colon] at failed
      contradiction
  · next failed =>
      rw [colon] at failed
      cases failed
  · next character others found =>
      rw [colon] at found
      cases found
      simp only [if_true]
      split
      · next failed =>
          rw [start] at failed
          contradiction
      · next place found' =>
          rw [start] at found'
          cases found'
          simp [read, separator]

theorem parseMember_keyed {key : Key} {keyEnd : Place text} {character : Char}
    {others : Text} (foundKey : parseKey? text = .ok (some (key, keyEnd)))
    (token : skipTrivia keyEnd.1 = .ok (character :: others))
    (notColon : character ≠ ':') (leading : Text) :
    parseMember leading text =
      if character = '(' || character = '<' then
        parseWrittenMember leading (some key.name) text
      else if character = ',' || character = '}' then
        .ok (.written ⟨some key.name, text.upTo keyEnd.1, leading, []⟩, keyEnd)
      else if isMethodModifier key.name then
        match scanIdentifier? (character :: others) with
        | some (name, _) => parseWrittenMember leading (some name) text
        | none => .error (.here .expectedColon (character :: others))
      else .error (.here .expectedColon (character :: others)) := by
  rw [parseMember]
  simp only [foundKey]
  split
  · next failed =>
      rw [token] at failed
      contradiction
  · next failed =>
      rw [token] at failed
      cases failed
  · next found =>
      rw [token] at found
      cases found
      refine (if_neg notColon).trans ?_
      rfl

end Steps

mutual

/-- An expression that the rules derive is read. -/
theorem parseValue_of_readsValue {strict : Bool} {text rest : Text}
    {value : Expr} (reads : ReadsValue strict text value rest) :
    ∃ finish, parseValue strict text = .ok (value, finish) ∧
      finish.1 = rest := by
  match reads with
  | .node node stops =>
      obtain ⟨finish, found, rfl⟩ := parseNode?_of_readsNode node
      refine ⟨finish, ?_, rfl⟩
      rw [parseValue]
      simp only [found]
      cases strict with
      | true => simp [atExpressionEnd_eq_true.2 (stops rfl)]
      | false => simp
  | @ReadsValue.beyond run _ rest _ node goesOn isRun =>
      obtain ⟨finish, found, rfl⟩ := parseNode?_of_readsNode node
      refine ⟨⟨rest, List.suffix_append run rest⟩, ?_, rfl⟩
      rw [parseValue]
      simp only [found, atExpressionEnd_eq_false.2 goesOn, if_true]
      exact isRun.parseVerbatim_eq
  | @ReadsValue.verbatim _ run rest noNode isRun =>
      refine ⟨⟨rest, List.suffix_append run rest⟩, ?_, rfl⟩
      rw [parseValue]
      simp only [parseNode?_of_noNode noNode]
      exact isRun.parseVerbatim_eq

theorem parseNode?_of_readsNode {text rest : Text} {value : Expr}
    (reads : ReadsNode text value rest) :
    ∃ finish, parseNode? text = .ok (some (value, finish)) ∧
      finish.1 = rest := by
  match reads with
  | @ReadsNode.object text rest literal members =>
      obtain ⟨finish, found, rfl⟩ :=
        parseMembers_of_readsMembers members ('{' :: text)
      refine ⟨.behind '{' finish, ?_, rfl⟩
      rw [parseNode?]
      simp [found]
  | @ReadsNode.string mark body rest quotes closes =>
      have ended := closes rest
      have notBrace : mark ≠ '{' := by
        rintro rfl
        simp [isQuotationMark] at quotes
      have raw : Text.upTo (mark :: (body ++ mark :: rest)) rest =
          mark :: (body ++ [mark]) :=
        upTo_of_eq_append (by simp)
      refine ⟨⟨rest, mark :: (body ++ [mark]), by simp⟩, ?_, rfl⟩
      rw [parseNode?]
      simp only [notBrace, quotes, if_true, if_false]
      rw [parseString]
      split
      · next failed =>
          rw [ended] at failed
          contradiction
      · next after found =>
          rw [ended] at found
          cases found
          simp [raw, Text.unquoted, Except.map]
  | @ReadsNode.number run rest numeral isRun =>
      obtain ⟨first, others, rfl⟩ := List.exists_cons_of_ne_nil isRun.more
      have starts := numberStart_of_isNumeral numeral
      obtain ⟨-, -, -, -, notBrace, notQuotes⟩ := numberStart_cases starts
      obtain ⟨finish, found, same⟩ :=
        parseNumber?_eq_some (List.cons_append ..).symm isRun numeral
      refine ⟨finish, ?_, same⟩
      change parseNode? (first :: (others ++ rest)) = _
      rw [parseNode?]
      simpa [notBrace, notQuotes, starts] using found
  | @ReadsNode.boolean value rest ends =>
      exact ⟨_, parseNode?_of_truthWord value ends, rfl⟩
  | @ReadsNode.call first path opening inner rest call starts complete ends
        noWord opens args =>
      obtain ⟨finish, found, rfl⟩ :=
        parseArguments_of_readsArguments args ('(' :: inner)
      exact ⟨_, parseNode?_of_call starts complete ends noWord opens found, rfl⟩

theorem parseArguments_of_readsArguments
    {callee text rest : Text} {afterComma : Bool} {call : Call}
    (reads : ReadsArguments callee afterComma text call rest) (opener : Text) :
    ∃ finish,
      parseArguments opener callee afterComma text = .ok (call, finish) ∧
      finish.1 = rest := by
  match reads with
  | @ReadsArguments.close _ close rest _ complete =>
      exact ⟨_, parseArguments_close complete opener, rfl⟩
  | @ReadsArguments.last _ leading text trailing rest _ value complete begins
        reads closed =>
      obtain ⟨finish, found, same⟩ := parseValue_of_readsValue reads
      obtain ⟨later, equal⟩ :=
        parseArguments_item complete begins found same closed (.inr rfl) opener
      exact ⟨_, equal, rfl⟩
  | @ReadsArguments.more _ leading text trailing others rest _ value call
        complete begins reads closed further =>
      obtain ⟨finish, found, same⟩ := parseValue_of_readsValue reads
      obtain ⟨place, found', same'⟩ :=
        parseArguments_of_readsArguments further opener
      obtain ⟨later, equal⟩ :=
        parseArguments_item complete begins found same closed (.inl rfl) opener
      rw [if_pos rfl, found'] at equal
      exact ⟨_, equal, same'⟩

theorem parseMembers_of_readsMembers {text rest : Text} {afterComma : Bool}
    {literal : ObjectLiteral}
    (reads : ReadsMembers afterComma text literal rest) (opener : Text) :
    ∃ finish, parseMembers opener afterComma text = .ok (literal, finish) ∧
      finish.1 = rest := by
  match reads with
  | @ReadsMembers.close close rest _ complete =>
      exact ⟨_, parseMembers_close complete opener, rfl⟩
  | @ReadsMembers.last leading text trailing rest _ member complete begins reads
        closed =>
      obtain ⟨finish, found, same⟩ := parseMember_of_readsMember reads
      obtain ⟨later, equal⟩ :=
        parseMembers_item complete begins found same closed (.inr rfl) opener
      exact ⟨_, equal, rfl⟩
  | @ReadsMembers.more leading text trailing others rest _ member literal
        complete begins reads closed further =>
      obtain ⟨finish, found, same⟩ := parseMember_of_readsMember reads
      obtain ⟨place, found', same'⟩ :=
        parseMembers_of_readsMembers further opener
      obtain ⟨later, equal⟩ :=
        parseMembers_item complete begins found same closed (.inl rfl) opener
      rw [if_pos rfl, found'] at equal
      exact ⟨_, equal, same'⟩

theorem parseMember_of_readsMember {leading text rest : Text} {member : Member}
    (reads : ReadsMember leading text member rest) :
    ∃ finish, parseMember leading text = .ok (member, finish) ∧
      finish.1 = rest := by
  match reads with
  | @ReadsMember.property _ text before behind inner rest key value reads
        first second begins readsValue =>
      obtain ⟨finish, found, same⟩ := parseValue_of_readsValue readsValue
      obtain ⟨later, equal⟩ :=
        parseMember_property reads first second begins found leading
      exact ⟨_, equal, same⟩
  | @ReadsMember.method _ run before others rest key opener reads first opens
        isRun =>
      obtain ⟨keyEnd, foundKey, same⟩ := parseKey?_of_readsKey reads
      have token : skipTrivia keyEnd.1 = .ok (opener :: others) := by
        rw [same]
        apply first.skipTrivia_eq
        rcases opens with rfl | rfl <;>
          exact skipTrivia_token (by decide) (by decide) _
      refine ⟨⟨rest, List.suffix_append run rest⟩, ?_, rfl⟩
      rw [parseMember_keyed foundKey token
        (by rcases opens with rfl | rfl <;> decide),
        if_pos (by simpa using opens)]
      exact isRun.parseWrittenMember_eq leading _
  | @ReadsMember.shorthand _ raw rest others key delimiter reads found
        delimits =>
      obtain ⟨keyEnd, foundKey, same⟩ := parseKey?_of_readsKey reads
      refine ⟨keyEnd, ?_, same⟩
      rw [parseMember_keyed foundKey (by rw [same]; exact found)
        (by rcases delimits with rfl | rfl <;> decide),
        if_neg (by rcases delimits with rfl | rfl <;> decide),
        if_pos (by simpa using delimits), same, upTo_append]
  | @ReadsMember.modified _ run before name others rest key reads first begins
        named modifier isRun =>
      obtain ⟨keyEnd, foundKey, same⟩ := parseKey?_of_readsKey reads
      obtain ⟨character, further, shape⟩ : ∃ character further,
          name ++ others = character :: further := by
        cases shape : name ++ others with
        | nil => simp [shape, scanIdentifier?] at named
        | cons character further => exact ⟨character, further, rfl⟩
      rw [shape] at begins named same
      have starts : isIdentifierStart character = true := by
        rw [scanIdentifier?] at named
        split at named
        · assumption
        · contradiction
      have different (other : Char) (no : isIdentifierStart other = false) :
          character ≠ other := ne_of_class starts no
      refine ⟨⟨rest, List.suffix_append run rest⟩, ?_, rfl⟩
      rw [parseMember_keyed foundKey
        (by rw [same]; exact first.skipTrivia_eq begins)
        (different _ (by decide)), if_neg (by simp [different '(' (by decide),
        different '<' (by decide)]), if_neg (by simp [different ',' (by decide),
          different '}' (by decide)]), if_pos modifier, named]
      exact isRun.parseWrittenMember_eq leading _
  | @ReadsMember.unnamed _ run rest noKey isRun =>
      refine ⟨⟨rest, List.suffix_append run rest⟩, ?_, rfl⟩
      rw [parseMember, parseKey?_of_noKey noKey]
      exact isRun.parseWrittenMember_eq leading none

end

/-- A text that is an expression with trivia around it is read as the
expression. -/
theorem Expr.parseFault_of_readsValue {text start rest : Text} {value : Expr}
    (began : skipTrivia text = .ok start)
    (reads : ReadsValue true start value rest)
    (ended : skipTrivia rest = .ok []) : Expr.parseFault text = .ok value := by
  obtain ⟨finish, found, rfl⟩ := parseValue_of_readsValue reads
  have more := reads.ne_nil
  rw [parseFault]
  split
  · next failed => simp [began] at failed
  · next empty => simp_all
  · next start found' =>
      cases began.symm.trans ‹_›
      simp only [found, ended]

/-- A text is read by itself as it is read in front of the end of a text. -/
theorem Expr.parseFault_of_readsWhole
    {text : Text} {value : Expr} (begins : BeginsToken text)
    (reads : ReadsValue true (text ++ []) value []) :
    Expr.parseFault text = .ok value := by
  rw [List.append_nil] at reads
  exact Expr.parseFault_of_readsValue begins reads rfl

end ConfigEdit
