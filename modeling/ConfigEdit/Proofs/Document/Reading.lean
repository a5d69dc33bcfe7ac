import ConfigEdit.Proofs.Document.Grammar
import ConfigEdit.Proofs.Text.Characters

/-!
# The reader follows the rules

What `parseValue` reads from a text is derived by the rules of `ReadsValue`,
and the other way round; the same holds of the readers of nodes, arguments and
members.
-/

namespace ConfigEdit

/-- A walk over an expression that does not stay where it is passes a run. -/
theorem isRun_of_skipExpression {text : Text} {finish : Place text}
    (found : skipExpression text = .ok finish)
    (more : finish.1.length ≠ text.length) :
    ∃ run, text = run ++ finish.1 ∧ text.upTo finish.1 = run ∧
      IsRun run finish.1 := by
  have walked := expressionEnd_toOption [] (.start text)
  rw [skipExpression] at found
  simp only [found, Except.toOption, Option.map_some, List.map_nil] at walked
  obtain ⟨run, split, passes, joins, stops⟩ := flatEnd?_eq_some walked.symm
  refine ⟨run, split, upTo_of_eq_append split, ⟨?_, passes, joins, stops⟩⟩
  rintro rfl
  exact more (congrArg List.length split.symm)

theorem IsRun.skipExpression_eq {run rest : Text} (isRun : IsRun run rest) :
    skipExpression (run ++ rest) = .ok ⟨rest, List.suffix_append run rest⟩ := by
  have walked := expressionEnd_toOption [] (.start (run ++ rest))
  rw [List.map_nil, isRun.passes.flatEnd?_of_stops isRun.joins isRun.stops]
    at walked
  rw [skipExpression]
  cases result : expressionEnd [] (Place.start (run ++ rest)) with
  | error fault => simp [result, Except.toOption] at walked
  | ok finish =>
      simp only [result, Except.toOption, Option.map_some, Option.some.injEq]
        at walked
      rw [Except.ok.injEq]
      exact Subtype.ext walked

theorem isRun_of_parseVerbatim {text : Text} {value : Expr}
    {finish : Place text} (found : parseVerbatim text = .ok (value, finish)) :
    ∃ run, text = run ++ finish.1 ∧ value = .verbatim run ∧
      IsRun run finish.1 := by
  rw [parseVerbatim] at found
  split at found
  · contradiction
  · next ended =>
      split at found
      · contradiction
      · next more =>
          cases found
          obtain ⟨run, split, taken, isRun⟩ :=
            isRun_of_skipExpression ended more
          exact ⟨run, split, by rw [taken], isRun⟩

theorem IsRun.parseVerbatim_eq {run rest : Text} (isRun : IsRun run rest) :
    parseVerbatim (run ++ rest) =
      .ok (.verbatim run, ⟨rest, List.suffix_append run rest⟩) := by
  have longer : rest.length ≠ (run ++ rest).length := by
    simpa [List.length_append] using isRun.more
  rw [parseVerbatim, isRun.skipExpression_eq]
  simp only
  rw [if_neg longer, upTo_append]

theorem isRun_of_parseWrittenMember {leading text : Text} {name : Option Text}
    {member : Member} {finish : Place text}
    (found : parseWrittenMember leading name text = .ok (member, finish)) :
    ∃ run, text = run ++ finish.1 ∧ member = .written ⟨name, run, leading, []⟩ ∧
      IsRun run finish.1 := by
  rw [parseWrittenMember] at found
  split at found
  · contradiction
  · next ended =>
      split at found
      · contradiction
      · next more =>
          cases found
          obtain ⟨run, split, taken, isRun⟩ :=
            isRun_of_skipExpression ended more
          exact ⟨run, split, by rw [taken], isRun⟩

theorem IsRun.parseWrittenMember_eq {run rest : Text} (isRun : IsRun run rest)
    (leading : Text) (name : Option Text) :
    parseWrittenMember leading name (run ++ rest) =
      .ok (.written ⟨name, run, leading, []⟩,
        ⟨rest, List.suffix_append run rest⟩) := by
  have longer : rest.length ≠ (run ++ rest).length := by
    simpa [List.length_append] using isRun.more
  rw [parseWrittenMember, isRun.skipExpression_eq]
  simp only
  rw [if_neg longer, upTo_append]

theorem atExpressionEnd_eq_true {text : Text} :
    atExpressionEnd text = .ok true ↔ Stops text := by
  rw [atExpressionEnd, Stops]
  split
  · next failed => simp [failed]
  · next ended => simp [ended]
  · next character rest found =>
      simp only [found, Except.ok.injEq, Bool.or_eq_true, List.cons.injEq,
        reduceCtorEq, false_or]
      constructor
      · rintro (separates | closes)
        · exact ⟨_, _, ⟨rfl, rfl⟩, .inr separates⟩
        · exact ⟨_, _, ⟨rfl, rfl⟩, .inl closes⟩
      · rintro ⟨_, _, ⟨rfl, rfl⟩, closes | separates⟩
        · exact .inr closes
        · exact .inl separates

theorem atExpressionEnd_eq_false {text : Text} :
    atExpressionEnd text = .ok false ↔ GoesOn text := by
  rw [atExpressionEnd, GoesOn]
  split
  · next failed => simp [failed]
  · next ended => simp [ended]
  · next character rest found =>
      simp only [found, Except.ok.injEq, Bool.or_eq_false_iff, List.cons.injEq]
      constructor
      · rintro ⟨separates, closes⟩
        exact ⟨_, _, ⟨rfl, rfl⟩, separates, closes⟩
      · rintro ⟨_, _, ⟨rfl, rfl⟩, separates, closes⟩
        exact ⟨separates, closes⟩

/-- What is skipped in front of more text is trivia, and a token follows. -/
theorem begins_of_skipTrivia
    {text rest : Text} (found : skipTrivia text = .ok rest) (more : rest ≠ []) :
    ∃ trivia, text = trivia ++ rest ∧ text.upTo rest = trivia ∧ Trivia trivia ∧
      BeginsToken rest := by
  obtain ⟨trivia, rfl, complete⟩ := exists_trivia_of_skipTrivia found more
  exact ⟨trivia, rfl, upTo_append trivia rest, complete,
    beginsToken_of_skipTrivia found⟩

theorem readsKey_of_parseKey? {text : Text} {key : Key} {finish : Place text}
    (found : parseKey? text = .ok (some (key, finish))) :
    ReadsKey text key finish.1 := by
  cases text with
  | nil => simp [parseKey?] at found
  | cons first rest =>
      rw [parseKey?] at found
      simp only at found
      split at found
      · next quotes =>
          split at found
          · contradiction
          · next after ended =>
              cases found
              obtain ⟨-, body, rfl, closes⟩ := skipString_eq_ok ended
              have raw : Text.upTo (first :: (body ++ first :: after)) after =
                  first :: (body ++ [first]) := by
                have := upTo_append (first :: (body ++ [first])) after
                simpa using this
              rw [raw]
              simpa [Text.unquoted] using ReadsKey.quoted quotes closes
      · split at found
        · next digit =>
            cases found
            obtain ⟨left, right, rfl, all, ends, taken, dropped⟩ :=
              exists_endsAt isNumericKeyPart rest
            simp only [taken, dropped]
            exact .numeric digit all ends
        · split at found
          · next start =>
              cases found
              obtain ⟨left, right, rfl, all, ends, taken, dropped⟩ :=
                exists_endsAt isIdentifierPart rest
              simp only [taken, dropped]
              exact .word start all ends
          · simp at found

theorem noKey_of_parseKey? {text : Text} (found : parseKey? text = .ok none) :
    NoKey text := by
  intro first head
  cases text with
  | nil => simp at head
  | cons character rest =>
      cases head
      rw [parseKey?] at found
      simp only at found
      split at found
      · split at found <;> simp at found
      · split at found
        · simp at found
        · split at found
          · simp at found
          · simp_all

theorem isRun_of_numberStart
    {first : Char} {rest : Text} {finish : Place (first :: rest)}
    (starts : (first.isDigit || first = '.' || first = '-') = true)
    (found : skipExpression (first :: rest) = .ok finish) :
    ∃ run, first :: rest = first :: run ++ finish.1 ∧
      Text.upTo (first :: rest) finish.1 = first :: run ∧
      IsRun (first :: run) finish.1 := by
  obtain ⟨notGap, notSlash, notCloser, notSeparator, -, -⟩ :=
    numberStart_cases starts
  have walked := expressionEnd_toOption [] (.start (first :: rest))
  rw [skipExpression] at found
  simp only [found, Except.toOption, Option.map_some, List.map_nil] at walked
  obtain ⟨run, split, passes, joins, stops⟩ := flatEnd?_eq_some walked.symm
  cases run with
  | nil =>
      rw [List.nil_append] at split
      rw [← split] at stops
      have ends := stops.ends (skipTrivia_token notGap notSlash rest)
      simp [notCloser, notSeparator] at ends
  | cons character run =>
      obtain ⟨rfl, same⟩ := List.cons.inj split
      exact ⟨run, split, upTo_of_eq_append split, List.cons_ne_nil _ _, passes,
        joins, stops⟩

theorem readsNode_of_parseNumber? {first : Char} {rest : Text} {value : Expr}
    {finish : Place (first :: rest)}
    (starts : (first.isDigit || first = '.' || first = '-') = true)
    (found : parseNumber? (first :: rest) = .ok (some (value, finish))) :
    ReadsNode (first :: rest) value finish.1 := by
  rw [parseNumber?] at found
  split at found
  · contradiction
  · next ended =>
      simp only at found
      split at found
      · next numeral =>
          cases found
          obtain ⟨run, split, taken, isRun⟩ := isRun_of_numberStart starts ended
          rw [taken] at numeral ⊢
          have read := ReadsNode.number numeral isRun
          rwa [← split] at read
      · simp at found

theorem noNode_of_parseNumber? {first : Char} {rest : Text}
    (starts : (first.isDigit || first = '.' || first = '-') = true)
    (found : parseNumber? (first :: rest) = .ok none) :
    NoNode (first :: rest) := by
  rw [parseNumber?] at found
  split at found
  · contradiction
  · next ended =>
      simp only at found
      split at found
      · simp at found
      · next notNumeral =>
          obtain ⟨run, split, taken, isRun⟩ := isRun_of_numberStart starts ended
          rw [taken] at notNumeral
          rw [split]
          exact .number starts (by simpa using notNumeral) isRun

theorem readsNode_of_parseString {text : Text} {value : Expr}
    {finish : Place text} (found : parseString text = .ok (value, finish)) :
    ReadsNode text value finish.1 := by
  rw [parseString.eq_def] at found
  split at found
  · contradiction
  · next mark rest =>
      split at found
      · contradiction
      · next after ended =>
          cases found
          obtain ⟨quotes, body, rfl, closes⟩ := skipString_eq_ok ended
          have raw : Text.upTo (mark :: (body ++ mark :: after)) after =
              mark :: (body ++ [mark]) := upTo_of_eq_append (by simp)
          simp only [raw]
          simpa [Text.unquoted] using ReadsNode.string quotes closes

theorem typesEnd?_of_skipped {typed : Text} {found : Option (Place typed)}
    (skipped :
      (if typed.head? = some '<' then skipTypeArguments 0 (.start typed)
        else .ok (some (.start typed))) = .ok found) :
    typed.head? ≠ some '<' ∧ found.map Subtype.val = some typed ∨
      typed.head? = some '<' ∧
      typesEnd? 0 typed = some (found.map Subtype.val) := by
  split at skipped
  · next opens => exact .inr ⟨opens, by rw [typesEnd?, skipped]; rfl⟩
  · next notOpens =>
      cases skipped
      exact .inl ⟨notOpens, rfl⟩

private theorem exists_callOpening {after typed inner : Text}
    {behindTypes : Place typed} (began : skipTrivia after = .ok typed)
    (skipped :
      (if typed.head? = some '<' then skipTypeArguments 0 (.start typed)
        else .ok (some (.start typed))) = .ok (some behindTypes))
    (found : skipTrivia behindTypes.1 = .ok ('(' :: inner)) :
    ∃ opening, after = opening ++ '(' :: inner ∧ CallOpening opening := by
  rcases typesEnd?_of_skipped skipped with ⟨-, same⟩ | ⟨opens, same⟩
  · have same : behindTypes.1 = typed := by simpa using same
    have stays : BeginsToken typed := beginsToken_of_skipTrivia began
    rw [same, stays, Except.ok.injEq] at found
    subst found
    obtain ⟨opening, split, -, complete, -⟩ :=
      begins_of_skipTrivia began (List.cons_ne_nil _ _)
    exact ⟨opening, split, .plain complete⟩
  · obtain ⟨types, split, closes⟩ := typesEnd?_eq_some same
    obtain ⟨behind, rest, -, complete, -⟩ :=
      begins_of_skipTrivia found (List.cons_ne_nil _ _)
    have some : typed ≠ [] := by
      rintro rfl
      simp at opens
    obtain ⟨before, whole, -, first, -⟩ := begins_of_skipTrivia began some
    refine ⟨before ++ (types ++ behind), ?_, .typed first ?_ closes complete⟩
    · rw [whole, split, rest]
      simp
    · cases types with
      | nil =>
          -- Nothing at all is never stepped over as type arguments.
          have walked := closes []
          simp [typesEnd?_nil] at walked
      | cons character others =>
          rw [split] at opens
          exact opens

theorem noNode_of_parseWord {first : Char} {rest : Text}
    (starts : isIdentifierStart first = true)
    (found : parseWord first rest = .ok none) :
    NoNode (first :: rest) := by
  obtain ⟨path, split, complete, ends⟩ := exists_endsWord rest
  have word :
      Text.upTo (first :: rest) (identifierPathEnd rest) = first :: path :=
    upTo_of_eq_append (by rw [List.cons_append, ← split])
  rw [parseWord] at found
  simp only [word] at found
  split at found
  · simp at found
  · next notTrue =>
      split at found
      · simp at found
      · next notFalse =>
          have noWord : ∀ value, first :: path ≠ truthWord value := by
            rintro (_ | _)
            · exact notFalse
            · exact notTrue
          have noNode (noCall : NoCall (identifierPathEnd rest)) :
              NoNode (first :: rest) := by
            have node := NoNode.word starts complete ends noWord noCall
            rwa [List.cons_append, ← split] at node
          apply noNode
          split at found
          · contradiction
          · next typed began =>
              split at found
              · contradiction
              · next skipped =>
                  rcases typesEnd?_of_skipped skipped with
                    ⟨-, none'⟩ | ⟨opens, none'⟩
                  · simp at none'
                  · exact .unbalanced began opens none'
              · next behindTypes skipped =>
                  split at found
                  · contradiction
                  · split at found <;> simp at found
                  · next token noParenthesis began' =>
                      have different : token.head? ≠ some '(' := by
                        intro same
                        cases token with
                        | nil => simp at same
                        | cons character others =>
                            cases same
                            exact noParenthesis _ rfl
                      rcases typesEnd?_of_skipped skipped with
                        ⟨notOpens, same⟩ | ⟨opens, same⟩
                      · have same : behindTypes.1 = typed := by simpa using same
                        have stays : BeginsToken typed :=
                          beginsToken_of_skipTrivia began
                        rw [same, stays, Except.ok.injEq] at began'
                        subst began'
                        exact .plain began notOpens different
                      · exact .typed began opens same began' different

theorem noNode_of_parseNode? {text : Text} (found : parseNode? text = .ok none)
    (more : text ≠ []) : NoNode text := by
  cases text with
  | nil => contradiction
  | cons first rest =>
      rw [parseNode?] at found
      simp only at found
      split at found
      · split at found <;> simp at found
      · next notBrace =>
          split at found
          · cases result : parseString (first :: rest) <;>
              simp [result, Except.map] at found
          · next notQuotes =>
              split at found
              · next numeric => exact noNode_of_parseNumber? numeric found
              · next notNumeric =>
                  split at found
                  · next starts => exact noNode_of_parseWord starts found
                  · next notStart =>
                      exact .other notBrace (by simpa using notQuotes)
                        (by simpa using notNumeric) (by simpa using notStart)

/-- The text that has been skipped, and the place where it ends. -/
theorem begins_of_skipTrivia_cons {text rest : Text} {first closer : Char}
    (found : skipTrivia text = .ok (first :: rest))
    (different : first ≠ closer) :
    ∃ trivia, text = trivia ++ first :: rest ∧
      text.upTo (first :: rest) = trivia ∧
      Trivia trivia ∧ Begins closer (first :: rest) := by
  obtain ⟨trivia, split, taken, complete, token⟩ :=
    begins_of_skipTrivia found (List.cons_ne_nil _ _)
  exact ⟨trivia, split, taken, complete, token, List.cons_ne_nil _ _,
    by simpa using different⟩

mutual

/-- What is read as an expression follows the rules. -/
theorem readsValue_of_parseValue {strict : Bool} {text : Text} {value : Expr}
    {finish : Place text}
    (found : parseValue strict text = .ok (value, finish)) :
    ReadsValue strict text value finish.1 := by
  rw [parseValue] at found
  split at found
  · contradiction
  · next none' =>
      obtain ⟨run, split, rfl, isRun⟩ := isRun_of_parseVerbatim found
      have more : text ≠ [] := by
        rw [split]
        simp [isRun.more]
      have noNode := noNode_of_parseNode? none' more
      rw [split] at noNode
      have read : ReadsValue strict (run ++ finish.1) _ finish.1 :=
        .verbatim noNode isRun
      rwa [← split] at read
  · next node place read =>
      have node := readsNode_of_parseNode? read
      split at found
      · next isStrict =>
          split at found
          · contradiction
          · next ends =>
              cases found
              exact .node node fun _ => atExpressionEnd_eq_true.1 ends
          · next goesOn =>
              obtain ⟨run, split, rfl, isRun⟩ := isRun_of_parseVerbatim found
              have goesOn := atExpressionEnd_eq_false.1 goesOn
              generalize place.1 = other at node goesOn
              rw [split] at node
              have read := ReadsValue.beyond node goesOn isRun
              rwa [← split, ← isStrict] at read
      · next notStrict =>
          cases found
          exact .node node fun isStrict => absurd isStrict notStrict
termination_by 8 * text.length + 3

theorem readsNode_of_parseNode?
    {text : Text} {value : Expr} {finish : Place text}
    (found : parseNode? text = .ok (some (value, finish))) :
    ReadsNode text value finish.1 := by
  cases text with
  | nil => simp [parseNode?] at found
  | cons first rest =>
      rw [parseNode?] at found
      simp only at found
      split at found
      · next brace =>
          split at found
          · contradiction
          · next literal place read =>
              cases found
              subst brace
              exact .object (readsMembers_of_parseMembers read)
      · split at found
        · cases result : parseString (first :: rest) with
          | error fault => simp [result, Except.map] at found
          | ok pair =>
              simp only [result, Except.map, Except.ok.injEq, Option.some.injEq]
                at found
              subst found
              exact readsNode_of_parseString result
        · split at found
          · next numeric => exact readsNode_of_parseNumber? numeric found
          · split at found
            · next starts => exact readsNode_of_parseWord starts found
            · simp at found
termination_by 8 * text.length + 2

theorem readsNode_of_parseWord {first : Char} {rest : Text} {value : Expr}
    {finish : Place (first :: rest)} (starts : isIdentifierStart first = true)
    (found : parseWord first rest = .ok (some (value, finish))) :
    ReadsNode (first :: rest) value finish.1 := by
  obtain ⟨path, split, complete, ends⟩ := exists_endsWord rest
  have shape : first :: rest = first :: path ++ identifierPathEnd rest := by
    rw [List.cons_append, ← split]
  have word :
      Text.upTo (first :: rest) (identifierPathEnd rest) = first :: path :=
    upTo_of_eq_append shape
  have boolean (truth : Bool) (same : first :: path = truthWord truth) :
      ReadsNode (first :: rest) (.boolean truth) (identifierPathEnd rest) := by
    have read : ReadsNode (truthWord truth ++ _) (.boolean truth) _ :=
      .boolean ends
    rwa [← same, ← shape] at read
  rw [parseWord] at found
  simp only [word] at found
  split at found
  · next isTrue =>
      cases found
      exact boolean true isTrue
  next notTrue =>
  split at found
  · next isFalse =>
      cases found
      exact boolean false isFalse
  next notFalse =>
  have noWord : ∀ value, first :: path ≠ truthWord value := by
    rintro (_ | _)
    · exact notFalse
    · exact notTrue
  split at found
  · contradiction
  next typed began =>
  split at found
  · contradiction
  · simp at found
  next behindTypes skipped =>
  split at found
  · contradiction
  · next inner parenthesis =>
      split at found
      · contradiction
      next call place read =>
      cases found
      have bound : inner.length < rest.length :=
        Nat.lt_of_lt_of_le (skipTrivia_suffix parenthesis).length_le
          (Nat.le_trans behindTypes.length_le
            ((skipTrivia_suffix began).trans
              (identifierPathEnd_suffix rest)).length_le)
      have read := readsArguments_of_parseArguments read
      obtain ⟨opening, after, opens⟩ :=
        exists_callOpening began skipped parenthesis
      rw [after] at ends shape
      have callee :
          Text.upTo (first :: rest) ('(' :: inner) = first :: path ++ opening :=
        upTo_of_eq_append (by rw [shape, List.append_assoc])
      rw [callee] at read
      have whole := ReadsNode.call starts complete ends noWord opens read
      rwa [← shape] at whole
  · simp at found
termination_by 8 * (rest.length + 1) + 1

theorem readsArguments_of_parseArguments {opener callee text : Text}
    {afterComma : Bool} {call : Call} {finish : Place text}
    (found : parseArguments opener callee afterComma text =
      .ok (call, finish)) :
    ReadsArguments callee afterComma text call finish.1 := by
  rw [parseArguments] at found
  split at found
  · contradiction
  · contradiction
  next first others began =>
  simp only at found
  split at found
  · next closes =>
      subst closes
      cases found
      obtain ⟨leading, split, taken, complete, -⟩ :=
        begins_of_skipTrivia began (List.cons_ne_nil _ _)
      have read : ReadsArguments callee afterComma
          (leading ++ ')' :: others) _ others :=
        .close complete
      rw [taken]
      rwa [← split] at read
  next notCloser =>
  obtain ⟨leading, split, taken, complete, begins⟩ :=
    begins_of_skipTrivia_cons began notCloser
  have bound : others.length + 1 ≤ text.length :=
    (skipTrivia_suffix began).length_le
  split at found
  · contradiction
  next value place read =>
  have read := readsValue_of_parseValue read
  split at found
  · contradiction
  · contradiction
  next character behind ended =>
  obtain ⟨trailing, rest, between, closed, -⟩ :=
    begins_of_skipTrivia ended (List.cons_ne_nil _ _)
  have shorter : behind.length < text.length :=
    Nat.lt_of_lt_of_le (skipTrivia_suffix ended).length_le
      (Nat.le_trans place.2.length_le bound)
  rw [rest] at read
  split at found
  · next comma =>
      subst comma
      split at found
      · contradiction
      next call' place' further =>
      cases found
      have further := readsArguments_of_parseArguments further
      have whole : ReadsArguments callee afterComma
          (leading ++ first :: others) _ place'.1 :=
        .more complete begins read closed further
      rw [← split] at whole
      rwa [taken, between]
  · split at found
    · next closer =>
        subst closer
        cases found
        have whole : ReadsArguments callee afterComma
            (leading ++ first :: others) _ behind :=
          .last complete begins read closed
        rw [← split] at whole
        rwa [taken, between]
    · contradiction
termination_by 8 * text.length + 5

theorem readsMembers_of_parseMembers {opener text : Text} {afterComma : Bool}
    {literal : ObjectLiteral} {finish : Place text}
    (found : parseMembers opener afterComma text = .ok (literal, finish)) :
    ReadsMembers afterComma text literal finish.1 := by
  rw [parseMembers] at found
  split at found
  · contradiction
  · contradiction
  next first others began =>
  simp only at found
  split at found
  · next closes =>
      subst closes
      cases found
      obtain ⟨leading, split, taken, complete, -⟩ :=
        begins_of_skipTrivia began (List.cons_ne_nil _ _)
      have read : ReadsMembers afterComma (leading ++ '}' :: others) _ others :=
        .close complete
      rw [taken]
      rwa [← split] at read
  next notCloser =>
  obtain ⟨leading, split, taken, complete, begins⟩ :=
    begins_of_skipTrivia_cons began notCloser
  have bound : others.length + 1 ≤ text.length :=
    (skipTrivia_suffix began).length_le
  split at found
  · contradiction
  next member place read =>
  have read := readsMember_of_parseMember read
  rw [taken] at read
  split at found
  · contradiction
  · contradiction
  next character behind ended =>
  obtain ⟨trailing, rest, between, closed, -⟩ :=
    begins_of_skipTrivia ended (List.cons_ne_nil _ _)
  have shorter : behind.length < text.length :=
    Nat.lt_of_lt_of_le (skipTrivia_suffix ended).length_le
      (Nat.le_trans place.2.length_le bound)
  rw [rest] at read
  split at found
  · next comma =>
      subst comma
      split at found
      · contradiction
      next literal' place' further =>
      cases found
      have further := readsMembers_of_parseMembers further
      have whole :
          ReadsMembers afterComma (leading ++ first :: others) _ place'.1 :=
        .more complete begins read closed further
      rw [← split] at whole
      rwa [between]
  · split at found
    · next closer =>
        subst closer
        cases found
        have whole :
            ReadsMembers afterComma (leading ++ first :: others) _ behind :=
          .last complete begins read closed
        rw [← split] at whole
        rwa [between]
    · contradiction
termination_by 8 * text.length + 5

theorem readsMember_of_parseMember {leading text : Text} {member : Member}
    {finish : Place text}
    (found : parseMember leading text = .ok (member, finish)) :
    ReadsMember leading text member finish.1 := by
  rw [parseMember] at found
  split at found
  · contradiction
  · next noKey =>
      obtain ⟨run, split, rfl, isRun⟩ := isRun_of_parseWrittenMember found
      have noKey := noKey_of_parseKey? noKey
      rw [split] at noKey
      have read : ReadsMember leading _ _ _ := .unnamed noKey isRun
      rwa [← split] at read
  next key keyEnd keyFound =>
  have key := readsKey_of_parseKey? keyFound
  split at found
  · contradiction
  · contradiction
  next character rest began =>
  obtain ⟨before, behindKey, taken, complete, token⟩ :=
    begins_of_skipTrivia began (List.cons_ne_nil _ _)
  rw [behindKey] at key
  have written {name : Option Text}
      (read : parseWrittenMember leading name text = .ok (member, finish)) :
      ∃ run,
        text = run ++ finish.1 ∧ member = .written ⟨name, run, leading, []⟩ ∧
        IsRun run finish.1 := isRun_of_parseWrittenMember read
  simp only at found
  split at found
  · next colon =>
      subst colon
      split at found
      · contradiction
      next start second =>
      have bound : start.length < text.length :=
        Nat.lt_of_le_of_lt (skipTrivia_suffix second).length_le
          (Nat.lt_of_lt_of_le (skipTrivia_suffix began).length_le
            keyEnd.length_le)
      split at found
      · contradiction
      next value place read =>
      cases found
      have read := readsValue_of_parseValue read
      obtain ⟨behind, split, -, closed, first⟩ :=
        begins_of_skipTrivia second read.ne_nil
      rw [split] at key behindKey
      have separator : keyEnd.1.upTo start = before ++ ':' :: behind :=
        upTo_of_eq_append (by rw [behindKey]; simp)
      rw [separator]
      exact .property key complete closed first read
  split at found
  · next opener =>
      obtain ⟨run, split, rfl, isRun⟩ := written found
      rw [split] at key
      have read : ReadsMember leading _ _ _ :=
        .method key complete (by simpa using opener) isRun
      rwa [← split] at read
  split at found
  · next delimiter =>
      cases found
      obtain ⟨raw, split⟩ := finish.2
      have taken : text.upTo finish.1 = raw := upTo_of_eq_append split.symm
      rw [← split, ← behindKey] at key
      have read : ReadsMember leading _ _ _ :=
        .shorthand key began (by simpa using delimiter)
      rwa [split, ← taken] at read
  split at found
  · next modifier =>
      split at found
      · next name others named =>
          obtain ⟨run, split, rfl, isRun⟩ := written found
          have joined := scanIdentifier?_append named
          rw [← joined] at key token named
          rw [split] at key
          have read : ReadsMember leading _ _ _ :=
            .modified key complete token named modifier isRun
          rwa [← split] at read
      · contradiction
  · contradiction
termination_by 8 * text.length + 4

end

end ConfigEdit
