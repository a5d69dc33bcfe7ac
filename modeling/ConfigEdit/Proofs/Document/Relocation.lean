import ConfigEdit.Proofs.Document.Source
import ConfigEdit.Proofs.Document.Tracks

/-!
# Reading in front of another text

What has been read from a text is read again in front of any other text that
ends an expression, as long as no call and no expression that is kept as it is
written has an opening angle bracket in it.  Such a bracket makes the reader
look for type arguments, and where these end depends on what follows.
-/

namespace ConfigEdit

theorem TracksTo.joins {typed : Prop} {body rest : Text}
    (tracks : TracksTo typed (body ++ rest) rest) :
    body ≠ [] ∧ Joins body rest := by
  obtain ⟨run, split, more, joins, -⟩ := tracks
  rw [List.append_cancel_right split]
  exact ⟨more, joins⟩

/-- Behind trivia, a closer or a separator ends an expression. -/
theorem Stops.of_trivia
    {trivia rest : Text} {character : Char} (complete : Trivia trivia)
    (ends : isCloser character = true ∨ isSeparator character = true) :
    Stops (trivia ++ character :: rest) :=
  .inr ⟨character, rest,
    complete.skipTrivia_eq (beginsToken_of_notGap (notGap_of_ends ends) rest),
    ends⟩

/-- A member of an object literal ends here: behind trivia a comma or the
closing brace follows. -/
def EndsMember (text : Text) : Prop :=
  ∃ delimiter others, skipTrivia text = .ok (delimiter :: others) ∧
    (delimiter = ',' ∨ delimiter = '}')

theorem EndsMember.stops {text : Text} (ends : EndsMember text) :
    Stops text := by
  obtain ⟨delimiter, others, found, rfl | rfl⟩ := ends
  · exact .inr ⟨_, _, found, .inr rfl⟩
  · exact .inr ⟨_, _, found, .inl rfl⟩

theorem EndsMember.of_trivia {trivia rest : Text} {delimiter : Char}
    (complete : Trivia trivia) (delimits : delimiter = ',' ∨ delimiter = '}') :
    EndsMember (trivia ++ delimiter :: rest) := by
  refine ⟨delimiter, rest, complete.skipTrivia_eq ?_, delimits⟩
  rcases delimits with rfl | rfl <;>
    exact skipTrivia_token (by decide) (by decide) _

theorem BeginsToken.congr_right {left right other : Text}
    (begins : BeginsToken (left ++ right)) (more : left ≠ [])
    (joins : Joins left other) : BeginsToken (left ++ other) := by
  cases left with
  | nil => contradiction
  | cons first rest =>
      have notGap := begins.not_gap
      by_cases slash : first = '/'
      · subst slash
        obtain ⟨notLine, notBlock⟩ := begins.after_slash
        cases rest with
        | nil =>
            obtain ⟨notLine, notBlock⟩ := joins rfl
            exact skipTrivia_slash notLine notBlock
        | cons second others => exact skipTrivia_slash notLine notBlock
      · exact skipTrivia_token notGap slash _

theorem Begins.congr_right {closer : Char} {left right other : Text}
    (begins : Begins closer (left ++ right)) (more : left ≠ [])
    (joins : Joins left other) :
    Begins closer (left ++ other) := by
  refine ⟨begins.token.congr_right more joins, by simp [more], ?_⟩
  have different := begins.different
  rw [List.head?_append_of_ne_nil _ more] at different ⊢
  exact different

theorem ReadsKey.congr_right {word rest other : Text} {key : Key}
    (reads : ReadsKey (word ++ rest) key rest)
    (ends : other.head? = rest.head? ∨ BeginsAtBoundary other) :
    ReadsKey (word ++ other) key other := by
  have endsAt {continues : Char → Bool} (stopped : EndsAt continues rest)
      (boundary : BeginsAtBoundary other → EndsAt continues other) :
      EndsAt continues other := by
    rcases ends with same | begins
    · intro character head
      rw [same] at head
      exact stopped character head
    · exact boundary begins
  generalize whole : word ++ rest = text at reads
  cases reads with
  | @quoted mark body rest quotes closes =>
      have same : word ++ rest = mark :: (body ++ [mark]) ++ rest := by
        simp [whole]
      have read : ReadsKey (mark :: (body ++ mark :: other)) _ other :=
        .quoted quotes closes
      simpa [List.append_cancel_right same] using read
  | numeric digit all stopped =>
      rw [List.append_cancel_right whole]
      exact .numeric digit all (endsAt stopped BeginsAtBoundary.endsAt_numeric)
  | word starts all stopped =>
      rw [List.append_cancel_right whole]
      exact .word starts all (endsAt stopped BeginsAtBoundary.endsAt_part)

theorem IsRun.congr_right {run rest other : Text} (isRun : IsRun run rest)
    (stops : Stops other) (joins : Joins run other) : IsRun run other :=
  ⟨isRun.more, isRun.passes, joins, stops⟩

/-- The first token of a run is the same before every text that ends an
expression. -/
theorem IsRun.exists_token {run rest : Text} (isRun : IsRun run rest) :
    ∃ first others, first ∈ run ∧ ∀ other, Joins run other →
      skipTrivia (run ++ other) = .ok (first :: (others ++ other)) := by
  obtain ⟨more, passes, joins, stops⟩ := isRun
  cases passes with
  | nil => contradiction
  | @cons _ between _ trivia token after complete step next run =>
      obtain ⟨first, others, rfl⟩ := List.exists_cons_of_ne_nil step.ne_nil
      refine ⟨first, others ++ after, by simp, fun other joined => ?_⟩
      have tokenJoins := (next.of_append joined step.ne_nil).1
      have found := complete.skipTrivia_eq (step.beginsToken tokenJoins)
      simpa using found

theorem NoCall.of_stops {text : Text} (stops : Stops text) : NoCall text := by
  rcases stops with ended | ⟨character, rest, found, ends⟩
  · exact .plain ended (by simp) (by simp)
  · have different : character ≠ '<' ∧ character ≠ '(' := by
      rcases ends with closes | separates
      · rcases mem_of_isCloser closes with rfl | rfl | rfl <;> decide
      · rcases mem_of_isSeparator separates with rfl | rfl <;> decide
    exact .plain found (by simp [different.1]) (by simp [different.2])

/-- Without an opening angle bracket, the first token tells that nothing is
called. -/
theorem NoCall.congr_right
    {run rest other : Text} (noCall : NoCall (run ++ rest))
    (isRun : IsRun run rest) (plain : '<' ∉ run) (joins : Joins run other) :
    NoCall (run ++ other) := by
  obtain ⟨first, others, inside, found⟩ := isRun.exists_token
  have notAngle : first ≠ '<' := by
    rintro rfl
    exact plain inside
  have began := found rest isRun.joins
  have notCall : first ≠ '(' := by
    cases noCall with
    | plain also _ notCall =>
        rw [began] at also
        cases also
        simpa using notCall
    | unbalanced also opens | typed also opens =>
        rw [began] at also
        cases also
        exact absurd (by simpa using opens) notAngle
  exact .plain (found other joins) (by simp [notAngle]) (by simp [notCall])

/-- No node begins with a run before any text that ends an expression. -/
theorem NoNode.congr_right
    {run rest other : Text} (noNode : NoNode (run ++ rest))
    (isRun : IsRun run rest) (plain : '<' ∉ run) (stops : Stops other)
    (joins : Joins run other) : NoNode (run ++ other) := by
  generalize whole : run ++ rest = text at noNode
  obtain ⟨first, others, rfl⟩ := List.exists_cons_of_ne_nil isRun.more
  cases noNode with
  | other notBrace notQuotes notNumber notStart =>
      cases whole
      exact .other notBrace notQuotes notNumber notStart
  | number starts notNumeral also =>
      obtain ⟨same, -⟩ := isRun.unique also whole
      rw [same] at isRun joins ⊢
      exact .number starts notNumeral (isRun.congr_right stops joins)
  | @word first' path after starts complete ends noWord noCall =>
      have word := isPlain_of_word starts complete
      obtain ⟨left, same, rfl, passes, joined⟩ :=
        isRun.split_at whole (.of_plain word)
          (.of_getLast? (getLast?_ne_slash word))
      rw [same, List.append_assoc]
      refine .word starts complete ?_ noWord ?_
      · by_cases empty : left = []
        · subst empty
          exact stops.beginsAtBoundary.endsWord
        · exact ends.congr_right empty stops.beginsAtBoundary.endsAt_part
      · by_cases empty : left = []
        · subst empty
          exact .of_stops stops
        · rw [same] at joins plain
          exact noCall.congr_right ⟨empty, passes, joined, isRun.stops⟩
            (fun inside => plain (List.mem_append_right _ inside))
            (joins.of_append_left empty)

theorem GoesOn.congr_right {run rest other : Text}
    (goesOn : GoesOn (run ++ rest)) (isRun : IsRun run rest)
    (joins : Joins run other) : GoesOn (run ++ other) := by
  obtain ⟨first, others, -, found⟩ := isRun.exists_token
  obtain ⟨character, after, began, notSeparator, notCloser⟩ := goesOn
  rw [found rest isRun.joins] at began
  cases began
  exact ⟨_, _, found other joins, notSeparator, notCloser⟩

theorem scanIdentifier?_eq_some {text name rest : Text}
    (found : scanIdentifier? text = some (name, rest)) :
    ∃ first others, name = first :: others ∧ isIdentifierStart first = true ∧
      others.all isIdentifierPart = true ∧ EndsAt isIdentifierPart rest := by
  cases text with
  | nil => simp [scanIdentifier?] at found
  | cons first others =>
      rw [scanIdentifier?] at found
      split at found
      · next starts =>
          cases found
          obtain ⟨left, right, -, all, ends, taken, dropped⟩ :=
            exists_endsAt isIdentifierPart others
          exact ⟨first, _, rfl, starts,
            by rw [taken]; exact all, by rw [dropped]; exact ends⟩
      · contradiction

theorem scanIdentifier?_congr_right {name rest other : Text}
    (found : scanIdentifier? (name ++ rest) = some (name, rest))
    (ends : EndsAt isIdentifierPart other) :
    scanIdentifier? (name ++ other) = some (name, other) := by
  obtain ⟨first, others, rfl, starts, all, -⟩ := scanIdentifier?_eq_some found
  rw [List.cons_append, scanIdentifier?, if_pos starts,
    takeWhile_append_of_endsAt all ends, dropWhile_append_of_endsAt all ends]

mutual

theorem Expr.mem_source_of_angled
    {value : Expr} (angled : value.angled = true) :
    '<' ∈ value.source := by
  match value with
  | .object ⟨members, close, comma⟩ =>
      have inside := Member.mem_sources_of_anyAngled angled []
      simp [Expr.source, inside]
  | .call ⟨callee, args, close, comma⟩ =>
      rw [Expr.angled, Bool.or_eq_true] at angled
      rcases angled with found | further
      · simp only [List.contains_eq_mem, decide_eq_true_eq] at found
        simp [Expr.source, found]
      · have inside := Argument.mem_sources_of_anyAngled further []
        simp [Expr.source, inside]
  | .verbatim text => simpa [Expr.angled, Expr.source] using angled
  | .number _ | .string _ _ | .boolean _ => simp [Expr.angled] at angled

theorem Member.mem_sources_of_anyAngled {members : List Member}
    (angled : Member.anyAngled members = true) (between : Text) :
    '<' ∈ Member.sources between members := by
  match members with
  | [] => simp [Member.anyAngled] at angled
  | .property ⟨key, value, layout⟩ :: others =>
      rw [Member.anyAngled, Bool.or_eq_true] at angled
      rcases angled with found | further
      · have inside := Expr.mem_source_of_angled found
        simp [Member.sources, Member.body, inside]
      · have inside := Member.mem_sources_of_anyAngled further [',']
        simp [Member.sources, inside]
  | .written _ :: others =>
      rw [Member.anyAngled] at angled
      have inside := Member.mem_sources_of_anyAngled angled [',']
      simp [Member.sources, inside]

theorem Argument.mem_sources_of_anyAngled {args : List Argument}
    (angled : Argument.anyAngled args = true) (between : Text) :
    '<' ∈ Argument.sources between args := by
  match args with
  | [] => simp [Argument.anyAngled] at angled
  | ⟨leading, value, trailing⟩ :: others =>
      rw [Argument.anyAngled, Bool.or_eq_true] at angled
      rcases angled with found | further
      · have inside := Expr.mem_source_of_angled found
        simp [Argument.sources, inside]
      · have inside := Argument.mem_sources_of_anyAngled further [',']
        simp [Argument.sources, inside]

end

theorem ReadsMember.method_congr_right
    {leading run before others rest other : Text} {key : Key} {opener : Char}
    (readsKey : ReadsKey (run ++ rest) key (before ++ opener :: others))
    (first : Trivia before) (opens : opener = '(' ∨ opener = '<')
    (isRun : IsRun run rest) (stops : Stops other) (joins : Joins run other) :
    ReadsMember leading (run ++ other)
      (.written ⟨some key.name, run, leading, []⟩) other := by
  obtain ⟨word, split, more, notSlash, runs⟩ := readsKey.exists_run
  obtain ⟨behind, step⟩ : ∃ behind, Token [] [opener] behind := by
    rcases opens with rfl | rfl
    · exact ⟨_, .opener rfl⟩
    · exact ⟨_, .plain (by decide)⟩
  have passed : Runs [] (word ++ (before ++ [opener])) behind :=
    (runs []).append (.single first step) (.of_getLast? notSlash)
  have whole : run ++ rest = word ++ (before ++ [opener]) ++ others := by
    simp [split]
  have last : (word ++ (before ++ [opener])).getLast? = some opener := by simp
  obtain ⟨left, same, rfl, -⟩ := isRun.split_at whole passed
    (.of_last last (by rcases opens with rfl | rfl <;> decide))
  rw [split] at readsKey
  have key : ReadsKey (word ++ (before ++ opener :: (left ++ other))) key
      (before ++ opener :: (left ++ other)) :=
    readsKey.congr_right (.inl (by cases before <;> rfl))
  have shape : word ++ (before ++ opener :: (left ++ other)) =
      run ++ other := by simp [same]
  rw [shape] at key
  exact .method key first opens (isRun.congr_right stops joins)

theorem ReadsMember.modified_congr_right
    {leading run before name others rest other : Text} {key : Key}
    (readsKey : ReadsKey (run ++ rest) key (before ++ (name ++ others)))
    (first : Trivia before) (begins : BeginsToken (name ++ others))
    (named : scanIdentifier? (name ++ others) = some (name, others))
    (modifier : isMethodModifier key.name = true) (isRun : IsRun run rest)
    (stops : Stops other) (joins : Joins run other) :
    ReadsMember leading (run ++ other) (.written ⟨some name, run, leading, []⟩)
      other := by
  obtain ⟨word, split, more, notSlash, runs⟩ := readsKey.exists_run
  obtain ⟨initial, parts, shape, starts, all, ended⟩ :=
    scanIdentifier?_eq_some named
  have some : name ≠ [] := by simp [shape]
  have plain :
      ∀ character ∈ name, isPlain character = true ∧ character ≠ '/' := by
    rw [shape]
    exact isPlain_of_parts starts all
  have passed : Runs [] (word ++ (before ++ name)) [] :=
    (runs []).append (.trivia_append first (.of_plain plain) some)
      (.of_getLast? notSlash)
  have whole : run ++ rest = word ++ (before ++ name) ++ others := by
    simp [split]
  have last : (word ++ (before ++ name)).getLast? ≠ .some '/' := by
    rw [← List.append_assoc, List.getLast?_append_of_ne_nil _ some]
    exact getLast?_ne_slash plain
  obtain ⟨left, same, rfl, passes, joined⟩ :=
    isRun.split_at whole passed (.of_getLast? last)
  have ends : EndsAt isIdentifierPart (left ++ other) := by
    cases left with
    | nil => exact stops.beginsAtBoundary.endsAt_part
    | cons character left => exact ended
  rw [split] at readsKey
  have key : ReadsKey (word ++ (before ++ (name ++ (left ++ other)))) key
      (before ++ (name ++ (left ++ other))) :=
    readsKey.congr_right (.inl (by cases before <;> simp [shape]))
  have whole' : word ++ (before ++ (name ++ (left ++ other))) =
      run ++ other := by simp [same]
  rw [whole'] at key
  exact .modified key first
    (begins.congr_right some (.of_getLast? (getLast?_ne_slash plain)))
    (scanIdentifier?_congr_right named ends) modifier
    (isRun.congr_right stops joins)

mutual

/-- What is read as an expression is read in front of another text. -/
theorem ReadsValue.relocates {strict : Bool} {text rest : Text} {value : Expr}
    (reads : ReadsValue strict text value rest) (plain : value.angled = false) :
    ∃ body, text = body ++ rest ∧ ∀ other, Stops other → Joins body other →
      ReadsValue strict (body ++ other) value other := by
  match reads with
  | .node node _ =>
      obtain ⟨body, split, relocates⟩ := node.relocates plain
      refine ⟨body, split,
        fun other stops joins => .node (relocates other ?_ ?_) fun _ => stops⟩
      · exact fun _ _ _ => stops.beginsAtBoundary.endsWord
      · exact fun _ _ _ => ⟨stops, joins⟩
  | @ReadsValue.beyond run other rest value node goesOn isRun =>
      have noAngle : '<' ∉ run := by simpa [Expr.angled] using plain
      have induction :=
        fun notAngled : value.angled = false => node.relocates notAngled
      refine ⟨run, rfl, fun next stops joins => ?_⟩
      obtain ⟨inside, left, split, rfl, further⟩ :=
        isRun.split_at_node noAngle node goesOn
      have leftJoins : Joins left next := by
        rw [split] at joins
        exact joins.of_append_left further.more
      have notAngled : value.angled = false := by
        obtain ⟨-, same⟩ := node.split
        rw [← List.append_assoc] at same
        have whole := List.append_cancel_right same
        cases angled : value.angled with
        | false => rfl
        | true =>
            rw [whole] at noAngle
            exact absurd (List.mem_append_left _
              (Expr.mem_source_of_angled angled)) noAngle
      obtain ⟨body, same, relocates⟩ := induction notAngled
      rw [← List.append_assoc] at same
      have whole : run = body ++ left := List.append_cancel_right same
      have read := relocates (left ++ next) ?_ ?_
      · rw [← List.append_assoc, ← whole] at read
        exact .beyond read (goesOn.congr_right further leftJoins)
          (isRun.congr_right stops joins)
      · exact fun _ _ ends =>
          ends.congr_right further.more stops.beginsAtBoundary.endsAt_part
      · intro _ _ ended
        obtain ⟨character, others, found, notSeparator, notCloser⟩ := goesOn
        rcases ended.ends found with closes | separates
        · simp [closes] at notCloser
        · simp [separates] at notSeparator
  | @ReadsValue.verbatim strict run rest noNode isRun =>
      have noAngle : '<' ∉ run := by simpa [Expr.angled] using plain
      exact ⟨run, rfl, fun next stops joins =>
        .verbatim (noNode.congr_right isRun noAngle stops joins)
          (isRun.congr_right stops joins)⟩

theorem ReadsNode.relocates {text rest : Text} {value : Expr}
    (reads : ReadsNode text value rest) (plain : value.angled = false) :
    ∃ body, text = body ++ rest ∧ ∀ other,
      (∀ truth, value = .boolean truth → EndsWord rest → EndsWord other) →
      (∀ run,
        value = .number run → Stops rest → Stops other ∧ Joins body other) →
      ReadsNode (body ++ other) value other := by
  match reads with
  | @ReadsNode.object text rest literal members =>
      obtain ⟨body, rfl, relocates⟩ :=
        members.relocates (by simpa [Expr.angled_object] using plain)
      exact ⟨'{' :: body, rfl, fun other _ _ => .object (relocates other)⟩
  | @ReadsNode.string mark body rest quotes closes =>
      refine ⟨mark :: (body ++ [mark]), by simp, fun other _ _ => ?_⟩
      have read : ReadsNode (mark :: (body ++ mark :: other)) _ other :=
        .string quotes closes
      simpa using read
  | @ReadsNode.number run rest numeral isRun =>
      refine ⟨run, rfl, fun other _ further => ?_⟩
      obtain ⟨stops, joins⟩ := further run rfl isRun.stops
      exact .number numeral (isRun.congr_right stops joins)
  | @ReadsNode.boolean value rest ends =>
      exact ⟨truthWord value, rfl,
        fun other further _ => .boolean (further value rfl ends)⟩
  | @ReadsNode.call first path opening inner rest call starts complete ends
        noWord opens args =>
      have callee := args.split.2.1
      rw [Expr.angled_call, Bool.or_eq_false_iff] at plain
      obtain ⟨body, rfl, relocates⟩ := args.relocates plain.2
      refine ⟨first :: path ++ (opening ++ '(' :: body),
        by simp, fun other _ _ => ?_⟩
      have read := relocates other
      cases opens with
      | plain blank =>
          have noWord' : EndsWord (opening ++ '(' :: (body ++ other)) := by
            cases opening with
            | nil => exact endsWord_of_head _ (by decide) (by decide)
            | cons character others =>
                exact (blank.beginsAtBoundary.append
                  (List.cons_ne_nil _ _)).endsWord
          have whole :=
            ReadsNode.call starts complete noWord' noWord (.plain blank) read
          simpa using whole
      | @typed before types behind blank angle closes closed =>
          -- The bracket of type arguments would stand in the callee.
          rw [callee] at plain
          cases types with
          | nil => simp at angle
          | cons character others =>
              cases angle
              simp at plain

theorem ReadsArguments.relocates {callee text rest : Text} {afterComma : Bool}
    {call : Call} (reads : ReadsArguments callee afterComma text call rest)
    (plain : Argument.anyAngled call.args = false) :
    ∃ body, text = body ++ rest ∧ ∀ other,
      ReadsArguments callee afterComma (body ++ other) call other := by
  match reads with
  | @ReadsArguments.close _ close rest _ complete =>
      refine ⟨close ++ [')'], by simp, fun other => ?_⟩
      have read :
          ReadsArguments callee afterComma (close ++ ')' :: other) _ other :=
        .close complete
      simpa using read
  | @ReadsArguments.last _ leading text trailing rest _ value complete begins
        reads closed =>
      obtain ⟨body, rfl, relocates⟩ :=
        reads.relocates (by simpa [Argument.anyAngled] using plain)
      obtain ⟨more, joins⟩ := reads.tracksTo.joins
      refine ⟨leading ++ (body ++ (trailing ++ [')'])),
        by simp, fun other => ?_⟩
      have joined : Joins body (trailing ++ ')' :: other) :=
        joins.congr (by cases trailing <;> rfl)
      have read := relocates _ (.of_trivia closed (.inl rfl)) joined
      have whole : ReadsArguments callee afterComma _ _ other :=
        .last complete (begins.congr_right more joined) read closed
      simpa using whole
  | @ReadsArguments.more _ leading text trailing others rest _ value call
        complete begins reads closed further =>
      simp only [Argument.anyAngled, Bool.or_eq_false_iff] at plain
      have first := reads.relocates plain.1
      have second := further.relocates plain.2
      obtain ⟨next, rfl, continues⟩ := second
      obtain ⟨body, rfl, relocates⟩ := first
      obtain ⟨more, joins⟩ := reads.tracksTo.joins
      refine ⟨leading ++ (body ++ (trailing ++ ',' :: next)),
        by simp, fun other => ?_⟩
      have joined : Joins body (trailing ++ ',' :: (next ++ other)) :=
        joins.congr (by cases trailing <;> rfl)
      have read := relocates _ (.of_trivia closed (.inr rfl)) joined
      have whole : ReadsArguments callee afterComma _ _ other :=
        .more complete (begins.congr_right more joined) read closed
          (continues other)
      simpa using whole

theorem ReadsMembers.relocates
    {text rest : Text} {afterComma : Bool} {literal : ObjectLiteral}
    (reads : ReadsMembers afterComma text literal rest)
    (plain : Member.anyAngled literal.members = false) :
    ∃ body, text = body ++ rest ∧ ∀ other,
      ReadsMembers afterComma (body ++ other) literal other := by
  match reads with
  | @ReadsMembers.close close rest _ complete =>
      refine ⟨close ++ ['}'], by simp, fun other => ?_⟩
      have read : ReadsMembers afterComma (close ++ '}' :: other) _ other :=
        .close complete
      simpa using read
  | @ReadsMembers.last leading text trailing rest _ member complete begins reads
        closed =>
      obtain ⟨body, rfl, relocates⟩ := reads.relocates plain
      obtain ⟨more, joins⟩ := reads.tracksTo.joins
      refine ⟨leading ++ (body ++ (trailing ++ ['}'])),
        by simp, fun other => ?_⟩
      have joined : Joins body (trailing ++ '}' :: other) :=
        joins.congr (by cases trailing <;> rfl)
      have read := relocates _ (.of_trivia closed (.inr rfl)) joined
      have whole : ReadsMembers afterComma _ _ other :=
        .last complete (begins.congr_right more joined) read closed
      simpa using whole
  | @ReadsMembers.more leading text trailing others rest _ member literal
        complete begins reads closed further =>
      rw [Member.anyAngled_withTrailing, Member.anyAngled_cons,
        Bool.or_eq_false_iff] at plain
      have first := reads.relocates plain.1
      have second := further.relocates plain.2
      obtain ⟨next, rfl, continues⟩ := second
      obtain ⟨body, rfl, relocates⟩ := first
      obtain ⟨more, joins⟩ := reads.tracksTo.joins
      refine ⟨leading ++ (body ++ (trailing ++ ',' :: next)),
        by simp, fun other => ?_⟩
      have joined : Joins body (trailing ++ ',' :: (next ++ other)) :=
        joins.congr (by cases trailing <;> rfl)
      have read := relocates _ (.of_trivia closed (.inl rfl)) joined
      have whole : ReadsMembers afterComma _ _ other :=
        .more complete (begins.congr_right more joined) read closed
          (continues other)
      simpa using whole

theorem ReadsMember.relocates {leading text rest : Text} {member : Member}
    (reads : ReadsMember leading text member rest)
    (plain : Member.anyAngled [member] = false) :
    ∃ body, text = body ++ rest ∧ ∀ other, EndsMember other → Joins body other →
      ReadsMember leading (body ++ other) member other := by
  match reads with
  | @ReadsMember.property _ text before behind inner rest key value readsKey
        first second begins reads =>
      obtain ⟨body, rfl, relocates⟩ :=
        reads.relocates (by simpa [Member.anyAngled] using plain)
      obtain ⟨more, -⟩ := reads.tracksTo.joins
      obtain ⟨word, rfl, -⟩ := readsKey.exists_run
      refine ⟨word ++ (before ++ ':' :: (behind ++ body)),
        by simp, fun other ends joins => ?_⟩
      have joined : Joins body other := by
        simp only [← List.append_assoc, ← List.cons_append] at joins
        exact joins.of_append_left more
      have key :
          ReadsKey (word ++ (before ++ ':' :: (behind ++ (body ++ other)))) _
            (before ++ ':' :: (behind ++ (body ++ other))) :=
        readsKey.congr_right (.inl (by cases before <;> rfl))
      have read : ReadsMember leading _ _ other :=
        .property key first second (begins.congr_right more joined)
          (relocates other ends.stops joined)
      simpa using read
  | @ReadsMember.method _ run before others rest key opener readsKey first opens
        isRun =>
      exact ⟨run, rfl, fun other ends joins =>
        ReadsMember.method_congr_right readsKey first opens isRun ends.stops
          joins⟩
  | @ReadsMember.shorthand _ raw rest others key delimiter readsKey found
        delimits =>
      refine ⟨raw, rfl, fun other ends joins => ?_⟩
      have boundary := ends.stops.beginsAtBoundary
      obtain ⟨delimiter', others', found', delimits'⟩ := ends
      exact .shorthand (readsKey.congr_right (.inr boundary)) found' delimits'
  | @ReadsMember.modified _ run before name others rest key readsKey
        first begins named modifier isRun =>
      exact ⟨run, rfl, fun other ends joins =>
        ReadsMember.modified_congr_right readsKey first begins named modifier
          isRun ends.stops joins⟩
  | @ReadsMember.unnamed _ run rest noKey isRun =>
      refine ⟨run, rfl, fun other ends joins =>
        .unnamed ?_ (isRun.congr_right ends.stops joins)⟩
      intro character head
      rw [List.head?_append_of_ne_nil _ isRun.more] at head
      exact noKey character
        (by rw [List.head?_append_of_ne_nil _ isRun.more]; exact head)

end

/-- What is read as an expression is a run, unless it is angled. -/
theorem ReadsValue.isRun_source {text rest : Text} {value : Expr}
    (reads : ReadsValue true text value rest) (plain : value.angled = false) :
    IsRun value.source rest := by
  obtain ⟨run, whole, more, joins, tracks⟩ := reads.tracksTo
  have same : run = value.source :=
    List.append_cancel_right (whole.symm.trans reads.split.2)
  subst same
  have stops : Stops rest := by
    cases reads with
    | node _ stops => exact stops rfl
    | beyond _ _ isRun => exact isRun.stops
    | verbatim _ isRun => exact isRun.stops
  rcases tracks [] with runs | ⟨angled, -⟩
  · exact ⟨more, runs, joins, stops⟩
  · simp [plain] at angled

end ConfigEdit
