import ConfigEdit.Proofs.Document.Lossless
import ConfigEdit.Proofs.Document.Relocation

/-!
# Expressions kept as they are written

The reader looks for a node at the beginning of an expression before it keeps
the expression as it is written, and it does not come back from a fault that it
meets there.  `Readable` says that it meets none.  Its rules cut a text where
the walk over expressions cuts it: the items of a list are runs, and only what
begins a run is looked into.

A run that is readable is read (`Readable.exists_readsValue`), and what is read
as a value without type arguments is readable (`ReadsValue.readable`).
`Expr.parse_fallback` puts both together for an expression that begins with a
name and is no call.
-/

namespace ConfigEdit

mutual

/-- The reader gets through what it looks for at the beginning of an
expression. -/
inductive Readable : Text → Prop where
  | other {first : Char} {rest : Text} :
      first ≠ '{' → isIdentifierStart first = false → Readable (first :: rest)
  | boolean {truth : Bool} {rest : Text} :
      EndsWord rest → Readable (truthWord truth ++ rest)
  | name {first : Char} {path rest : Text} :
      isIdentifierStart first = true → identifierPathEnd path = [] →
      EndsWord rest →
      (∀ truth, first :: path ≠ truthWord truth) → NoCall rest →
      Readable (first :: path ++ rest)
  | object {inner rest : Text} :
      ReadableItems '}' inner rest → Readable ('{' :: inner)
  | call {first : Char} {path opening inner rest : Text} :
      isIdentifierStart first = true → identifierPathEnd path = [] →
      EndsWord (opening ++ '(' :: inner) →
      (∀ truth, first :: path ≠ truthWord truth) →
      CallOpening opening → Runs [] (opening ++ ['(']) [')'] →
      ReadableItems ')' inner rest →
      Readable (first :: path ++ (opening ++ '(' :: inner))

/-- Arguments or members with commas between them and their closer behind them,
each of which the reader gets through. -/
inductive ReadableItems : Char → Text → Text → Prop where
  | close {closer : Char} {close rest : Text} :
      Trivia close → ReadableItems closer (close ++ closer :: rest) rest
  | last {closer : Char} {leading text trailing rest : Text} :
      Trivia leading → Begins closer text →
      ReadableItem closer leading text (trailing ++ closer :: rest) →
      Trivia trailing →
      ReadableItems closer (leading ++ text) rest
  | more {closer : Char} {leading text trailing others rest : Text} :
      Trivia leading → Begins closer text →
      ReadableItem closer leading text (trailing ++ ',' :: others) →
      Trivia trailing →
      ReadableItems closer others rest →
      ReadableItems closer (leading ++ text) rest

/-- An argument, or a member, that the reader gets through. -/
inductive ReadableItem : Char → Text → Text → Text → Prop where
  | argument {leading run rest : Text} :
      Readable (run ++ rest) → IsRun run rest →
      ReadableItem ')' leading (run ++ rest) rest
  | property {leading text before behind run rest : Text} {key : Key} :
      ReadsKey text key (before ++ ':' :: (behind ++ (run ++ rest))) →
      Trivia before → Trivia behind → BeginsToken (run ++ rest) →
      Readable (run ++ rest) → IsRun run rest →
      ReadableItem '}' leading text rest
  | written {leading text rest : Text} {member : WrittenMember} :
      ReadsMember leading text (.written member) rest →
      ReadableItem '}' leading text rest

end

theorem IsRun.goesOn {run rest : Text} (isRun : IsRun run rest) :
    GoesOn (run ++ rest) := by
  obtain ⟨first, others, -, found⟩ := isRun.exists_token
  have began := found rest isRun.joins
  have notEnd : ¬(isCloser first = true ∨ isSeparator first = true) := by
    intro ends
    have here := flatEnd?_of_stops (.inr ⟨first, _, began, ends⟩)
    rw [isRun.passes.flatEnd?_of_stops isRun.joins isRun.stops,
      Option.some.injEq] at here
    exact isRun.more (by simpa using here)
  simp only [not_or, Bool.not_eq_true] at notEnd
  exact ⟨first, _, began, notEnd.2, notEnd.1⟩

/-- A node that is a part of a run is the run, or the run goes on behind it. -/
theorem IsRun.exists_readsValue {run rest after : Text} {value : Expr}
    (isRun : IsRun run rest) (reads : ReadsNode (run ++ rest) value after)
    (tracks : TracksTo False (run ++ rest) after) :
    ∃ value, ReadsValue true (run ++ rest) value rest := by
  obtain ⟨node, split, -, joins, passes⟩ := tracks
  have runs : Runs [] node [] := (passes []).resolve_right And.left
  obtain ⟨left, rfl, rfl, further, joined⟩ := isRun.split_at split runs joins
  by_cases ended : left = []
  · subst ended
    exact ⟨value, .node reads fun _ => isRun.stops⟩
  · have beyond : IsRun left rest := ⟨ended, further, joined, isRun.stops⟩
    exact ⟨_, .beyond reads beyond.goesOn isRun⟩

theorem IsRun.exists_closesString {run rest others : Text} {mark : Char}
    (isRun : IsRun run rest) (quotes : isQuotationMark mark = true)
    (shape : run ++ rest = mark :: others) :
    ∃ body after, run ++ rest = mark :: (body ++ mark :: after) ∧
      ClosesString mark body := by
  have walked := isRun.passes.flatEnd?_of_stops isRun.joins isRun.stops
  have token : skipTrivia (mark :: others) = .ok (mark :: others) :=
    beginsToken_of_notGap (notGap_of_isQuotationMark quotes) others
  have opens : closerOf? mark = none ∧ isCloser mark = false ∧
      isSeparator mark = false := by
    rcases mem_of_isQuotationMark quotes with rfl | rfl <;> decide
  rw [shape, flatEnd?_eq] at walked
  simp only [token, opens.1, opens.2.1, opens.2.2, quotes, if_true,
    Bool.false_eq_true, if_false, false_and] at walked
  obtain ⟨after, ended, -⟩ := Option.bind_eq_some_iff.1 walked
  obtain ⟨-, body, rfl, closes⟩ := skipString_eq_ok (eq_ok_of_toOption ended)
  exact ⟨body, after, shape, closes⟩

/-- A run that begins neither with a brace nor with a name is read. -/
theorem IsRun.exists_readsValue_of_other {run rest others : Text} {first : Char}
    (isRun : IsRun run rest) (shape : run ++ rest = first :: others)
    (notBrace : first ≠ '{') (notStart : isIdentifierStart first = false) :
    ∃ value, ReadsValue true (run ++ rest) value rest := by
  by_cases quotes : isQuotationMark first = true
  · obtain ⟨body, after, whole, closes⟩ :=
      isRun.exists_closesString quotes shape
    have node := @ReadsNode.string first body after quotes closes
    rw [← whole] at node
    refine isRun.exists_readsValue node (node.tracksTo.mono fun angled => ?_)
    simp [Expr.angled] at angled
  · by_cases number : (first.isDigit || first = '.' || first = '-') = true
    · obtain ⟨character, inside, rfl⟩ := List.exists_cons_of_ne_nil isRun.more
      obtain ⟨rfl, -⟩ := List.cons.inj shape
      by_cases numeral : Text.isNumeral (character :: inside) = true
      · exact ⟨_, .node (.number numeral isRun) fun _ => isRun.stops⟩
      · exact ⟨_,
          .verbatim (.number number (by simpa using numeral) isRun) isRun⟩
    · have noNode : NoNode (run ++ rest) :=
        shape ▸ .other notBrace (by simpa using quotes)
          (by simpa using number) notStart
      exact ⟨_, .verbatim noNode isRun⟩

theorem ReadableItem.tracksTo {closer : Char} {leading text rest : Text}
    (readable : ReadableItem closer leading text rest) :
    TracksTo False text rest := by
  cases readable with
  | argument _ isRun => exact isRun.tracksTo
  | property reads first second _ _ isRun =>
      exact .property reads first second isRun.tracksTo
  | written reads =>
      exact reads.tracksTo.mono
        fun angled => by simp [Member.anyAngled] at angled

theorem ReadableItems.closesTo {closer : Char} {text rest : Text}
    (readable : ReadableItems closer text rest)
    (closes : isCloser closer = true) :
    ClosesTo False closer text rest := by
  match readable with
  | .close complete => exact .close complete closes
  | .last complete _ item closed =>
      exact .last complete item.tracksTo closed closes
  | .more complete _ item closed others =>
      exact .more complete item.tracksTo closed (others.closesTo closes)

/-- A call whose opening the walk passes is tracked if what is inside its
parentheses is. -/
theorem ClosesTo.call {first : Char} {path opening inner rest : Text}
    (closes : ClosesTo False ')' inner rest)
    (starts : isIdentifierStart first = true)
    (complete : identifierPathEnd path = [])
    (passes : Runs [] (opening ++ ['(']) [')']) :
    TracksTo False (first :: path ++ (opening ++ '(' :: inner)) rest := by
  obtain ⟨inside, rfl, last, tracks⟩ := closes
  have plain := isPlain_of_word starts complete
  have some : inside ≠ [] := by
    rintro rfl
    simp at last
  refine ⟨first :: path ++ ((opening ++ ['(']) ++ inside),
    by simp, by simp, ?_, fun closers => ?_⟩
  · simp only [← List.append_assoc]
    exact (Joins.of_last last (by decide)).append_left some
  · have word : Runs closers (first :: path) closers := .of_plain plain
    have opened : Tracks False closers (opening ++ ['(']) (')' :: closers) :=
      .inl (passes.weaken closers)
    exact Tracks.append (.inl word)
      (opened.append (tracks closers)
        (.of_last List.getLast?_concat (by decide)))
      (.of_getLast? (getLast?_ne_slash plain))

mutual

theorem Readable.exists_readsValue
    {text run rest : Text} (readable : Readable text)
    (shape : text = run ++ rest) (isRun : IsRun run rest) :
    ∃ value, ReadsValue true (run ++ rest) value rest := by
  match readable with
  | .other notBrace notStart =>
      exact isRun.exists_readsValue_of_other shape.symm notBrace notStart
  | @Readable.boolean truth after ends =>
      have node := @ReadsNode.boolean truth after ends
      rw [shape] at node
      refine isRun.exists_readsValue node (node.tracksTo.mono fun angled => ?_)
      simp [Expr.angled] at angled
  | .name starts complete ends noWord noCall =>
      have noNode := NoNode.word starts complete ends noWord noCall
      rw [shape] at noNode
      exact ⟨_, .verbatim noNode isRun⟩
  | .object items =>
      obtain ⟨literal, reads⟩ := items.exists_readsMembers rfl false
      have opens : closerOf? '{' = some '}' := rfl
      have tracks := (items.closesTo rfl).opener opens (by decide)
      have node := ReadsNode.object reads
      rw [shape] at tracks node
      exact isRun.exists_readsValue node tracks
  | @Readable.call first path opening inner after starts complete ends noWord
        opens passes items =>
      obtain ⟨call, reads⟩ :=
        items.exists_readsArguments rfl (first :: path ++ opening) false
      have tracks := (items.closesTo rfl).call starts complete passes
      have node := ReadsNode.call starts complete ends noWord opens reads
      rw [shape] at tracks node
      exact isRun.exists_readsValue node tracks

theorem ReadableItems.exists_readsArguments {closer : Char} {text rest : Text}
    (readable : ReadableItems closer text rest) (ofCall : closer = ')')
    (callee : Text) (afterComma : Bool) :
    ∃ call, ReadsArguments callee afterComma text call rest := by
  match readable with
  | .close complete =>
      subst ofCall
      exact ⟨_, .close complete⟩
  | .last complete begins item closed =>
      obtain ⟨value, reads⟩ := item.exists_readsValue ofCall
      subst ofCall
      exact ⟨_, .last complete begins reads closed⟩
  | .more complete begins item closed others =>
      obtain ⟨value, reads⟩ := item.exists_readsValue ofCall
      obtain ⟨call, further⟩ := others.exists_readsArguments ofCall callee true
      subst ofCall
      exact ⟨_, .more complete begins reads closed further⟩

theorem ReadableItems.exists_readsMembers {closer : Char} {text rest : Text}
    (readable : ReadableItems closer text rest) (ofObject : closer = '}')
    (afterComma : Bool) :
    ∃ literal, ReadsMembers afterComma text literal rest := by
  match readable with
  | .close complete =>
      subst ofObject
      exact ⟨_, .close complete⟩
  | .last complete begins item closed =>
      obtain ⟨member, reads⟩ := item.exists_readsMember ofObject
      subst ofObject
      exact ⟨_, .last complete begins reads closed⟩
  | .more complete begins item closed others =>
      obtain ⟨member, reads⟩ := item.exists_readsMember ofObject
      obtain ⟨literal, further⟩ := others.exists_readsMembers ofObject true
      subst ofObject
      exact ⟨_, .more complete begins reads closed further⟩

theorem ReadableItem.exists_readsValue
    {closer : Char} {leading text rest : Text}
    (readable : ReadableItem closer leading text rest) (ofCall : closer = ')') :
    ∃ value, ReadsValue true text value rest := by
  match readable with
  | .argument readable isRun => exact readable.exists_readsValue rfl isRun
  | .property .. | .written .. => simp at ofCall

theorem ReadableItem.exists_readsMember
    {closer : Char} {leading text rest : Text}
    (readable : ReadableItem closer leading text rest)
    (ofObject : closer = '}') :
    ∃ member, ReadsMember leading text member rest := by
  match readable with
  | .argument .. => simp at ofObject
  | .property reads first second begins readable isRun =>
      obtain ⟨value, readsValue⟩ := readable.exists_readsValue rfl isRun
      exact ⟨_, .property reads first second begins readsValue⟩
  | .written reads => exact ⟨_, reads⟩

end

theorem IsRun.angled_eq_false_of_node {run rest after : Text} {value : Expr}
    (isRun : IsRun run rest) (plain : '<' ∉ run)
    (reads : ReadsNode (run ++ rest) value after) :
    value.angled = false := by
  rw [Bool.eq_false_iff]
  intro angled
  obtain ⟨left, rfl, -⟩ := isRun.split_node plain reads
  exact plain (List.mem_append_left _ (Expr.mem_source_of_angled angled))

theorem IsRun.angled_eq_false {strict : Bool} {run rest after : Text}
    {value : Expr} (isRun : IsRun run rest) (plain : '<' ∉ run)
    (reads : ReadsValue strict (run ++ rest) value after) :
    value.angled = false := by
  generalize whole : run ++ rest = text at reads
  cases reads with
  | node reads _ => exact isRun.angled_eq_false_of_node plain (whole ▸ reads)
  | beyond _ _ also | verbatim _ also =>
      obtain ⟨rfl, -⟩ := isRun.unique also whole
      simpa [Expr.angled] using plain

theorem notIdentifierStart_of_numberStart {first : Char}
    (starts : (first.isDigit || first = '.' || first = '-') = true) :
    isIdentifierStart first = false := by
  rw [Bool.eq_false_iff]
  intro starts'
  obtain ⟨-, -, -, -, notNumber⟩ := identifierStart_cases starts'
  rw [notNumber] at starts
  contradiction

theorem NoNode.readable {text : Text} (noNode : NoNode text) :
    Readable text := by
  cases noNode with
  | other notBrace _ _ notStart => exact .other notBrace notStart
  | number starts _ _ =>
      obtain ⟨-, -, -, -, notBrace, -⟩ := numberStart_cases starts
      exact .other notBrace (notIdentifierStart_of_numberStart starts)
  | word starts complete ends noWord noCall =>
      exact .name starts complete ends noWord noCall

mutual

/-- What is read as a value that is not angled is a readable run. -/
theorem ReadsValue.readable {strict : Bool} {text rest : Text} {value : Expr}
    (reads : ReadsValue strict text value rest) (stops : Stops rest)
    (plain : value.angled = false) :
    ∃ run, text = run ++ rest ∧ IsRun run rest ∧ Readable text := by
  match reads with
  | .node reads _ =>
      obtain ⟨run, split, more, joins, tracks⟩ := reads.tracksTo
      have passes : Runs [] run [] :=
        (tracks []).resolve_right (by simp [plain])
      exact ⟨run, split, ⟨more, passes, joins, stops⟩, reads.readable plain⟩
  | @ReadsValue.beyond run _ _ _ reads _ isRun =>
      have notAngle : '<' ∉ run := by simpa [Expr.angled] using plain
      exact ⟨_, rfl, isRun,
        reads.readable (isRun.angled_eq_false_of_node notAngle reads)⟩
  | .verbatim noNode isRun => exact ⟨_, rfl, isRun, noNode.readable⟩

theorem ReadsNode.readable
    {text rest : Text} {value : Expr} (reads : ReadsNode text value rest)
    (plain : value.angled = false) : Readable text := by
  match reads with
  | .object reads =>
      exact .object (reads.readable (by simpa [Expr.angled_object] using plain))
  | .string quotes _ =>
      rcases mem_of_isQuotationMark quotes with rfl | rfl <;>
        exact .other (by decide) (by decide)
  | @ReadsNode.number run rest numeral isRun =>
      obtain ⟨first, others, rfl⟩ := List.exists_cons_of_ne_nil isRun.more
      have starts := numberStart_of_isNumeral numeral
      obtain ⟨-, -, -, -, notBrace, -⟩ := numberStart_cases starts
      exact .other notBrace (notIdentifierStart_of_numberStart starts)
  | .boolean ends => exact .boolean ends
  | @ReadsNode.call first path opening inner rest call starts complete ends
        noWord opens args =>
      rw [Expr.angled_call, args.split.2.1, Bool.or_eq_false_iff] at plain
      have opened : Runs [] (opening ++ ['(']) [')'] := by
        cases opens with
        | plain blank => exact .single blank (.opener rfl)
        | @typed before types behind _ opens =>
            have angle : '<' ∈ types := List.mem_of_head? opens
            simp [angle] at plain
      exact .call starts complete ends noWord opens opened
        (args.readable plain.2)

theorem ReadsArguments.readable {callee text rest : Text} {afterComma : Bool}
    {call : Call} (reads : ReadsArguments callee afterComma text call rest)
    (plain : Argument.anyAngled call.args = false) :
    ReadableItems ')' text rest := by
  match reads with
  | .close complete => exact .close complete
  | .last complete begins reads closed =>
      simp only [Argument.anyAngled, Bool.or_false] at plain
      obtain ⟨run, rfl, isRun, readable⟩ :=
        reads.readable (.of_trivia closed (.inl (by decide))) plain
      exact .last complete begins (.argument readable isRun) closed
  | .more complete begins reads closed others =>
      simp only [Argument.anyAngled, Bool.or_eq_false_iff] at plain
      obtain ⟨run, rfl, isRun, readable⟩ :=
        reads.readable (.of_trivia closed (.inr (by decide))) plain.1
      exact .more complete begins (.argument readable isRun) closed
        (others.readable plain.2)

theorem ReadsMembers.readable
    {text rest : Text} {afterComma : Bool} {literal : ObjectLiteral}
    (reads : ReadsMembers afterComma text literal rest)
    (plain : Member.anyAngled literal.members = false) :
    ReadableItems '}' text rest := by
  match reads with
  | .close complete => exact .close complete
  | .last complete begins reads closed =>
      have item := reads.readable (.of_trivia closed (.inl (by decide))) plain
      exact .last complete begins item closed
  | .more complete begins reads closed others =>
      rw [Member.anyAngled_withTrailing, Member.anyAngled_cons,
        Bool.or_eq_false_iff] at plain
      have item := reads.readable (.of_trivia closed (.inr (by decide))) plain.1
      exact .more complete begins item closed (others.readable plain.2)

theorem ReadsMember.readable {leading text rest : Text} {member : Member}
    (reads : ReadsMember leading text member rest) (stops : Stops rest)
    (plain : Member.anyAngled [member] = false) :
    ReadableItem '}' leading text rest := by
  match reads with
  | .property reads first second begins readsValue =>
      simp only [Member.anyAngled, Bool.or_false] at plain
      obtain ⟨run, rfl, isRun, readable⟩ := readsValue.readable stops plain
      exact .property reads first second begins readable isRun
  | .method reads first opens isRun =>
      exact .written (.method reads first opens isRun)
  | .shorthand reads found delimits =>
      exact .written (.shorthand reads found delimits)
  | .modified reads first begins named modifier isRun =>
      exact .written (.modified reads first begins named modifier isRun)
  | .unnamed noKey isRun => exact .written (.unnamed noKey isRun)

end

/-- The text is kept as it is written, unless it is the word of a truth
value. -/
def Expr.Keeps (run : Text) (value : Expr) : Prop :=
  value = .verbatim run ∨
    ∃ truth, value = .boolean truth ∧ run = truthWord truth

/-- What begins with a name and does not end with a parenthesis is kept as it is
written. -/
theorem ReadsValue.keeps {run rest others : Text} {first : Char} {value : Expr}
    (reads : ReadsValue true (run ++ rest) value rest) (isRun : IsRun run rest)
    (shape : run ++ rest = first :: others)
    (starts : isIdentifierStart first = true)
    (last : run.getLast? ≠ some ')') : value.Keeps run := by
  obtain ⟨-, -, notBrace, notQuotes, notNumber⟩ := identifierStart_cases starts
  generalize whole : run ++ rest = text at reads
  cases reads with
  | beyond _ _ also | verbatim _ also =>
      obtain ⟨rfl, -⟩ := isRun.unique also whole
      exact .inl rfl
  | node reads _ =>
      rw [shape] at whole
      cases reads with
      | object => simp_all
      | string quotes => simp_all
      | @number run' _ numeral also =>
          obtain ⟨character, inside, rfl⟩ :=
            List.exists_cons_of_ne_nil also.more
          cases whole
          rw [numberStart_of_isNumeral numeral] at notNumber
          contradiction
      | @boolean truth _ ends =>
          rw [← shape] at whole
          exact .inr ⟨truth, rfl, List.append_cancel_right whole⟩
      | @call word path opening inner _ call _ _ _ _ _ args =>
          obtain ⟨inside, rfl, ends, -⟩ := args.closesTo
          obtain ⟨inner, rfl⟩ := List.getLast?_eq_some_iff.1 ends
          have same :
              run = word :: path ++ (opening ++ '(' :: inner) ++ [')'] := by
            have both : run ++ rest =
                word :: path ++ (opening ++ '(' :: inner) ++ [')'] ++ rest := by
              simp [shape, whole]
            exact List.append_cancel_right both
          rw [same, List.getLast?_concat] at last
          exact absurd rfl last

/-- An expression that begins with a name, is passed to its end by the walk over
expressions and does not end with a parenthesis is kept as it is written if the
reader gets through what it looks for at its beginning; and without type
arguments, it is only read if the reader does. -/
theorem Expr.parse_fallback
    {text start : Text} {first : Char} {finish : Place start}
    (began : skipTrivia text = .ok start) (head : start.head? = some first)
    (starts : isIdentifierStart first = true)
    (ended : skipExpression start = .ok finish)
    (only : skipTrivia finish.1 = .ok [])
    (last : (start.upTo finish.1).getLast? ≠ some ')') :
    (Readable start →
      ∃ value,
        Expr.parse text = .ok value ∧ value.Keeps (start.upTo finish.1)) ∧
    ('<' ∉ start.upTo finish.1 →
      ((∃ value, Expr.parse text = .ok value) ↔ Readable start)) := by
  have nonempty : start ≠ [] := by
    rintro rfl
    simp at head
  obtain ⟨others, rfl⟩ : ∃ others, start = first :: others := by
    cases start with
    | nil => contradiction
    | cons character others =>
        cases head
        exact ⟨others, rfl⟩
  have more : finish.1.length ≠ (first :: others).length := by
    intro same
    have all : finish.1 = first :: others := finish.2.eq_of_length same
    rw [all, show skipTrivia (first :: others) = .ok (first :: others) from
      beginsToken_of_skipTrivia began] at only
    cases only
  obtain ⟨run, split, taken, isRun⟩ := isRun_of_skipExpression ended more
  rw [taken] at last ⊢
  refine ⟨fun readable => ?_, fun notAngle => ⟨?_, fun readable => ?_⟩⟩
  · obtain ⟨value, reads⟩ := readable.exists_readsValue split isRun
    have keeps := reads.keeps isRun split.symm starts last
    rw [← split] at reads
    exact ⟨value, parse_eq_ok.2 (parseFault_of_readsValue began reads only),
      keeps⟩
  · rintro ⟨value, found⟩
    obtain ⟨before, behind, rfl, complete, begins, reads, ended⟩ :=
      exists_of_parseFault (parse_eq_ok.1 found)
    rw [complete.skipTrivia_eq begins, Except.ok.injEq] at began
    rw [began, split] at reads
    have plain := isRun.angled_eq_false notAngle reads
    obtain ⟨-, -, -, readable⟩ := reads.readable (.inl ended) plain
    rwa [← split] at readable
  · obtain ⟨value, reads⟩ := readable.exists_readsValue split isRun
    rw [← split] at reads
    exact ⟨value, parse_eq_ok.2 (parseFault_of_readsValue began reads only)⟩

/-- The parameters of an arrow function are looked into as the arguments of a
call. -/
theorem Expr.parse_fallback_arrow :
    Readable "async (\x7b a, 'b': f(1) \x7d, c) => a /* done */".toList ∧
    ∃ value, Expr.parse
      " async (\x7b a, 'b': f(1) \x7d, c) => a /* done */".toList = .ok value ∧
        value.Keeps "async (\x7b a, 'b': f(1) \x7d, c) => a".toList := by
  have taken :
      Text.upTo "async (\x7b a, 'b': f(1) \x7d, c) => a /* done */".toList
        " /* done */".toList =
        "async (\x7b a, 'b': f(1) \x7d, c) => a".toList :=
    upTo_of_eq_append rfl
  obtain ⟨reads, readable⟩ := @parse_fallback
    " async (\x7b a, 'b': f(1) \x7d, c) => a /* done */".toList
    "async (\x7b a, 'b': f(1) \x7d, c) => a /* done */".toList 'a'
    ⟨" /* done */".toList, "async (\x7b a, 'b': f(1) \x7d, c) => a".toList, rfl⟩
    (by decide +kernel) (by decide +kernel) (by decide) (by decide +kernel)
    (by decide +kernel) (by rw [taken]; decide)
  rw [taken] at reads readable
  have readable := (readable (by decide)).1
    ⟨.verbatim "async (\x7b a, 'b': f(1) \x7d, c) => a".toList,
      by with_unfolding_all rfl⟩
  exact ⟨readable, reads readable⟩

/-- The walk over expressions passes the text to its last character, which is no
parenthesis, and a name begins it, but the reader meets a fault. -/
structure PassedUnread (text : Text) : Prop where
  starts : text.head?.any isIdentifierStart = true
  passed : skipExpression text = .ok ⟨[], List.nil_suffix⟩
  last : text.getLast? ≠ some ')'
  unread : (Expr.parse text).toOption = none

/-- The reader meets a fault at a parameter with a default, which is no member
of an object literal, and where it looks for type arguments, at a quotation mark
in a template literal and at a parenthesis behind a square bracket. -/
theorem Expr.parse_fallback_unread :
    PassedUnread "async (\x7b a = 1 \x7d) => a".toList ∧
    PassedUnread "a < `it's`".toList ∧
    PassedUnread "a < [b > (c)]".toList :=
  ⟨⟨by decide +kernel, by decide +kernel, by decide, by decide +kernel⟩,
    ⟨by decide +kernel, by decide +kernel, by decide, by decide +kernel⟩,
    ⟨by decide +kernel, by decide +kernel, by decide, by decide +kernel⟩⟩

end ConfigEdit
