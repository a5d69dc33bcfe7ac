import ConfigEdit.Proofs.Document.Preamble
import ConfigEdit.Proofs.Scan.Rebreaking

/-!
# Documents with other line breaks

The reader takes a line break for a gap between tokens, and keeps it where it
keeps the text around it.  So with other line breaks it reads the same tree, in
which the kept texts have the other line breaks (`Expr.rebreak`).  Names,
numbers and strings are on one line, and stay as they are.

A derivation of the rules is followed step by step (`ReadsValue.rebreak`), and
the walk over a document likewise (`exists_exports_rebreak`).
-/

namespace ConfigEdit

open Text (rebreak Rebreakable)

/-- The layout with other line breaks. -/
def Layout.rebreak (lineBreak : LineBreak) (layout : Layout) : Layout :=
  ⟨layout.leading.rebreak lineBreak, layout.separator.rebreak lineBreak,
    layout.trailing.rebreak lineBreak⟩

/-- The member as it is written with other line breaks. -/
def WrittenMember.rebreak (lineBreak : LineBreak)
    (member : WrittenMember) : WrittenMember :=
  ⟨member.name, member.text.rebreak lineBreak, member.leading.rebreak lineBreak,
    member.trailing.rebreak lineBreak⟩

mutual

/-- The expression with other line breaks in the texts that it keeps. -/
def Expr.rebreak (lineBreak : LineBreak) : Expr → Expr
  | .object ⟨members, close, trailingComma⟩ =>
      .object ⟨Member.rebreakAll lineBreak members,
        close.map (Text.rebreak lineBreak), trailingComma⟩
  | .call ⟨callee, args, close, trailingComma⟩ =>
      .call ⟨callee.rebreak lineBreak, Argument.rebreakAll lineBreak args,
        close.rebreak lineBreak, trailingComma⟩
  | .verbatim text => .verbatim (text.rebreak lineBreak)
  | .number text => .number text
  | .string value raw => .string value raw
  | .boolean value => .boolean value

/-- The members with other line breaks. -/
def Member.rebreakAll (lineBreak : LineBreak) : List Member → List Member
  | [] => []
  | .property ⟨key, value, layout⟩ :: others =>
      .property ⟨key, value.rebreak lineBreak,
        layout.map (Layout.rebreak lineBreak)⟩ ::
        Member.rebreakAll lineBreak others
  | .written member :: others =>
      .written (member.rebreak lineBreak) :: Member.rebreakAll lineBreak others

/-- The arguments with other line breaks. -/
def Argument.rebreakAll (lineBreak : LineBreak) : List Argument → List Argument
  | [] => []
  | ⟨leading, value, trailing⟩ :: others =>
      ⟨leading.rebreak lineBreak, value.rebreak lineBreak,
        trailing.rebreak lineBreak⟩ :: Argument.rebreakAll lineBreak others

end

/-- The member with other line breaks. -/
def Member.rebreak (lineBreak : LineBreak) : Member → Member
  | .property ⟨key, value, layout⟩ =>
      .property ⟨key, value.rebreak lineBreak,
        layout.map (Layout.rebreak lineBreak)⟩
  | .written member => .written (member.rebreak lineBreak)

/-- The object literal with other line breaks. -/
def ObjectLiteral.rebreak (lineBreak : LineBreak)
    (literal : ObjectLiteral) : ObjectLiteral :=
  ⟨Member.rebreakAll lineBreak literal.members,
    literal.close.map (Text.rebreak lineBreak), literal.trailingComma⟩

/-- The call with other line breaks. -/
def Call.rebreak (lineBreak : LineBreak) (call : Call) : Call :=
  ⟨call.callee.rebreak lineBreak, Argument.rebreakAll lineBreak call.args,
    call.close.rebreak lineBreak, call.trailingComma⟩

/-- The export with other line breaks. -/
def DefaultExport.rebreak (lineBreak : LineBreak)
    (exported : DefaultExport) : DefaultExport :=
  ⟨exported.head.rebreak lineBreak, exported.value.rebreak lineBreak⟩

section Trees

variable {lineBreak : LineBreak}

theorem Expr.rebreak_object (literal : ObjectLiteral) :
    (Expr.object literal).rebreak lineBreak =
      .object (literal.rebreak lineBreak) := by
  cases literal
  rfl

theorem Expr.rebreak_call (call : Call) :
    (Expr.call call).rebreak lineBreak = .call (call.rebreak lineBreak) := by
  cases call
  rfl

theorem Member.rebreakAll_cons (member : Member) (others : List Member) :
    Member.rebreakAll lineBreak (member :: others) =
      member.rebreak lineBreak :: Member.rebreakAll lineBreak others := by
  match member with
  | .property ⟨key, value, layout⟩ => rfl
  | .written member => rfl

theorem Member.isEmpty_rebreakAll (members : List Member) :
    (Member.rebreakAll lineBreak members).isEmpty = members.isEmpty := by
  cases members with
  | nil => rfl
  | cons member others => rw [rebreakAll_cons]; rfl

theorem Member.rebreak_withTrailing (member : Member) (trailing : Text) :
    (member.withTrailing trailing).rebreak lineBreak =
      (member.rebreak lineBreak).withTrailing (trailing.rebreak lineBreak) := by
  match member with
  | .property ⟨key, value, none⟩ | .property ⟨key, value, some layout⟩ => rfl
  | .written member => rfl

@[simp] theorem Expr.kind_rebreak (value : Expr) :
    (value.rebreak lineBreak).kind = value.kind := by
  cases value with
  | object literal => rw [rebreak_object]; rfl
  | call call => rw [rebreak_call]; rfl
  | number | string | boolean | verbatim => rfl

end Trees

section Reading

variable {lineBreak : LineBreak} {text rest : Text}

theorem GoesOn.rebreak
    (lineBreak : LineBreak) (goesOn : GoesOn text) (paired : text.Paired) :
    GoesOn (text.rebreak lineBreak) := by
  obtain ⟨character, others, found, notSeparator, notCloser⟩ := goesOn
  have later := skipTrivia_rebreak lineBreak paired found
  rw [rebreak_cons_of_not_gap (beginsToken_of_skipTrivia found).not_gap]
    at later
  exact ⟨character, _, later, notSeparator, notCloser⟩

theorem IsRun.rebreak (lineBreak : LineBreak) {run : Text}
    (isRun : IsRun run rest) (able : Rebreakable (run ++ rest)) :
    IsRun (run.rebreak lineBreak) (rest.rebreak lineBreak) := by
  have paired := able.of_append.paired
  refine ⟨?_, isRun.passes.rebreak lineBreak isRun.joins able,
    isRun.joins.rebreak lineBreak isRun.passes.last_not_gap paired,
    isRun.stops.rebreak lineBreak paired⟩
  obtain ⟨last, ends, notGap⟩ := isRun.passes.exists_getLast? isRun.more
  obtain ⟨before, rfl⟩ := List.getLast?_eq_some_iff.1 ends
  rw [Text.rebreak_append, rebreak_cons_of_not_gap notGap]
  simp

theorem typesEnd?_rebreak
    (lineBreak : LineBreak) {text : Text} {depth : Nat} {found : Option Text}
    (able : text.Rebreakable) (walked : typesEnd? depth text = some found) :
    typesEnd? depth (text.rebreak lineBreak) =
      some (found.map (Text.rebreak lineBreak)) := by
  have feed (depth : Nat) (others : Text) :
      typesEnd? depth ('\n' :: others) = typesEnd? depth others := by
    simp [typesEnd?_cons, isQuotationMark]
  have return' (depth : Nat) (others : Text) :
      typesEnd? depth ('\r' :: others) = typesEnd? depth others := by
    simp [typesEnd?_cons, isQuotationMark]
  have breaks (depth : Nat) (others : Text) :
      typesEnd? depth (lineBreak.text ++ others) = typesEnd? depth others := by
    cases lineBreak
    · exact feed depth others
    · exact (return' depth _).trans (feed depth others)
  cases typesStep_of_typesEnd? walked with
  | nil => exact typesEnd?_nil depth
  | closed notGap closes =>
      rw [rebreak_cons_of_not_gap notGap]
      exact closes _
  | delimited notGap ends =>
      rw [rebreak_cons_of_not_gap notGap]
      exact ends _
  | @passed _ character others _ step further =>
      have later := typesEnd?_rebreak lineBreak able.of_cons further
      rw [← step] at later
      rcases Text.rebreak_cons_cases lineBreak character others with
        ⟨rfl, same⟩ | ⟨rfl, same⟩ | ⟨-, -, same⟩
      · rw [same, breaks, ← feed]
        exact later
      · rw [same, ← return']
        exact later
      · rw [same]
        exact later
  | @string mark body others _ quotes closes further =>
      have inner : others <:+ mark :: (body ++ mark :: others) :=
        ⟨mark :: (body ++ [mark]), by simp⟩
      rw [closes.rebreak_eq quotes able, typesEnd?_string quotes closes]
      exact typesEnd?_rebreak lineBreak (able.of_suffix inner) further
termination_by text.length
decreasing_by
  all_goals
    subst_vars
    simp only [List.length_append, List.length_cons]
    omega

theorem ClosesTypes.rebreak (lineBreak : LineBreak) {depth : Nat} {types : Text}
    (closes : ClosesTypes depth types) (able : Rebreakable (types ++ rest)) :
    ClosesTypes depth (types.rebreak lineBreak) := by
  have walked := typesEnd?_rebreak lineBreak able (closes rest)
  obtain ⟨other, split, closes⟩ := typesEnd?_eq_some walked
  rw [Text.rebreak_append] at split
  rwa [List.append_cancel_right split]

/-- Trivia in front of a delimiter are trivia with other line breaks, and the
delimiter stays as it is. -/
theorem Trivia.rebreak_before (lineBreak : LineBreak) {trivia : Text}
    {delimiter : Char} (complete : Trivia trivia)
    (notGap : isGap delimiter = false) (notSlash : delimiter ≠ '/')
    (able : Rebreakable (trivia ++ delimiter :: rest)) :
    Trivia (trivia.rebreak lineBreak) ∧
      Text.rebreak lineBreak (trivia ++ delimiter :: rest) =
        trivia.rebreak lineBreak ++ delimiter :: rest.rebreak lineBreak := by
  refine ⟨complete.rebreak lineBreak (skipTrivia_token notGap notSlash rest)
    (List.cons_ne_nil _ _) able.paired, ?_⟩
  rw [Text.rebreak_append, rebreak_cons_of_not_gap notGap]

theorem Begins.rebreak
    (lineBreak : LineBreak) {closer : Char} (begins : Begins closer text)
    (able : text.Rebreakable) (notGap : isGap closer = false) :
    Begins closer (text.rebreak lineBreak) := by
  refine ⟨begins.token.rebreak lineBreak able.paired,
    able.paired.rebreak_ne_nil begins.more, ?_⟩
  intro head
  refine begins.different (able.paired.head?_of_rebreak head ?_ ?_) <;>
    rintro rfl <;>
    simp [isGap] at notGap

theorem ReadsKey.rebreak (lineBreak : LineBreak) {key : Key}
    (reads : ReadsKey text key rest) (able : text.Rebreakable) :
    ReadsKey (text.rebreak lineBreak) key (rest.rebreak lineBreak) := by
  cases reads with
  | quoted quotes closes =>
      rw [closes.rebreak_eq quotes able]
      exact .quoted quotes closes
  | @numeric first others rest digit all ends =>
      rw [Text.rebreak_append,
        rebreak_of_plain (isPlain_of_numericKey digit all)]
      have ends' :=
        ends.rebreak lineBreak able.of_append.paired (by decide) (by decide)
      exact .numeric digit all ends'
  | @word first others rest starts all ends =>
      rw [Text.rebreak_append, rebreak_of_plain (isPlain_of_parts starts all)]
      have ends' :=
        ends.rebreak lineBreak able.of_append.paired (by decide) (by decide)
      exact .word starts all ends'

theorem NoKey.rebreak
    (lineBreak : LineBreak) (noKey : NoKey text) (able : text.Rebreakable) :
    NoKey (text.rebreak lineBreak) := by
  intro first head
  by_cases feed : first = '\n'
  · subst feed
    decide
  · by_cases isReturn : first = '\r'
    · subst isReturn
      decide
    · exact noKey first (able.paired.head?_of_rebreak head feed isReturn)

theorem NoCall.rebreak
    (lineBreak : LineBreak) (noCall : NoCall text) (able : text.Rebreakable) :
    NoCall (text.rebreak lineBreak) := by
  have angle {token : Text} (opens : token.head? = some '<') :
      (token.rebreak lineBreak).head? = some '<' := by
    obtain ⟨others, rfl⟩ := List.head?_eq_some_iff.1 opens
    rw [Text.rebreak_cons (by decide) (by decide)]
    rfl
  have notHead {token : Text} {character : Char}
      (notGap : isGap character = false)
      (able : token.Rebreakable) (different : token.head? ≠ some character) :
      (token.rebreak lineBreak).head? ≠ some character := by
    intro head
    refine different (able.paired.head?_of_rebreak head ?_ ?_) <;>
      rintro rfl <;>
      simp [isGap] at notGap
  cases noCall with
  | plain began notTyped notCall =>
      have able' := able.of_suffix (skipTrivia_suffix began)
      exact .plain (skipTrivia_rebreak lineBreak able.paired began)
        (notHead (by decide) able' notTyped) (notHead (by decide) able' notCall)
  | unbalanced began opens ended =>
      have able' := able.of_suffix (skipTrivia_suffix began)
      exact .unbalanced (skipTrivia_rebreak lineBreak able.paired began)
        (angle opens) (typesEnd?_rebreak lineBreak able' ended)
  | typed began opens ended found notCall =>
      have able' := able.of_suffix (skipTrivia_suffix began)
      obtain ⟨types, rfl, -⟩ := typesEnd?_eq_some ended
      have later := able'.of_append
      exact .typed (skipTrivia_rebreak lineBreak able.paired began)
        (angle opens) (typesEnd?_rebreak lineBreak able' ended)
        (skipTrivia_rebreak lineBreak later.paired found)
        (notHead (by decide) (later.of_suffix (skipTrivia_suffix found))
          notCall)

theorem CallOpening.rebreak (lineBreak : LineBreak) {opening inner : Text}
    (opens : CallOpening opening)
    (able : Rebreakable (opening ++ '(' :: inner)) :
    CallOpening (opening.rebreak lineBreak) := by
  cases opens with
  | plain complete =>
      exact .plain
        (complete.rebreak_before lineBreak (by decide) (by decide) able).1
  | @typed before types behind complete opens closes closed =>
      obtain ⟨others, rfl⟩ := List.head?_eq_some_iff.1 opens
      have shape : before ++ ('<' :: others ++ behind) ++ '(' :: inner =
          before ++ '<' :: (others ++ (behind ++ '(' :: inner)) := by simp
      rw [shape] at able
      have first :=
        (complete.rebreak_before lineBreak (by decide) (by decide) able).1
      have types := closes.rebreak lineBreak
        (able.of_append :
          Rebreakable ('<' :: others ++ (behind ++ '(' :: inner)))
      have second := (closed.rebreak_before lineBreak (by decide) (by decide)
        able.of_append.of_cons.of_append).1
      rw [Text.rebreak_append, Text.rebreak_append]
      refine .typed first ?_ types second
      rw [Text.rebreak_cons (by decide) (by decide)]
      rfl

/-- A run with a line break in it is no numeral, whichever way the line break is
written. -/
theorem IsRun.rebreak_eq_of_isNumeral {run : Text} (isRun : IsRun run rest)
    (able : Rebreakable (run ++ rest))
    (numeral : (run.rebreak lineBreak).isNumeral = true) :
    run.rebreak lineBreak = run := by
  have noFeed : '\n' ∉ run := by
    intro inside
    obtain ⟨before, behind, rfl⟩ := List.append_of_mem inside
    have broken : '\n' ∈ Text.rebreak lineBreak (before ++ '\n' :: behind) := by
      cases lineBreak <;> simp [LineBreak.text]
    exact Text.gap_notMem_of_isNumeral (by decide) numeral broken
  refine Text.rebreak_of_flat noFeed fun inside => ?_
  obtain ⟨before, behind, rfl⟩ := List.append_of_mem inside
  have next := able.paired (behind ++ rest) ⟨before, by simp⟩
  cases behind with
  | nil =>
      -- A run does not end with a gap.
      obtain ⟨last, ends, notGap⟩ := isRun.passes.exists_getLast? isRun.more
      rw [List.getLast?_concat, Option.some.injEq] at ends
      subst ends
      simp [isGap] at notGap
  | cons character others =>
      simp only [List.cons_append, List.head?_cons, Option.some.injEq] at next
      simp [next] at noFeed

theorem NoNode.rebreak
    (lineBreak : LineBreak) (noNode : NoNode text) (able : text.Rebreakable) :
    NoNode (text.rebreak lineBreak) := by
  cases noNode with
  | @other first rest notBrace notQuotes notNumber notStart =>
      have more : Text.rebreak lineBreak (first :: rest) ≠ [] :=
        able.paired.rebreak_ne_nil (List.cons_ne_nil first rest)
      obtain ⟨character, others, shape⟩ := List.exists_cons_of_ne_nil more
      have head :
          (Text.rebreak lineBreak (first :: rest)).head? = some character := by
        rw [shape]
        rfl
      rw [shape]
      by_cases feed : character = '\n'
      · subst feed
        exact .other (by decide) (by decide) (by decide) (by decide)
      · by_cases isReturn : character = '\r'
        · subst isReturn
          exact .other (by decide) (by decide) (by decide) (by decide)
        · have same := able.paired.head?_of_rebreak head feed isReturn
          rw [List.head?_cons, Option.some.injEq] at same
          subst same
          exact .other notBrace notQuotes notNumber notStart
  | @number first run rest starts notNumeral isRun =>
      have notGap := (numberStart_cases starts).1
      have run' := isRun.rebreak lineBreak able
      have notNumeral' :
          (Text.rebreak lineBreak (first :: run)).isNumeral = false := by
        rw [Bool.eq_false_iff]
        intro numeral
        rw [isRun.rebreak_eq_of_isNumeral able numeral] at numeral
        simp [numeral] at notNumeral
      rw [Text.rebreak_append]
      rw [rebreak_cons_of_not_gap notGap] at run' notNumeral' ⊢
      exact .number starts notNumeral' run'
  | @word first path rest starts complete ends noWord noCall =>
      rw [Text.rebreak_append,
        rebreak_of_plain (isPlain_of_word starts complete)]
      exact .word starts complete (ends.rebreak lineBreak able.of_append.paired)
        noWord (noCall.rebreak lineBreak able.of_append)

end Reading

mutual

theorem ReadsValue.rebreak
    (lineBreak : LineBreak) {strict : Bool} {text rest : Text} {value : Expr}
    (reads : ReadsValue strict text value rest) (able : text.Rebreakable) :
    ReadsValue strict (text.rebreak lineBreak) (value.rebreak lineBreak)
      (rest.rebreak lineBreak) := by
  match reads with
  | .node node stops =>
      have later : rest <:+ text := ⟨_, node.split.2.symm⟩
      exact .node (node.rebreak lineBreak able)
        fun isStrict =>
          (stops isStrict).rebreak lineBreak (able.of_suffix later).paired
  | @ReadsValue.beyond run other _ _ node goesOn isRun =>
      have later : other <:+ run ++ rest := ⟨_, node.split.2.symm⟩
      have node' := node.rebreak lineBreak able
      rw [Text.rebreak_append] at node' ⊢
      exact .beyond node'
        (goesOn.rebreak lineBreak (able.of_suffix later).paired)
        (isRun.rebreak lineBreak able)
  | .verbatim noNode isRun =>
      have noNode' := noNode.rebreak lineBreak able
      rw [Text.rebreak_append] at noNode' ⊢
      exact .verbatim noNode' (isRun.rebreak lineBreak able)

theorem ReadsNode.rebreak
    (lineBreak : LineBreak) {text rest : Text} {value : Expr}
    (reads : ReadsNode text value rest) (able : text.Rebreakable) :
    ReadsNode (text.rebreak lineBreak) (value.rebreak lineBreak)
      (rest.rebreak lineBreak) := by
  match reads with
  | @ReadsNode.object _ _ literal members =>
      have read := ReadsNode.object (members.rebreak lineBreak able.of_cons)
      rw [Text.rebreak_cons (by decide) (by decide), Expr.rebreak_object]
      simpa [ObjectLiteral.rebreak, Member.isEmpty_rebreakAll] using read
  | .string quotes closes =>
      rw [closes.rebreak_eq quotes able]
      exact .string quotes closes
  | @ReadsNode.number run _ numeral isRun =>
      have run' := isRun.rebreak lineBreak able
      have flat : run.rebreak lineBreak = run :=
        Text.rebreak_of_flat (Text.gap_notMem_of_isNumeral (by decide) numeral)
          (Text.gap_notMem_of_isNumeral (by decide) numeral)
      rw [Text.rebreak_append]
      rw [flat] at run' ⊢
      exact .number numeral run'
  | @ReadsNode.boolean truth _ ends =>
      rw [Text.rebreak_append, rebreak_of_plain (isPlain_truthWord truth)]
      exact .boolean (ends.rebreak lineBreak able.of_append.paired)
  | @ReadsNode.call first path opening inner _ call starts complete ends noWord
        opens args =>
      have word : Text.rebreak lineBreak (first :: path) = first :: path :=
        rebreak_of_plain (isPlain_of_word starts complete)
      have able' := able.of_append
      have ends' := ends.rebreak lineBreak able'.paired
      have args' := args.rebreak lineBreak able'.of_append.of_cons
      have opens' := opens.rebreak lineBreak able'
      rw [Text.rebreak_append, word] at args'
      rw [Text.rebreak_append, Text.rebreak_cons (by decide) (by decide)]
        at ends'
      rw [Expr.rebreak_call, Text.rebreak_append, Text.rebreak_append, word,
        Text.rebreak_cons (by decide) (by decide)]
      exact .call starts complete ends' noWord opens' args'

theorem ReadsArguments.rebreak (lineBreak : LineBreak) {callee text rest : Text}
    {afterComma : Bool} {call : Call}
    (reads : ReadsArguments callee afterComma text call rest)
    (able : text.Rebreakable) :
    ReadsArguments (callee.rebreak lineBreak) afterComma
      (text.rebreak lineBreak)
      (call.rebreak lineBreak) (rest.rebreak lineBreak) := by
  match reads with
  | .close complete =>
      obtain ⟨complete', shape⟩ :=
        complete.rebreak_before lineBreak (by decide) (by decide) able
      rw [shape]
      exact .close complete'
  | @ReadsArguments.last _ leading text trailing _ _ value complete begins reads
        closed =>
      have able' := able.of_append
      have later : trailing ++ ')' :: rest <:+ text := ⟨_, reads.split.2.symm⟩
      obtain ⟨closed', shape⟩ :=
        closed.rebreak_before lineBreak (by decide) (by decide)
          (able'.of_suffix later)
      have reads' := reads.rebreak lineBreak able'
      rw [shape] at reads'
      rw [Text.rebreak_append]
      exact .last (complete.rebreak lineBreak begins.token begins.more
        able.paired) (begins.rebreak lineBreak able' (by decide)) reads' closed'
  | @ReadsArguments.more _ leading text trailing others _ _ value call complete
        begins reads closed further =>
      have able' := able.of_append
      have later : trailing ++ ',' :: others <:+ text := ⟨_, reads.split.2.symm⟩
      have able'' := able'.of_suffix later
      obtain ⟨closed', shape⟩ :=
        closed.rebreak_before lineBreak (by decide) (by decide) able''
      have reads' := reads.rebreak lineBreak able'
      rw [shape] at reads'
      rw [Text.rebreak_append]
      exact .more (complete.rebreak lineBreak begins.token begins.more
        able.paired) (begins.rebreak lineBreak able' (by decide)) reads' closed'
        (further.rebreak lineBreak able''.of_append.of_cons)

theorem ReadsMembers.rebreak (lineBreak : LineBreak) {text rest : Text}
    {afterComma : Bool} {literal : ObjectLiteral}
    (reads : ReadsMembers afterComma text literal rest)
    (able : text.Rebreakable) :
    ReadsMembers afterComma (text.rebreak lineBreak) (literal.rebreak lineBreak)
      (rest.rebreak lineBreak) := by
  match reads with
  | .close complete =>
      obtain ⟨complete', shape⟩ :=
        complete.rebreak_before lineBreak (by decide) (by decide) able
      rw [shape]
      exact .close complete'
  | @ReadsMembers.last leading text trailing _ _ member complete begins reads
        closed =>
      have able' := able.of_append
      have later : trailing ++ '}' :: rest <:+ text :=
        ⟨_, reads.split.2.2.2.symm⟩
      obtain ⟨closed', shape⟩ :=
        closed.rebreak_before lineBreak (by decide) (by decide)
          (able'.of_suffix later)
      have reads' := reads.rebreak lineBreak able'
      rw [shape] at reads'
      rw [Text.rebreak_append, ObjectLiteral.rebreak, Member.rebreakAll_cons]
      exact .last (complete.rebreak lineBreak begins.token begins.more
        able.paired) (begins.rebreak lineBreak able' (by decide)) reads' closed'
  | @ReadsMembers.more leading text trailing others _ _ member literal complete
        begins reads closed further =>
      have able' := able.of_append
      have later : trailing ++ ',' :: others <:+ text :=
        ⟨_, reads.split.2.2.2.symm⟩
      have able'' := able'.of_suffix later
      obtain ⟨closed', shape⟩ :=
        closed.rebreak_before lineBreak (by decide) (by decide) able''
      have reads' := reads.rebreak lineBreak able'
      rw [shape] at reads'
      rw [Text.rebreak_append, ObjectLiteral.rebreak, Member.rebreakAll_cons,
        Member.rebreak_withTrailing]
      exact .more (complete.rebreak lineBreak begins.token begins.more
        able.paired) (begins.rebreak lineBreak able' (by decide)) reads' closed'
        (further.rebreak lineBreak able''.of_append.of_cons)

theorem ReadsMember.rebreak
    (lineBreak : LineBreak) {leading text rest : Text} {member : Member}
    (reads : ReadsMember leading text member rest) (able : text.Rebreakable) :
    ReadsMember (leading.rebreak lineBreak) (text.rebreak lineBreak)
      (member.rebreak lineBreak) (rest.rebreak lineBreak) := by
  match reads with
  | @ReadsMember.property _ _ before behind inner _ key value reads first second
        begins readsValue =>
      obtain ⟨word, split, -⟩ := reads.exists_run
      have able' := able.of_suffix ⟨word, split.symm⟩
      have inside := able'.of_append.of_cons
      obtain ⟨first', shape⟩ :=
        first.rebreak_before lineBreak (by decide) (by decide) able'
      have second' :=
        second.rebreak lineBreak begins readsValue.ne_nil inside.paired
      have reads' := reads.rebreak lineBreak able
      rw [shape, Text.rebreak_append] at reads'
      have begins' := begins.rebreak lineBreak inside.of_append.paired
      have readsValue' := readsValue.rebreak lineBreak inside.of_append
      simpa [Member.rebreak, Layout.rebreak, Text.rebreak_cons] using
        @ReadsMember.property (leading.rebreak lineBreak) _ _ _ _ _ _ _ reads'
          first' second' begins' readsValue'
  | @ReadsMember.method _ run before others _ key opener reads first opens
        isRun =>
      obtain ⟨word, split, -⟩ := reads.exists_run
      have notGap : isGap opener = false ∧ opener ≠ '/' := by
        rcases opens with rfl | rfl <;> decide
      obtain ⟨first', shape⟩ := first.rebreak_before lineBreak notGap.1 notGap.2
        (able.of_suffix ⟨word, split.symm⟩)
      have reads' := reads.rebreak lineBreak able
      rw [shape, Text.rebreak_append] at reads'
      rw [Text.rebreak_append]
      exact .method reads' first' opens (isRun.rebreak lineBreak able)
  | @ReadsMember.shorthand _ raw _ others key delimiter reads found delimits =>
      have notGap : isGap delimiter = false := by
        rcases delimits with rfl | rfl <;> decide
      have found' := skipTrivia_rebreak lineBreak able.of_append.paired found
      have reads' := reads.rebreak lineBreak able
      rw [rebreak_cons_of_not_gap notGap] at found'
      rw [Text.rebreak_append] at reads' ⊢
      exact .shorthand reads' found' delimits
  | @ReadsMember.modified _ run before name others _ key reads first begins
        named modifier isRun =>
      obtain ⟨word, split, -⟩ := reads.exists_run
      obtain ⟨initial, parts, rfl, starts, all, ends⟩ :=
        scanIdentifier?_eq_some named
      have able' := able.of_suffix ⟨word, split.symm⟩
      have flat :
          Text.rebreak lineBreak (initial :: parts) = initial :: parts :=
        rebreak_of_plain (isPlain_of_parts starts all)
      have first' :=
        first.rebreak lineBreak begins (List.cons_ne_nil _ _) able'.paired
      have begins' := begins.rebreak lineBreak able'.of_append.paired
      have named' := scanIdentifier?_congr_right named
        (ends.rebreak lineBreak able'.of_append.of_append.paired (by decide)
          (by decide))
      have reads' := reads.rebreak lineBreak able
      rw [Text.rebreak_append, flat] at begins'
      rw [Text.rebreak_append, Text.rebreak_append, Text.rebreak_append, flat]
        at reads'
      rw [Text.rebreak_append]
      exact .modified reads' first' begins' named' modifier
        (isRun.rebreak lineBreak able)
  | .unnamed noKey isRun =>
      have noKey' := noKey.rebreak lineBreak able
      rw [Text.rebreak_append] at noKey' ⊢
      exact .unnamed noKey' (isRun.rebreak lineBreak able)

end

theorem isPlain_exportWord :
    ∀ character ∈ exportWord, isPlain character = true ∧ character ≠ '/' :=
  isPlain_of_parts (by decide) (by decide)

theorem isPlain_defaultWord :
    ∀ character ∈ defaultWord, isPlain character = true ∧ character ≠ '/' :=
  isPlain_of_parts (by decide) (by decide)

section Walk

variable {lineBreak : LineBreak} {text next : Text} {depth later : Nat}
    {afterPoint point : Bool}

/-- The word that a token is, if it is one, has no line break in it. -/
theorem scanIdentifier?_rebreak (able : text.Rebreakable)
    (begins : BeginsToken text) :
    (scanIdentifier? (text.rebreak lineBreak)).map Prod.fst =
      (scanIdentifier? text).map Prod.fst := by
  cases text with
  | nil => rfl
  | cons first rest =>
      obtain ⟨others, next, rfl, all, ends, taken, -⟩ :=
        exists_endsAt isIdentifierPart rest
      rw [rebreak_cons_of_not_gap begins.not_gap, scanIdentifier?,
        scanIdentifier?]
      by_cases starts : isIdentifierStart first = true
      · have plain := isPlain_of_parts starts all
        have flat : others.rebreak lineBreak = others :=
          rebreak_of_plain fun character inside =>
            plain character (List.mem_cons_of_mem _ inside)
        have ends' := ends.rebreak lineBreak able.of_cons.of_append.paired
          (by decide) (by decide)
        rw [if_pos starts, if_pos starts, Text.rebreak_append, flat, taken,
          takeWhile_append_of_endsAt all ends']
        rfl
      · rw [if_neg starts, if_neg starts]

theorem Trivia.rebreak_ne_nil (lineBreak : LineBreak) {trivia : Text}
    (notMember : afterPoint = true → trivia ≠ [])
    (able : Rebreakable (trivia ++ text)) (begins : BeginsToken text) :
    afterPoint = true → trivia.rebreak lineBreak ≠ [] := by
  intro isPoint
  refine (able.paired.of_append_left fun feed => ?_).rebreak_ne_nil
    (notMember isPoint)
  obtain ⟨others, rfl⟩ := List.head?_eq_some_iff.1 feed
  exact absurd begins.not_gap (by decide)

theorem SegmentStep.rebreak (lineBreak : LineBreak)
    (step : SegmentStep depth afterPoint text later point next)
    (able : text.Rebreakable) :
    SegmentStep depth afterPoint (text.rebreak lineBreak) later point
      (next.rebreak lineBreak) := by
  cases step with
  | @string _ _ trivia body _ mark complete quotes closes =>
      have isMark : IsMark mark := .inl quotes
      have complete' := complete.rebreak lineBreak
        (isMark.beginsToken (body ++ mark :: next))
        (List.cons_ne_nil _ _) able.paired
      rw [Text.rebreak_append, closes.rebreak_eq quotes able.of_append]
      exact .string complete' quotes closes
  | @template _ _ trivia body _ complete closes =>
      obtain ⟨complete', shape⟩ :=
        complete.rebreak_before lineBreak (by decide) (by decide) able
      have closes' := closes.rebreak lineBreak able.of_append.of_cons
      rw [shape, Text.rebreak_append, Text.rebreak_cons (by decide) (by decide)]
      exact .template complete' closes'
  | @opener _ _ trivia _ character closer complete opens =>
      have notGap := notGap_of_closerOf? opens
      obtain ⟨complete', shape⟩ :=
        complete.rebreak_before lineBreak notGap.1 notGap.2 able
      rw [shape]
      exact .opener complete' opens
  | @closer _ _ trivia _ character complete closes =>
      have notGap := notGap_of_isCloser closes
      obtain ⟨complete', shape⟩ :=
        complete.rebreak_before lineBreak notGap.1 notGap.2 able
      rw [shape]
      exact .closer complete' closes
  | @word _ _ trivia others _ first complete starts all ends noExport =>
      have begins : BeginsToken (first :: (others ++ next)) :=
        beginsToken_of_identifierStart starts
      have complete' := complete.rebreak lineBreak begins (List.cons_ne_nil _ _)
        able.paired
      have word : Text.rebreak lineBreak (first :: others) = first :: others :=
        rebreak_of_plain (isPlain_of_parts starts all)
      have ends' :=
        ends.rebreak lineBreak able.of_append.of_cons.of_append.paired
          (by decide) (by decide)
      have shape : Text.rebreak lineBreak (first :: (others ++ next)) =
          first :: (others ++ next.rebreak lineBreak) := by
        rw [← List.cons_append, Text.rebreak_append, word, List.cons_append]
      rw [Text.rebreak_append, shape]
      refine .word complete' starts all ends' ?_
      rcases noExport with open' | other | ⟨isPoint, rfl⟩
      · exact .inl open'
      · exact .inr (.inl other)
      · exact .inr (.inr ⟨isPoint, rfl⟩)
  | @noDefault _ trivia _ token complete ends notMember found different =>
      have begins : BeginsToken (exportWord ++ next) :=
        beginsToken_of_identifierStart (by decide)
      have able' := able.of_append.of_append
      have found' := skipTrivia_rebreak lineBreak able'.paired found
      rw [Text.rebreak_append, Text.rebreak_append,
        rebreak_of_plain isPlain_exportWord]
      refine .noDefault
        (complete.rebreak lineBreak begins (List.cons_ne_nil _ _) able.paired)
        (ends.rebreak lineBreak able'.paired (by decide) (by decide))
        (Trivia.rebreak_ne_nil lineBreak notMember able begins) found' ?_
      rwa [scanIdentifier?_rebreak (able'.of_suffix (skipTrivia_suffix found))
        (beginsToken_of_skipTrivia found)]
  | @other _ _ trivia _ character complete begins notQuotes notTemplate
        notOpener notCloser notStart =>
      have complete' := complete.rebreak lineBreak begins (List.cons_ne_nil _ _)
        able.paired
      have begins' := begins.rebreak lineBreak able.of_append.paired
      rw [rebreak_cons_of_not_gap begins.not_gap] at begins'
      rw [Text.rebreak_append, rebreak_cons_of_not_gap begins.not_gap]
      exact .other complete' begins' notQuotes notTemplate notOpener notCloser
        notStart

theorem ExportHead.rebreak (lineBreak : LineBreak) {front expression : Text}
    (head : ExportHead afterPoint front text expression)
    (able : text.Rebreakable) :
    ExportHead afterPoint (front.rebreak lineBreak) (text.rebreak lineBreak)
      (expression.rebreak lineBreak) := by
  cases head with
  | @words trivia between behind _ complete notMember first more second begins
        nonempty ends =>
      have word {rest : Text} : BeginsToken (defaultWord ++ rest) :=
        beginsToken_of_identifierStart (by decide)
      have begins' {rest : Text} : BeginsToken (exportWord ++ rest) :=
        beginsToken_of_identifierStart (by decide)
      have behindExport := able.of_append.of_append
      have behindDefault := behindExport.of_append.of_append
      have between' : between.rebreak lineBreak ≠ [] :=
        Trivia.rebreak_ne_nil lineBreak
          (fun _ : true = true => more) behindExport word rfl
      have ends' := ends.rebreak lineBreak behindDefault.paired (by decide)
        (by decide)
      simp only [Text.rebreak_append, rebreak_of_plain isPlain_exportWord,
        rebreak_of_plain isPlain_defaultWord] at ends' ⊢
      exact .words (complete.rebreak lineBreak begins' (List.cons_ne_nil _ _)
        able.paired) (Trivia.rebreak_ne_nil lineBreak notMember able begins')
        (first.rebreak lineBreak word
          (List.cons_ne_nil _ _) behindExport.paired) between'
        (second.rebreak lineBreak begins nonempty behindDefault.paired)
        (begins.rebreak lineBreak behindDefault.of_append.paired)
        (behindDefault.of_append.paired.rebreak_ne_nil nonempty) ends'

end Walk

/-- The walk over a document finds the same exports with other line breaks. -/
theorem exists_exports_rebreak (lineBreak : LineBreak) {start text : Text}
    {depth : Nat} {afterPoint : Bool} {segments : List Segment}
    (found : parseSegments start depth afterPoint text = .ok segments)
    (able : text.Rebreakable) (other : Text) :
    ∃ others, parseSegments other depth afterPoint (text.rebreak lineBreak) =
      .ok others ∧ (Document.mk others).exports =
      (Document.mk segments).exports.map (DefaultExport.rebreak lineBreak) := by
  rcases parseSegments_cases found with ⟨rfl, ended, rfl⟩ |
    ⟨later, point, next, step, shorter, found⟩ |
    ⟨rfl, front, expression, value, finish, after, head, read, further, rfl⟩
  · have ended' := skipTrivia_rebreak lineBreak able.paired ended
    refine ⟨_, parseSegments_ended ended', ?_⟩
    rw [exports_textThen, exports_textThen]
    rfl
  · rw [parseSegments_of_step (step.rebreak lineBreak able)]
    exact exists_exports_rebreak lineBreak found
      (able.of_suffix step.suffix) other
  · have inside := able.of_suffix ((List.suffix_append _ _).trans head.suffix)
    have bound : finish.1.length < text.length :=
      Nat.lt_of_le_of_lt finish.length_le head.length_lt
    obtain ⟨finish', read', same⟩ := parseValue_of_readsValue
      ((readsValue_of_parseValue read).rebreak lineBreak inside)
    obtain ⟨others, further', exports⟩ :=
      exists_exports_rebreak lineBreak further
        (inside.of_suffix finish.2) finish'.1
    rw [← same] at further'
    refine ⟨_,
      parseSegments_of_export (head.rebreak lineBreak able) read' further', ?_⟩
    rw [exports_textThen, exports_textThen]
    exact congrArg (List.cons _) exports
termination_by text.length

/-- A document is read with other line breaks, and so are its exports. -/
theorem Document.exists_parse_rebreak
    (lineBreak : LineBreak) {text : Text} {document : Document}
    (found : Document.parse text = .ok document) (able : text.Rebreakable) :
    ∃ other, Document.parse (text.rebreak lineBreak) = .ok other ∧
      other.exports =
        document.exports.map (DefaultExport.rebreak lineBreak) := by
  obtain ⟨segments⟩ := document
  rw [parse_eq_ok] at found
  obtain ⟨others, found, same⟩ :=
    exists_exports_rebreak lineBreak found able (text.rebreak lineBreak)
  exact ⟨⟨others⟩, parse_eq_ok.2 found, same⟩

end ConfigEdit
