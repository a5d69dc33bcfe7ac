import ConfigEdit.Proofs.Document.Source
import ConfigEdit.Proofs.Scan.Boundaries

/-!
# The walk passes what is read

A node, and what is read as an expression, is a run of tokens for the walk
over expressions, with one exception: type arguments are read without regard
to tokens.  An expression with an opening angle bracket in a call, or in a part
that is kept as it is written, is angled; of such an expression the walk passes
at least the bracket.  `Tracks` states both.

It follows that a node at the beginning of a run without such a bracket lies
within the run (`IsRun.split_at_node`).
-/

namespace ConfigEdit

mutual

/-- A call or an expression kept as it is written has an opening angle bracket
in it. -/
def Expr.angled : Expr → Bool
  | .object ⟨members, _, _⟩ => Member.anyAngled members
  | .call ⟨callee, args, _, _⟩ => callee.contains '<' || Argument.anyAngled args
  | .verbatim text => text.contains '<'
  | .number _ | .string _ _ | .boolean _ => false

/-- The value of some property is angled. -/
def Member.anyAngled : List Member → Bool
  | [] => false
  | .property ⟨_, value, _⟩ :: others => value.angled || Member.anyAngled others
  | .written _ :: others => Member.anyAngled others

/-- Some argument is angled. -/
def Argument.anyAngled : List Argument → Bool
  | [] => false
  | ⟨_, value, _⟩ :: others => value.angled || Argument.anyAngled others

end

theorem Expr.angled_object (literal : ObjectLiteral) :
    (Expr.object literal).angled = Member.anyAngled literal.members := by
  cases literal
  rfl

theorem Expr.angled_call (call : Call) :
    (Expr.call call).angled =
      (call.callee.contains '<' || Argument.anyAngled call.args) := by
  cases call
  rfl

theorem Member.anyAngled_withTrailing {member : Member} {trailing : Text}
    {others : List Member} :
    Member.anyAngled (member.withTrailing trailing :: others) =
      Member.anyAngled (member :: others) := by
  cases member with
  | property entry => cases entry; rfl
  | written member => rfl

theorem Member.anyAngled_cons {member : Member} {others : List Member} :
    Member.anyAngled (member :: others) =
      (Member.anyAngled [member] || Member.anyAngled others) := by
  cases member with
  | property entry => cases entry; simp [Member.anyAngled]
  | written member => simp [Member.anyAngled]

/-- The walk passes the text or, if the text may hold type arguments, an opening
angle bracket in it. -/
def Tracks (typed : Prop) (before : List Char) (text : Text)
    (behind : List Char) : Prop :=
  Runs before text behind ∨
    typed ∧ ∃ passed rest between, text = passed ++ '<' :: rest ∧
      Runs before (passed ++ ['<']) between

namespace Tracks

variable {typed other : Prop} {before between behind : List Char}
    {text left right trivia : Text}

theorem append (first : Tracks typed before left between)
    (second : Tracks typed between right behind) (joins : Joins left right) :
    Tracks typed before (left ++ right) behind := by
  rcases first with run | ⟨may, passed, rest, middle, rfl, run⟩
  · rcases second with further | ⟨may, passed, rest, middle, rfl, further⟩
    · exact .inl (run.append further joins)
    · refine .inr ⟨may, left ++ passed, rest, middle, by simp, ?_⟩
      rw [List.append_assoc]
      exact run.append further (joins.congr (by cases passed <;> rfl))
  · exact .inr ⟨may, passed, rest ++ right, middle, by simp, run⟩

theorem trivia_append
    (complete : Trivia trivia) (tracks : Tracks typed before text behind)
    (more : text ≠ []) : Tracks typed before (trivia ++ text) behind := by
  rcases tracks with run | ⟨may, passed, rest, middle, rfl, run⟩
  · exact .inl (run.trivia_append complete more)
  · refine .inr ⟨may, trivia ++ passed, rest, middle, by simp, ?_⟩
    rw [List.append_assoc]
    exact run.trivia_append complete (by simp)

theorem mono
    (tracks : Tracks typed before text behind) (weaker : typed → other) :
    Tracks other before text behind :=
  tracks.imp_right fun ⟨may, bracket⟩ => ⟨weaker may, bracket⟩

end Tracks

/-- What has been read of a text up to a place is tracked. -/
def TracksTo (typed : Prop) (text rest : Text) : Prop :=
  ∃ run, text = run ++ rest ∧ run ≠ [] ∧ Joins run rest ∧
    ∀ closers, Tracks typed closers run closers

theorem TracksTo.mono
    {typed other : Prop} {text rest : Text} (tracks : TracksTo typed text rest)
    (weaker : typed → other) : TracksTo other text rest := by
  obtain ⟨run, split, more, joins, passes⟩ := tracks
  exact ⟨run, split, more, joins, fun closers => (passes closers).mono weaker⟩

theorem IsRun.tracksTo
    {typed : Prop} {run rest : Text} (isRun : IsRun run rest) :
    TracksTo typed (run ++ rest) rest := by
  refine ⟨run, rfl, isRun.more, isRun.joins, fun closers => .inl ?_⟩
  simpa using isRun.passes.weaken closers

theorem Runs.of_string {closers : List Char} {mark : Char} {body : Text}
    (quotes : isQuotationMark mark = true) (closes : ClosesString mark body) :
    Runs closers (mark :: (body ++ [mark])) closers := by
  have run : Runs closers ([] ++ mark :: (body ++ [mark])) closers :=
    .single Trivia.nil (.string quotes closes)
  rwa [List.nil_append] at run

theorem getLast?_of_string
    {mark : Char} {body : Text} (quotes : isQuotationMark mark = true) :
    (mark :: (body ++ [mark])).getLast? ≠ some '/' := by
  rw [← List.cons_append, List.getLast?_concat]
  rcases mem_of_isQuotationMark quotes with rfl | rfl <;> decide

theorem ReadsKey.exists_run
    {text rest : Text} {key : Key} (reads : ReadsKey text key rest) :
    ∃ run, text = run ++ rest ∧ run ≠ [] ∧ run.getLast? ≠ some '/' ∧
      ∀ closers, Runs closers run closers := by
  cases reads with
  | @quoted mark body rest quotes closes =>
      exact ⟨mark :: (body ++ [mark]),
        by simp, List.cons_ne_nil _ _, getLast?_of_string quotes,
        fun _ => .of_string quotes closes⟩
  | @numeric first others rest digit all ends =>
      have plain := isPlain_of_numericKey digit all
      exact ⟨first :: others, rfl, List.cons_ne_nil _ _,
        getLast?_ne_slash plain,
        fun _ => .of_plain plain⟩
  | @word first others rest starts all ends =>
      have plain := isPlain_of_parts starts all
      exact ⟨first :: others, rfl, List.cons_ne_nil _ _,
        getLast?_ne_slash plain,
        fun _ => .of_plain plain⟩

theorem Joins.of_last
    {left right : Text} {last : Char} (found : left.getLast? = some last)
    (notSlash : last ≠ '/') : Joins left right :=
  .of_getLast? (by rw [found]; simpa using notSlash)

/-- One item of a list, with the trivia around it and what ends it. -/
theorem TracksTo.item {typed : Prop} {leading text trailing rest : Text}
    {delimiter : Char} (complete : Trivia leading)
    (tracks : TracksTo typed text (trailing ++ delimiter :: rest))
    (closed : Trivia trailing) :
    ∃ run, leading ++ text = run ++ rest ∧ run.getLast? = some delimiter ∧
      ∀ closers behind,
        Token closers [delimiter] behind → Tracks typed closers run behind := by
  obtain ⟨run, rfl, more, joins, passes⟩ := tracks
  refine ⟨leading ++ (run ++ (trailing ++ [delimiter])), by simp, by simp, ?_⟩
  intro closers behind step
  apply Tracks.trivia_append complete _ (by simp)
  apply (passes closers).append (.inl (.single closed step))
  exact joins.congr (by cases trailing <;> rfl)

/-- What is read behind an opening bracket, up to the place behind its
closer. -/
def ClosesTo (typed : Prop) (closer : Char) (text rest : Text) : Prop :=
  ∃ run, text = run ++ rest ∧ run.getLast? = some closer ∧
    ∀ closers, Tracks typed (closer :: closers) run closers

namespace ClosesTo

variable {typed other : Prop} {closer : Char}
    {leading text trailing rest : Text}

theorem close
    {close : Text} (complete : Trivia close) (closes : isCloser closer = true) :
    ClosesTo typed closer (close ++ closer :: rest) rest :=
  ⟨close ++ [closer],
    by simp, by simp, fun _ => .inl (.single complete (.closer closes))⟩

theorem last (complete : Trivia leading)
    (tracks : TracksTo typed text (trailing ++ closer :: rest))
    (closed : Trivia trailing) (closes : isCloser closer = true) :
    ClosesTo typed closer (leading ++ text) rest := by
  obtain ⟨run, split, last, passes⟩ := tracks.item complete closed
  exact ⟨run, split, last, fun _ => passes _ _ (.closer closes)⟩

theorem more {others : Text} (complete : Trivia leading)
    (tracks : TracksTo typed text (trailing ++ ',' :: others))
    (closed : Trivia trailing) (further : ClosesTo typed closer others rest) :
    ClosesTo typed closer (leading ++ text) rest := by
  obtain ⟨run, rfl, last, closes⟩ := further
  obtain ⟨item, split, comma, passes⟩ := tracks.item complete closed
  refine ⟨item ++ run, by rw [split, List.append_assoc], ?_, fun closers => ?_⟩
  · rw [List.getLast?_append_of_ne_nil _ (by rintro rfl; simp at last), last]
  · have separator : Token (closer :: closers) [','] (closer :: closers) :=
      .separator (by decide) (List.cons_ne_nil _ _)
    exact (passes _ _ separator).append (closes closers)
      (.of_last comma (by decide))

theorem mono
    (closes : ClosesTo typed closer text rest) (weaker : typed → other) :
    ClosesTo other closer text rest := by
  obtain ⟨run, split, last, passes⟩ := closes
  exact ⟨run, split, last, fun closers => (passes closers).mono weaker⟩

theorem opener {opener : Char} (closes : ClosesTo typed closer text rest)
    (opens : closerOf? opener = some closer) (notSlash : closer ≠ '/') :
    TracksTo typed (opener :: text) rest := by
  obtain ⟨run, rfl, last, passes⟩ := closes
  refine ⟨opener :: run, rfl, List.cons_ne_nil _ _, .of_last ?_ notSlash,
    fun closers => ?_⟩
  · rw [← List.singleton_append,
      List.getLast?_append_of_ne_nil _ (by rintro rfl; simp at last), last]
  · have first : Tracks typed closers [opener] (closer :: closers) :=
      .inl (.single Trivia.nil (.opener opens))
    refine first.append (passes closers) (.of_last rfl ?_)
    rintro rfl
    simp [closerOf?] at opens

end ClosesTo

theorem TracksTo.plain_append {typed : Prop} {word trivia text rest : Text}
    (plain : ∀ character ∈ word, isPlain character = true ∧ character ≠ '/')
    (complete : Trivia trivia) (tracks : TracksTo typed text rest) :
    TracksTo typed (word ++ (trivia ++ text)) rest := by
  obtain ⟨run, rfl, more, joins, passes⟩ := tracks
  refine ⟨word ++ (trivia ++ run),
    by simp, by simp [more], ?_, fun closers => ?_⟩
  · rw [← List.append_assoc]
    exact joins.append_left more
  · have first : Tracks typed closers word closers := .inl (.of_plain plain)
    exact first.append (.trivia_append complete (passes closers) more)
      (.of_getLast? (getLast?_ne_slash plain))

theorem isPlain_truthWord (value : Bool) :
    ∀ character ∈ truthWord value,
      isPlain character = true ∧ character ≠ '/' := by
  intro character inside
  have part : (truthWord value).all isIdentifierPart = true := by
    cases value <;> decide
  exact isPlain_of_part (List.all_eq_true.1 part character inside)

/-- A key, the colon with the trivia around it, and the value behind them. -/
theorem TracksTo.property {typed : Prop} {text before behind inner rest : Text}
    {key : Key} (reads : ReadsKey text key (before ++ ':' :: (behind ++ inner)))
    (first : Trivia before) (second : Trivia behind)
    (tracks : TracksTo typed inner rest) : TracksTo typed text rest := by
  obtain ⟨word, rfl, more, notSlash, runs⟩ := reads.exists_run
  obtain ⟨run, rfl, some, joins, passes⟩ := tracks
  refine ⟨word ++ ((before ++ [':']) ++ (behind ++ run)), by simp, by simp, ?_,
    fun closers => ?_⟩
  · simp only [← List.append_assoc]
    exact joins.append_left some
  · have colon : Runs closers (before ++ [':']) closers :=
      .single first (.plain (by decide))
    have behindColon := Tracks.append (.inl colon)
      (.trivia_append second (passes closers) some)
      (.of_last List.getLast?_concat (by decide))
    exact Tracks.append (.inl (runs closers)) behindColon
      (.of_getLast? notSlash)

mutual

theorem ReadsValue.tracksTo {strict : Bool} {text rest : Text} {value : Expr}
    (reads : ReadsValue strict text value rest) :
    TracksTo (value.angled = true) text rest := by
  match reads with
  | .node reads _ => exact reads.tracksTo
  | .beyond _ _ isRun => exact isRun.tracksTo
  | .verbatim _ isRun => exact isRun.tracksTo

theorem ReadsNode.tracksTo {text rest : Text} {value : Expr}
    (reads : ReadsNode text value rest) :
    TracksTo (value.angled = true) text rest := by
  match reads with
  | .object members =>
      rw [Expr.angled_object]
      exact members.closesTo.opener rfl (by decide)
  | @ReadsNode.string mark body rest quotes closes =>
      exact ⟨mark :: (body ++ [mark]), by simp, List.cons_ne_nil _ _,
        .of_getLast? (getLast?_of_string
          quotes), fun _ => .inl (.of_string quotes closes)⟩
  | .number _ isRun => exact isRun.tracksTo
  | @ReadsNode.boolean value rest ends =>
      have plain := isPlain_truthWord value
      exact ⟨truthWord value, rfl, by cases value <;> simp [truthWord],
        .of_getLast? (getLast?_ne_slash plain), fun _ => .inl (.of_plain plain)⟩
  | @ReadsNode.call first path opening inner rest call starts complete ends
        noWord opens args =>
      have plain := isPlain_of_word starts complete
      have callee := args.split.2.1
      have enclosed :
          TracksTo ((Expr.call call).angled = true) ('(' :: inner) rest := by
        refine (args.closesTo.opener rfl (by decide)).mono fun angled => ?_
        rw [Expr.angled_call, angled, Bool.or_true]
      cases opens with
      | plain blank => exact enclosed.plain_append plain blank
      | @typed before types behind blank opens closes closed =>
          obtain ⟨run, split, more, joins, -⟩ := enclosed
          obtain ⟨others, rfl⟩ : ∃ others, types = '<' :: others := by
            cases types with
            | nil => simp at opens
            | cons character others =>
                cases opens
                exact ⟨others, rfl⟩
          refine ⟨first :: path ++
            (before ++ ('<' :: others ++ (behind ++ run))), by simp [split],
            by simp, ?_, fun closers => ?_⟩
          · simp only [← List.append_assoc]
            exact joins.append_left more
          · -- The walk need not pass the type arguments, but it passes their
            -- bracket.
            refine .inr
              ⟨by simp [Expr.angled_call, callee], first :: path ++ before,
                others ++ (behind ++ run), closers, by simp, ?_⟩
            rw [List.append_assoc]
            have word : Runs closers (first :: path) closers := .of_plain plain
            exact word.append (.single blank (.plain (by decide)))
              (.of_getLast? (getLast?_ne_slash plain))

theorem ReadsArguments.closesTo {callee text rest : Text} {afterComma : Bool}
    {call : Call} (reads : ReadsArguments callee afterComma text call rest) :
    ClosesTo (Argument.anyAngled call.args = true) ')' text rest := by
  match reads with
  | .close complete => exact .close complete (by decide)
  | .last complete _ reads closed =>
      refine .last complete (reads.tracksTo.mono fun angled => ?_) closed
        (by decide)
      rw [Argument.anyAngled, angled, Bool.true_or]
  | .more complete _ reads closed further =>
      refine .more complete (reads.tracksTo.mono fun angled => ?_) closed
        (further.closesTo.mono fun angled => ?_)
      · rw [Argument.anyAngled, angled, Bool.true_or]
      · rw [Argument.anyAngled, angled, Bool.or_true]

theorem ReadsMembers.closesTo
    {text rest : Text} {afterComma : Bool} {literal : ObjectLiteral}
    (reads : ReadsMembers afterComma text literal rest) :
    ClosesTo (Member.anyAngled literal.members = true) '}' text rest := by
  match reads with
  | .close complete => exact .close complete (by decide)
  | .last complete _ reads closed =>
      exact .last complete reads.tracksTo closed (by decide)
  | @ReadsMembers.more _ _ _ _ _ _ member literal complete _ reads closed
        further =>
      rw [Member.anyAngled_withTrailing, Member.anyAngled_cons]
      refine .more complete (reads.tracksTo.mono fun angled => ?_) closed
        (further.closesTo.mono fun angled => ?_)
      · rw [angled, Bool.true_or]
      · rw [angled, Bool.or_true]

theorem ReadsMember.tracksTo {leading text rest : Text} {member : Member}
    (reads : ReadsMember leading text member rest) :
    TracksTo (Member.anyAngled [member] = true) text rest := by
  match reads with
  | .property reads first second _ value' =>
      refine (TracksTo.property reads first second value'.tracksTo).mono
        fun angled => ?_
      rw [Member.anyAngled, angled, Bool.true_or]
  | .shorthand reads _ _ =>
      obtain ⟨word, split, more, notSlash, runs⟩ := reads.exists_run
      exact ⟨word, split, more, .of_getLast? notSlash,
        fun closers => .inl (runs closers)⟩
  | .method _ _ _ isRun | .modified _ _ _ _ _ isRun | .unnamed _ isRun =>
      exact isRun.tracksTo

end

theorem IsRun.unique {run other rest after : Text} (isRun : IsRun run rest)
    (also : IsRun other after) (same : run ++ rest = other ++ after) :
    run = other ∧ rest = after := by
  have first := isRun.passes.flatEnd?_of_stops isRun.joins isRun.stops
  have second := also.passes.flatEnd?_of_stops also.joins also.stops
  rw [same, second] at first
  cases first
  exact ⟨List.append_cancel_right same, rfl⟩

/-- What the walk has passed at the beginning of a run is a part of the run,
and another run is left of it. -/
theorem IsRun.split_at {run rest passed others : Text} {closers : List Char}
    (isRun : IsRun run rest) (split : run ++ rest = passed ++ others)
    (runs : Runs [] passed closers) (joins : Joins passed others) :
    ∃ left, run = passed ++ left ∧ others = left ++ rest ∧
      Runs closers left [] ∧
      Joins left rest := by
  have walked := isRun.passes.flatEnd?_of_stops isRun.joins isRun.stops
  rw [split, runs.flatEnd?_append joins] at walked
  obtain ⟨left, rfl, further, joined, -⟩ := flatEnd?_eq_some walked
  refine ⟨left, ?_, rfl, further, joined⟩
  rw [← List.append_assoc] at split
  exact List.append_cancel_right split

/-- A node at the beginning of a run without an opening angle bracket is a part
of the run. -/
theorem IsRun.split_node
    {run other rest : Text} {value : Expr} (isRun : IsRun run rest)
    (plain : '<' ∉ run) (reads : ReadsNode (run ++ rest) value other) :
    ∃ left, run = value.source ++ left ∧ other = left ++ rest ∧
      Runs [] left [] ∧
      Joins left rest := by
  obtain ⟨node, split, more, joins, tracks⟩ := reads.tracksTo
  have same : node = value.source :=
    List.append_cancel_right (split.symm.trans reads.split.2)
  rcases tracks [] with runs | ⟨-, passed, others, between, shape, runs⟩
  · rw [same] at split runs joins
    exact isRun.split_at split runs joins
  · have bracket : run ++ rest = passed ++ ['<'] ++ (others ++ other) := by
      simp [split, shape]
    obtain ⟨left, rfl, -⟩ :=
      isRun.split_at bracket runs (.of_last List.getLast?_concat (by decide))
    simp at plain

/-- If the expression goes on behind a node, what follows the node is a run. -/
theorem IsRun.split_at_node {run other rest : Text} {value : Expr}
    (isRun : IsRun run rest) (plain : '<' ∉ run)
    (reads : ReadsNode (run ++ rest) value other) (goesOn : GoesOn other) :
    ∃ node left,
      run = node ++ left ∧ other = left ++ rest ∧ IsRun left rest := by
  obtain ⟨left, split, rfl, further, joined⟩ := isRun.split_node plain reads
  refine ⟨_, left, split, rfl, ?_, further, joined, isRun.stops⟩
  rintro rfl
  obtain ⟨character, others, found, notSeparator, notCloser⟩ := goesOn
  rcases isRun.stops.ends found with closes | separates
  · simp [closes] at notCloser
  · simp [separates] at notSeparator

end ConfigEdit
