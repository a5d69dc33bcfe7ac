import ConfigEdit.Proofs.Document.Segments

/-!
# Printing what has been read

The printer lays out new nodes only.  A node that keeps the text it comes from
is printed as that text (`Expr.FromText.printFrom_eq`), so printing a document
that has been read gives the text back, and printing an expression that has
been read gives the text without the trivia around it.
-/

namespace ConfigEdit

namespace ObjectLiteral

variable (literal : ObjectLiteral)

theorem leadings_ne_nil (fromText : Member.AllFromText literal.members)
    (more : literal.members ≠ []) : literal.leadings.isEmpty = false := by
  cases shape : literal.members with
  | nil => contradiction
  | cons member others =>
      rw [shape] at fromText
      obtain ⟨leading, found⟩ :=
        Option.isSome_iff_exists.1 fromText.1.leading?_isSome
      simp [leadings, shape, found]

theorem hasAppended_eq_false (fromText : Member.AllFromText literal.members) :
    literal.hasAppended = false := by
  cases last : literal.members.getLast? with
  | none => simp [hasAppended, last]
  | some member =>
      have kept :=
        Member.allFromText_iff.1 fromText member (List.mem_of_getLast? last)
      have some := kept.leading?_isSome
      simp [hasAppended, last, some]

end ObjectLiteral

mutual

/-- An expression that keeps its text is printed as it was written. -/
theorem Expr.FromText.printFrom_eq
    {options : PrintOptions} {lineBreak : LineBreak}
    {inline : Bool} {line : Line} {value : Expr} (fromText : value.FromText) :
    value.printFrom options lineBreak inline line = value.source := by
  match value with
  | .object ⟨[], close, trailingComma⟩ =>
      obtain ⟨-, -, comma⟩ := fromText
      have none' : trailingComma = none := by simpa using comma
      simp [Expr.printFrom, Expr.source, Member.sources, none']
  | .object ⟨member :: others, close, trailingComma⟩ =>
      obtain ⟨members, kept, comma⟩ := fromText
      obtain ⟨close, rfl⟩ := Option.isSome_iff_exists.1 kept
      obtain ⟨comma, rfl⟩ := Option.isSome_iff_exists.1 comma
      rw [Expr.printFrom]
      · simp only [ObjectLiteral.hasAppended_eq_false
          ⟨member :: others, _, _⟩ members,
          ObjectLiteral.leadings_ne_nil ⟨member :: others, _, _⟩ members
            (List.cons_ne_nil _ _)]
        rw [Member.printList_eq members]
        simp [Expr.source]
      · exact List.cons_ne_nil _ _
  | .call ⟨callee, args, close, trailingComma⟩ =>
      rw [Expr.printFrom, Argument.printList_eq fromText]
      simp [Expr.source]
  | .number text => rfl
  | .string content raw =>
      obtain ⟨raw, rfl⟩ := Option.isSome_iff_exists.1 fromText
      rfl
  | .boolean true => rfl
  | .boolean false => rfl
  | .verbatim text => rfl

theorem Member.printList_eq
    {options : PrintOptions} {lineBreak : LineBreak} {inline : Bool}
    {style : MemberStyle} {line : Line} {between : Text} {members : List Member}
    (fromText : Member.AllFromText members) :
    Member.printList options lineBreak inline style line between members =
      Member.sources between members := by
  match members with
  | [] => rfl
  | member :: others =>
      obtain ⟨first, further⟩ := fromText
      rw [Member.printList, Member.printFrom_eq first,
        Member.printList_eq further]
      -- The comment behind the last member is written by the brace, not by the
      -- comma.
      cases others with
      | nil => simp [Member.sources]
      | cons next others =>
          have kept := Option.isSome_iff_ne_none.1 further.1.leading?_isSome
          simp [Member.sources, kept]

theorem Member.printFrom_eq {options : PrintOptions} {lineBreak : LineBreak}
    {inline : Bool} {style : MemberStyle} {line : Line} {member : Member}
    (fromText : member.FromText) :
    Member.printFrom options lineBreak inline style line member =
      member.leading ++ (member.body ++ member.trailing) := by
  match member with
  | .written member =>
      simp [Member.printFrom, Member.leading, Member.leading?, Member.body,
        Member.trailing]
  | .property ⟨key, value, layout⟩ =>
      obtain ⟨raw, kept, fromText⟩ := fromText
      obtain ⟨layout, rfl⟩ := Option.isSome_iff_exists.1 kept
      obtain ⟨raw, same⟩ := Option.isSome_iff_exists.1 raw
      simp [Member.printFrom, Member.leading, Member.leading?, Member.body,
        Member.trailing, Key.print, same, fromText.printFrom_eq]

theorem Argument.printList_eq {options : PrintOptions} {lineBreak : LineBreak}
    {inline : Bool} {line : Line} {between : Text} {args : List Argument}
    (fromText : Argument.AllFromText args) :
    Argument.printList options lineBreak inline line between args =
      Argument.sources between args := by
  match args with
  | [] => rfl
  | ⟨leading, value, trailing⟩ :: others =>
      obtain ⟨first, further⟩ := fromText
      simp [Argument.printList, Argument.sources, first.printFrom_eq,
        Argument.printList_eq further]

end

/-- The text that a segment comes from. -/
def Segment.source : Segment → Text
  | .text kept => kept
  | .defaultExport ⟨head, value⟩ => head ++ value.source

/-- The segment keeps the text that it comes from. -/
def Segment.FromText : Segment → Prop
  | .text _ => True
  | .defaultExport ⟨_, value⟩ => value.FromText

theorem Document.printSegments_append
    {options : PrintOptions} {lineBreak : LineBreak} (segments : List Segment)
    (fromText : ∀ segment ∈ segments, segment.FromText)
    (others : List Segment) (line : Line) :
    Document.printSegments options lineBreak line (segments ++ others) =
      segments.flatMap Segment.source ++
        Document.printSegments options lineBreak
          (line.after (segments.flatMap Segment.source)) others := by
  induction segments generalizing line with
  | nil => rfl
  | cons segment further induction =>
      have later := induction fun other member =>
        fromText other (List.mem_cons_of_mem _ member)
      have first := fromText segment List.mem_cons_self
      cases segment with
      | text text =>
          simp [printSegments, Segment.source, later, Line.after_append]
      | defaultExport value =>
          simp only [Segment.FromText] at first
          simp [printSegments, Segment.source, later, first.printFrom_eq,
            Line.after_append]

theorem Document.printSegments_eq
    {options : PrintOptions} {lineBreak : LineBreak} (segments : List Segment)
    (fromText : ∀ segment ∈ segments, segment.FromText) (line : Line) :
    Document.printSegments options lineBreak line segments =
      segments.flatMap Segment.source := by
  have whole :
      Document.printSegments options lineBreak line (segments ++ []) = _ :=
    Document.printSegments_append segments fromText [] line
  simpa [printSegments] using whole

theorem Segment.textThen_source (text : Text) (others : List Segment) :
    (Segment.textThen text others).flatMap Segment.source =
      text ++ others.flatMap Segment.source := by
  cases text <;> simp [textThen, source]

theorem Segment.textThen_fromText {text : Text} {others : List Segment}
    (fromText : ∀ segment ∈ others, segment.FromText) :
    ∀ segment ∈ Segment.textThen text others, segment.FromText := by
  cases text with
  | nil => exact fromText
  | cons character rest =>
      intro segment member
      rcases List.mem_cons.1 member with rfl | member
      · trivial
      · exact fromText segment member

/-- The segments that are read from a place on are the text from the place
behind the last export. -/
theorem parseSegments_split {start text : Text} {depth : Nat}
    {afterPoint : Bool} {segments : List Segment} (behind : text <:+ start)
    (found : parseSegments start depth afterPoint text = .ok segments) :
    (∀ segment ∈ segments, segment.FromText) ∧
    segments.flatMap Segment.source = start := by
  obtain ⟨-, -, rfl⟩ | ⟨later, point, next, step, shorter, found⟩ |
    ⟨-, front, expression, value, finish, after, head, read, further, rfl⟩ :=
    parseSegments_cases found
  · exact ⟨Segment.textThen_fromText (by simp),
      by simp [Segment.textThen_source]⟩
  · exact parseSegments_split (step.suffix.trans behind) found
  · have bound := Nat.lt_of_le_of_lt finish.2.length_le head.length_lt
    obtain ⟨kept, split⟩ := (readsValue_of_parseValue read).split
    obtain ⟨keptOthers, joined⟩ :=
      parseSegments_split (List.suffix_refl finish.1) further
    constructor
    · apply Segment.textThen_fromText
      intro segment member
      rcases List.mem_cons.1 member with rfl | member
      · exact kept
      · exact keptOthers segment member
    · obtain ⟨before, rfl⟩ := head.suffix.trans behind
      rw [Segment.textThen_source, List.flatMap_cons, joined, Segment.source,
        upTo_append, List.append_assoc front, ← split]
termination_by text.length

theorem Document.parse_eq_ok {text : Text} {segments : List Segment} :
    Document.parse text = .ok ⟨segments⟩ ↔
      parseSegments text 0 false text = .ok segments := by
  rw [parse, parseFault]
  cases parseSegments text 0 false text <;> simp [Except.mapError]

theorem Document.split_of_parse {text : Text} {document : Document}
    (found : Document.parse text = .ok document) :
    (∀ segment ∈ document.segments, segment.FromText) ∧
      document.segments.flatMap Segment.source = text :=
  parseSegments_split (List.suffix_refl text) (Document.parse_eq_ok.1 found)

theorem Expr.parse_eq_ok {text : Text} {value : Expr} :
    Expr.parse text = .ok value ↔ Expr.parseFault text = .ok value := by
  rw [parse]
  cases parseFault text <;> simp [Except.mapError]

private theorem getLast?_of_suffix
    {last : Char} {text : Text} (ends : [last] <:+ text) :
    text.getLast? = some last := by
  obtain ⟨before, rfl⟩ := ends
  simp

theorem ReadsNode.exists_getLast? {text rest : Text} {value : Expr}
    (reads : ReadsNode text value rest) :
    ∃ last, value.source.getLast? = some last ∧ isGap last = false := by
  cases reads with
  | object reads =>
      refine ⟨'}', getLast?_of_suffix ?_, by decide⟩
      rw [Expr.source_object]
      simp only [← List.append_assoc, ← List.cons_append]
      exact List.suffix_append _ _
  | @string mark body rest quotes closes =>
      exact ⟨mark, getLast?_of_suffix ⟨mark :: body, rfl⟩,
        (notGap_of_isQuotationMark quotes).1⟩
  | number numeral isRun => exact isRun.passes.exists_getLast? isRun.more
  | @boolean value rest ends => cases value <;> exact ⟨'e', rfl, by decide⟩
  | call =>
      refine ⟨')', getLast?_of_suffix ?_, by decide⟩
      rw [Expr.source_call]
      simp only [← List.append_assoc, ← List.cons_append]
      exact List.suffix_append _ _

theorem ReadsValue.exists_getLast? {strict : Bool} {text rest : Text}
    {value : Expr} (reads : ReadsValue strict text value rest) :
    ∃ last, value.source.getLast? = some last ∧ isGap last = false := by
  cases reads with
  | node reads _ => exact reads.exists_getLast?
  | beyond _ _ isRun => exact isRun.passes.exists_getLast? isRun.more
  | verbatim _ isRun => exact isRun.passes.exists_getLast? isRun.more

/-- The text ends with the last token of an expression.  Either it is a run of
tokens by itself, or type arguments may hide tokens in it and a node is read
from it up to the bracket at its end. -/
def EndsExpression (text behind : Text) : Prop :=
  Runs [] text [] ∨
    '<' ∈ text ∧ ∃ value, ReadsNode (text ++ behind) value behind

/-- The source of a value ends with its last token. -/
theorem ReadsValue.endsExpression {strict : Bool} {text rest : Text}
    {value : Expr} (reads : ReadsValue strict text value rest) :
    EndsExpression value.source rest := by
  cases reads with
  | node reads _ =>
      cases angled : value.angled with
      | true =>
          refine .inr ⟨Expr.mem_source_of_angled angled, value, ?_⟩
          rwa [← reads.split.2]
      | false =>
          obtain ⟨run, whole, -, -, tracks⟩ := reads.tracksTo
          have same : run = value.source :=
            List.append_cancel_right (whole.symm.trans reads.split.2)
          rcases tracks [] with passes | ⟨angled', -⟩
          · exact .inl (same ▸ passes)
          · simp [angled] at angled'
  | beyond _ _ isRun => exact .inl isRun.passes
  | verbatim _ isRun => exact .inl isRun.passes

/-- The print of an expression, between the trivia around it. -/
structure PrintedWithin (text printed before behind : Text) : Prop where
  split : text = before ++ (printed ++ behind)
  before : Trivia before
  begins : BeginsToken (printed ++ behind)
  last : ∃ last, printed.getLast? = some last ∧ isGap last = false
  ends : EndsExpression printed behind
  behind : skipTrivia behind = .ok []

/-- What is read as one expression is the source of the expression, with trivia
around it. -/
theorem Expr.exists_of_parseFault {text : Text} {value : Expr}
    (found : Expr.parseFault text = .ok value) :
    ∃ before behind, text = before ++ (value.source ++ behind) ∧ Trivia before ∧
      BeginsToken (value.source ++ behind) ∧
      ReadsValue true (value.source ++ behind) value behind ∧
      skipTrivia behind = .ok [] := by
  rw [parseFault] at found
  split at found
  · contradiction
  · contradiction
  · next start more began =>
      obtain ⟨before, split, -, complete, token⟩ :=
        begins_of_skipTrivia began more
      split at found
      · contradiction
      · next value finish read =>
          have reads := readsValue_of_parseValue read
          obtain ⟨-, whole⟩ := reads.split
          split at found
          · contradiction
          · next ended =>
              cases found
              exact ⟨before, finish.1,
                by rw [split, ← whole], complete, by rwa [← whole],
                by rwa [← whole], ended⟩
          · contradiction

/-- A text that begins with a token is read from its beginning on. -/
theorem Expr.readsValue_of_parseFault {text : Text} {value : Expr}
    (found : Expr.parseFault text = .ok value) (begins : BeginsToken text) :
    ∃ behind, text = value.source ++ behind ∧
      ReadsValue true (value.source ++ behind) value behind ∧
      skipTrivia behind = .ok [] := by
  obtain ⟨before, behind, split, complete, token, reads, ended⟩ :=
    exists_of_parseFault found
  have skipped := complete.skipTrivia_eq token
  rw [← split, begins] at skipped
  exact ⟨behind, Except.ok.inj skipped, reads, ended⟩

theorem Expr.printedWithin_of_parseFault {text : Text} {value : Expr}
    (found : Expr.parseFault text = .ok value) (options : PrintOptions) :
    ∃ before behind,
      PrintedWithin text (value.print options) before behind := by
  obtain ⟨before, behind, split, complete, begins, reads, ended⟩ :=
    exists_of_parseFault found
  have printed : value.print options = value.source :=
    reads.split.1.printFrom_eq
  rw [printed]
  exact ⟨before, behind, split, complete, begins, reads.exists_getLast?,
    reads.endsExpression, ended⟩

/-- The syntax layer loses nothing.  Whatever the options, a document that is
read is printed as its text, and an expression that is read is printed as its
text without the trivia at both ends. -/
theorem print_parse (options : PrintOptions) (text : Text) :
    (∀ document,
      Document.parse text = .ok document → document.print options = text) ∧
      ∀ value, Expr.parse text = .ok value →
        ∃ before behind,
          PrintedWithin text (value.print options) before behind := by
  constructor
  · intro document found
    obtain ⟨fromText, joined⟩ := Document.split_of_parse found
    rw [Document.print, Document.printSegments_eq _ fromText, joined]
  · intro value found
    exact Expr.printedWithin_of_parseFault (Expr.parse_eq_ok.1 found) options

end ConfigEdit
