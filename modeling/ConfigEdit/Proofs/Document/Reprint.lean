import ConfigEdit.Proofs.Document.Reread
import ConfigEdit.Proofs.Document.Written

/-!
# The print of a tree is read back

The members of a printable literal are laid out one behind the other, with
trivia around them, and the print is followed in the same order.
-/

namespace ConfigEdit

theorem Line.indent_after {property : Char → Prop} (blank : property ' ')
    (tab : property '\t') {line : Line}
    (all : ∀ character ∈ line.indent, property character) (text : Text) :
    ∀ character ∈ (line.after text).indent, property character := by
  induction text generalizing line with
  | nil => exact all
  | cons character rest induction =>
      refine @induction (line.push character) ?_
      rw [Line.push]
      split
      · simp [Line.start]
      · split
        · next both =>
            simp only [Bool.and_eq_true, Bool.or_eq_true, decide_eq_true_eq]
              at both
            intro other inside
            rcases List.mem_append.1 inside with old | new
            · exact all other old
            · rw [List.mem_singleton.1 new]
              rcases both.2 with rfl | rfl
              · exact blank
              · exact tab
        · exact all

/-- The line is indented with blanks. -/
def Line.Blank (line : Line) : Prop :=
  ∀ character ∈ line.indent, isGap character = true

theorem Line.Blank.after {line : Line} (blank : line.Blank) (text : Text) :
    (line.after text).Blank :=
  Line.indent_after (by decide) (by decide) blank text

theorem LineBreak.gaps (lineBreak : LineBreak) :
    ∀ character ∈ lineBreak.text, isGap character = true :=
  List.all_eq_true.1 (by cases lineBreak <;> rfl)

/-- Trivia without the comment on its first line is trivia, if the comment ends
there. -/
theorem Trivia.withoutLineComment {text : Text} (complete : Trivia text)
    (closed : ∀ lineBreak : LineBreak,
      Trivia (text.lineComment ++ lineBreak.text)) :
    Trivia text.withoutLineComment := by
  rw [Text.lineComment, Text.splitLineComment] at closed
  rw [Text.withoutLineComment, Text.splitLineComment]
  split
  · next line lineBreak rest found =>
      rw [found] at closed
      split
      · exact complete
      · next notBlank =>
          simp only [notBlank, Bool.false_eq_true, if_false] at closed
          rw [Text.splitLine?_eq_some found] at complete
          refine Trivia.append (.of_gaps lineBreak.gaps) fun behind => ?_
          rw [← closed lineBreak, ← complete behind]
          simp
  · exact complete

theorem Joins.before_delimiter {left behind blanks rest : Text}
    {delimiter : Char} (joins : Joins left behind)
    (gaps : ∀ character ∈ blanks, isGap character = true)
    (delimits : delimiter = ',' ∨ delimiter = '}') :
    Joins left (behind ++ (blanks ++ delimiter :: rest)) := by
  cases behind with
  | cons first others => exact joins.congr rfl
  | nil =>
      cases blanks with
      | nil =>
          rcases delimits with rfl | rfl <;>
            exact .of_head (by decide) (by decide)
      | cons blank others =>
          have gap := gaps blank List.mem_cons_self
          refine .of_head ?_ ?_ <;> rintro rfl <;> exact absurd gap (by decide)

namespace Member

variable {options : PrintOptions} {member : Member} {behind blanks rest : Text}
    {delimiter : Char}

/-- What keeps apart from trivia keeps apart from the delimiter behind it. -/
theorem JoinsTo.before_delimiter (joins : member.JoinsTo options behind)
    (gaps : ∀ character ∈ blanks, isGap character = true)
    (delimits : delimiter = ',' ∨ delimiter = '}') :
    member.JoinsTo options (behind ++ (blanks ++ delimiter :: rest)) := by
  cases member with
  | written member => exact Joins.before_delimiter joins gaps delimits
  | property entry =>
      cases entry with
      | mk key value layout =>
          exact joins.imp_right fun joins =>
            joins.before_delimiter gaps delimits

/-- A member that can be read is read in front of a text that ends members. -/
theorem Sound.readsBefore (sound : member.Sound options)
    (ends : EndsMember rest) (joins : member.JoinsTo options rest)
    (settled : member.SettledBefore options rest) :
    member.ReadsBefore options rest := by
  cases member with
  | written member => exact sound rest ends joins
  | property entry =>
      cases entry with
      | mk key value layout =>
          obtain ⟨-, isObject | leaf⟩ := sound
          · exact .inl isObject
          · rcases joins with isObject | joins
            · exact .inl isObject
            · rcases settled with isObject | settled
              · exact .inl isObject
              · refine .inr ⟨leaf.begins _ joins, ?_⟩
                cases angled : value.angled with
                | true => exact settled angled
                | false => exact leaf.reads angled _ ends.stops joins

/-- An angled value is read in front of what is printed behind it. -/
theorem Settled.settledBefore
    {lineBreak : LineBreak} {inline : Bool} {style : MemberStyle} {line : Line}
    (settled : member.Settled options lineBreak inline style line rest) :
    member.SettledBefore options (member.trailing ++ rest) := by
  match member with
  | .written member => trivial
  | .property ⟨key, .object literal, layout⟩ => exact .inl ⟨literal, rfl⟩
  | .property ⟨key, .call call, layout⟩ | .property
        ⟨key, .verbatim text, layout⟩ =>
      rw [Member.Settled, Expr.Settled] at settled
      exact .inr settled
  | .property ⟨key, .number _, layout⟩ | .property ⟨key, .string _ _, layout⟩ |
    .property ⟨key, .boolean _, layout⟩ =>
      exact .inr fun angled => absurd angled (by simp [Expr.angled])

end Member

namespace ObjectLiteral

variable {literal : ObjectLiteral} {options : PrintOptions}
    {lineBreak : LineBreak} {inline : Bool} {line : Line}

theorem newLine_gaps :
    ∀ character ∈ literal.newLine lineBreak, isGap character = true :=
  LineBreak.gaps _

theorem freshClose_gaps (blank : line.Blank) :
    ∀ character ∈ literal.freshClose lineBreak inline line,
      isGap character = true := by
  rw [freshClose]
  split
  · intro character inside
    rcases List.mem_append.1 inside with inside | inside
    · exact newLine_gaps character inside
    · exact blank character inside
  · exact List.all_eq_true.1 rfl

theorem Appends.newLeading (appends : literal.Appends) {member : Member}
    (inside : member ∈ literal.members) (new : member.leading? = none)
    (blank : line.Blank) (indent : Trivia options.indent) :
    Trivia (literal.memberStyle options lineBreak inline line).newLeading := by
  rw [memberStyle]
  simp only
  split
  · refine Trivia.append (.of_gaps newLine_gaps) ?_
    cases found : literal.memberIndent? with
    | none =>
        exact Trivia.append (.of_gaps blank) indent
    | some copied =>
        refine (appends ?_ member inside new).2 copied found
        intro empty
        simp [memberIndent?, empty] at found
  · exact .of_all rfl

/-- The comment that new members follow is trivia together with what they are
indented with. -/
theorem Appends.sourceComment
    (appends : literal.Appends) (some : literal.leadings ≠ []) {member : Member}
    (inside : member ∈ literal.members) (new : member.leading? = none)
    (blank : line.Blank) (indent : Trivia options.indent) :
    Trivia ((literal.memberStyle options lineBreak inline line).sourceComment ++
      (literal.memberStyle options lineBreak inline line).newLeading) := by
  have leading :=
    @Appends.newLeading _ _ lineBreak inline line appends member inside new
      blank indent
  obtain ⟨closed, copied⟩ := appends some member inside new
  cases multiline : literal.isMultiline inline with
  | true =>
      simp only [memberStyle, multiline, if_true]
      rw [← List.append_assoc]
      refine Trivia.append (closed _) ?_
      cases found : literal.memberIndent? with
      | none => exact Trivia.append (.of_gaps blank) indent
      | some text => exact copied text found
  | false =>
      -- On one line, there is no comment that a line break ends.
      have flat : (literal.close.getD []).contains '\n' = false := by
        rw [isMultiline, Bool.or_eq_false_iff] at multiline
        cases closes : literal.close with
        | none => rfl
        | some close => simpa [closes] using multiline.1
      have none' :
          (literal.memberStyle options lineBreak inline line).sourceComment =
            [] :=
        Text.lineComment_of_flat flat
      rw [none', List.nil_append]
      exact leading

theorem printedClose_cases :
    literal.printedClose lineBreak inline line = literal.keptClose ∨
      literal.printedClose lineBreak inline line =
        literal.freshClose lineBreak inline line ∧
        (literal.close.isSome && !literal.leadings.isEmpty) = false := by
  cases closes : literal.close with
  | none => exact .inr ⟨by simp [printedClose, closes], rfl⟩
  | some close =>
      cases empty : literal.leadings.isEmpty with
      | false => exact .inl (by simp [printedClose, keptClose, closes, empty])
      | true =>
          cases blank : close.blank with
          | false => exact .inl (by simp [printedClose, keptClose, closes,
              empty, blank])
          | true =>
              exact .inr ⟨by simp [printedClose, closes, empty, blank], rfl⟩

/-- Without the comment that new members follow, trivia is left in front of the
brace. -/
theorem Printable.keptClose (printable : literal.Printable options) :
    Trivia literal.keptClose := by
  have complete := printable.spaced.close
  rw [ObjectLiteral.keptClose]
  split
  · next appended =>
      rw [hasAppended, Bool.and_eq_true] at appended
      obtain ⟨some, last⟩ := appended
      cases found : literal.members.getLast? with
      | none => simp [found] at last
      | some member =>
          have new : member.leading? = none := by simpa [found] using last
          have closed := (printable.appends (by simpa using some) member
            (List.mem_of_getLast? found) new).1
          exact complete.withoutLineComment closed
  · exact complete

theorem Printable.printedClose
    (printable : literal.Printable options) (blank : line.Blank) :
    Trivia (literal.printedClose lineBreak inline line) := by
  rcases @printedClose_cases literal lineBreak inline line with same | ⟨same, -⟩
  · rw [same]
    exact printable.keptClose
  · rw [same]
    exact .of_gaps (freshClose_gaps blank)

end ObjectLiteral

/-- What stands behind a member is read. -/
inductive Continuation.Reads : Text → Continuation → Text → Prop where
  | comma {others rest : Text} {literal : ObjectLiteral} :
      ReadsMembers true others literal rest →
      Continuation.Reads (',' :: others) (.comma literal) rest
  | brace {close rest : Text} :
      Trivia close →
      Continuation.Reads (close ++ '}' :: rest) (.brace close) rest

theorem ReadsNode.begins_object {text rest : Text} {literal : ObjectLiteral}
    (reads : ReadsNode text (.object literal) rest) : BeginsToken text := by
  cases reads with
  | object => exact skipTrivia_token (by decide) (by decide) _

theorem ReadsMembers.extend {leading text trailing tail rest : Text}
    {member : Member} {behind : Continuation} (complete : Trivia leading)
    (begins : Begins '}' text)
    (reads : ReadsMember leading text member (trailing ++ tail))
    (closed : Trivia trailing)
    (further : behind.Reads tail rest) (afterComma : Bool) :
    ReadsMembers afterComma (leading ++ text)
      (behind.extend trailing member) rest := by
  cases further with
  | comma further => exact .more complete begins reads closed further
  | brace ends =>
      rw [← List.append_assoc] at reads
      exact .last complete begins reads (closed.append ends)

theorem ReadsKey.begins
    {text rest : Text} {key : Key} (reads : ReadsKey text key rest) :
    Begins '}' text := by
  cases reads with
  | quoted quotes closes =>
      exact BeginsPlainly.begins (BeginsPlainly.of_quotes quotes) rfl
  | numeric starts all ends =>
      exact BeginsPlainly.begins
        (BeginsPlainly.of_numberStart (by simp [starts])) rfl
  | word starts all ends =>
      exact BeginsPlainly.begins (BeginsPlainly.of_identifierStart starts) rfl

theorem Key.Sound.readsMember {options : PrintOptions} {key : Key}
    {separator text rest : Text} {value : Expr}
    (sound : key.Sound options separator) (begins : BeginsToken text)
    (reads : ReadsValue true text value rest) (leading : Text) :
    ReadsMember leading (key.print options ++ (separator ++ text))
        (.property ⟨⟨key.name, some (key.print options)⟩, value,
          some ⟨leading, separator, []⟩⟩) rest ∧
      Begins '}' (key.print options ++ (separator ++ text)) := by
  obtain ⟨before, behind, rfl, first, second, readsKey⟩ := sound
  have readsKey := readsKey text
  refine ⟨?_, readsKey.begins⟩
  exact .property (by simpa using readsKey) first second begins reads

namespace Member

/-- Trivia stands around each of the members, and the tail behind the last. -/
def Ready (options : PrintOptions) (style : MemberStyle) (tail : Text) :
    Text → List Member → Prop
  | _, [] => True
  | comment, member :: others =>
      member.Sound options ∧
        Trivia (comment ++ member.leading?.getD style.newLeading) ∧
        Trivia member.trailing ∧ member.JoinsTo options member.trailing ∧
        (others = [] → member.JoinsTo options (member.trailing ++ tail)) ∧
        Ready options style tail (member.commentBehind style others) others

theorem ready_of
    {options : PrintOptions} {style : MemberStyle} {tail comment : Text}
    {members : List Member} (sound : ∀ member ∈ members, member.Sound options)
    (leadings : ∀ member ∈ members, ∀ leading ∈ member.leading?, Trivia leading)
    (trailings : ∀ member ∈ members, Trivia member.trailing ∧
      member.JoinsTo options member.trailing)
    (fresh : ∀ member ∈ members,
      member.leading? = none → Trivia style.newLeading)
    (follows : (∃ member ∈ members,
      member.leading?.isSome = true) → ∀ member ∈ members,
      member.leading? = none → Trivia (style.sourceComment ++ style.newLeading))
    (last : ∀ member ∈ members.getLast?,
      member.JoinsTo options (member.trailing ++ tail))
    (opens : ∀ member ∈ members.head?,
      Trivia (comment ++ member.leading?.getD style.newLeading)) :
    Ready options style tail comment members := by
  induction members generalizing comment with
  | nil => trivial
  | cons member others induction =>
      obtain ⟨complete, joins⟩ := trailings member List.mem_cons_self
      refine ⟨sound member List.mem_cons_self, opens member rfl, complete,
        joins, ?_, ?_⟩
      · rintro rfl
        exact last member rfl
      · apply induction
        · exact fun other inside => sound other (List.mem_cons_of_mem _ inside)
        · exact fun other inside =>
            leadings other (List.mem_cons_of_mem _ inside)
        · exact fun other inside =>
            trailings other (List.mem_cons_of_mem _ inside)
        · exact fun other inside => fresh other (List.mem_cons_of_mem _ inside)
        · rintro ⟨source, among, some⟩ other inside
          exact follows ⟨source, List.mem_cons_of_mem _ among, some⟩ other
            (List.mem_cons_of_mem _ inside)
        · intro other inside
          refine last other ?_
          rw [List.getLast?_cons, inside, Option.getD_some]
          rfl
        · intro other inside
          have among : other ∈ member :: others :=
            List.mem_cons_of_mem _ (List.mem_of_mem_head? inside)
          rw [commentBehind]
          split
          · next both =>
              rw [Bool.and_eq_true, List.all_eq_true] at both
              have new : other.leading? = none := by
                simpa using both.2 other (List.mem_of_mem_head? inside)
              rw [new]
              exact follows ⟨member, List.mem_cons_self, both.1⟩ other among new
          · cases found : other.leading? with
            | none => exact fresh other among found
            | some leading => exact leadings other among leading found

end Member

namespace ObjectLiteral

variable {literal : ObjectLiteral} {options : PrintOptions}
    {lineBreak : LineBreak} {inline : Bool} {line : Line}

/-- The last member of a printable literal keeps apart from what the printer
writes behind it. -/
theorem joinsTo_tail (printable : literal.Printable options)
    (blank : line.Blank) {member : Member}
    (inside : member ∈ literal.members.getLast?) (rest : Text) :
    member.JoinsTo options
      (member.trailing ++ literal.tail options lineBreak inline line rest) := by
  obtain ⟨-, joins⟩ :=
    printable.spaced.trailings member (List.mem_of_getLast? inside)
  have none' : ∀ character ∈ ([] : Text), isGap character = true := by simp
  rw [tail, lastComma]
  split
  · exact joins.before_delimiter none' (.inl rfl)
  · next noComma =>
      have notTrue : literal.trailingComma ≠ some true := by
        intro found
        simp [found] at noComma
      rw [List.nil_append]
      rcases @printedClose_cases literal lineBreak inline line with
        same | ⟨same, -⟩
      · have whole := printable.spaced.last notTrue member inside
        rw [same, ← List.append_assoc]
        exact whole.before_delimiter none' (.inr rfl)
      · rw [same]
        exact joins.before_delimiter (freshClose_gaps blank) (.inr rfl)

/-- The members of a printable literal are read where the printer puts them. -/
theorem Printable.ready
    (printable : literal.Printable options) (blank : line.Blank) (rest : Text) :
    Member.Ready options (literal.memberStyle options lineBreak inline line)
      (literal.tail options lineBreak inline line rest) [] literal.members := by
  obtain ⟨sound, spaced, appends, indents⟩ := printable
  have leadings :
      ∀ member ∈ literal.members, ∀ leading ∈ member.leading?, Trivia leading :=
    fun member inside leading found =>
      spaced.leadings leading (List.mem_filterMap.2 ⟨member, inside, found⟩)
  have fresh : ∀ member ∈ literal.members, member.leading? = none →
      Trivia (literal.memberStyle options lineBreak inline line).newLeading :=
    fun member inside new =>
      appends.newLeading inside new blank (indents ⟨member, inside, new⟩)
  refine Member.ready_of sound leadings spaced.trailings fresh ?_ ?_ ?_
  · rintro ⟨source, among, some⟩ member inside new
    refine appends.sourceComment ?_ inside new blank
      (indents ⟨member, inside, new⟩)
    obtain ⟨leading, found⟩ := Option.isSome_iff_exists.1 some
    exact List.ne_nil_of_mem (List.mem_filterMap.2 ⟨source, among, found⟩)
  · exact fun member inside =>
      joinsTo_tail ⟨sound, spaced, appends, indents⟩ blank inside rest
  · intro member first
    have among := List.mem_of_mem_head? first
    rw [List.nil_append]
    cases found : member.leading? with
    | none => exact fresh member among found
    | some leading => exact leadings member among leading found

end ObjectLiteral

/-- The brace of a printable literal is read, with the comma before it. -/
theorem ObjectLiteral.Printable.behind
    {literal : ObjectLiteral} {options : PrintOptions}
    (printable : literal.Printable options) {line : Line} (blank : line.Blank)
    (lineBreak : LineBreak) (inline : Bool) (rest : Text) :
    (literal.behind options lineBreak inline line).Reads
      (literal.tail options lineBreak inline line rest) rest := by
  have complete := @printable.printedClose _ _ lineBreak inline line blank
  rw [ObjectLiteral.tail, ObjectLiteral.behind, ObjectLiteral.lastComma]
  split
  · exact .comma (.close complete)
  · exact .brace complete

mutual

/-- The print of a printable literal is read back. -/
theorem Expr.exists_readsNode {options : PrintOptions} {value : Expr}
    {literal : ObjectLiteral} (same : value = .object literal)
    (every : value.Every (ObjectLiteral.Printable options))
    {line : Line} (blank : line.Blank) {lineBreak : LineBreak} {inline : Bool}
    {rest : Text} (settled : value.Settled options lineBreak inline line rest) :
    ∃ node, ReadsNode (value.printFrom options lineBreak inline line ++ rest)
      (.object node) rest ∧
      value.RereadAs options (.object node) := by
  match value with
  | .object ⟨[], close, trailingComma⟩ =>
      have complete := every.1.spaced.close
      refine ⟨⟨[], some (close.getD []), none⟩, ?_, rfl⟩
      have read : ReadsNode ('{' :: (close.getD [] ++ '}' :: rest)) _ rest :=
        .object (.close complete)
      simpa [Expr.printFrom] using read
  | .object ⟨member :: others, close, trailingComma⟩ =>
      obtain ⟨printable, all⟩ := every
      have ready := @printable.ready _ _ lineBreak inline line blank rest
      have behind := printable.behind blank lineBreak inline rest
      have inside : (line.push '{').Blank := by
        have further := blank.after ['{']
        exact further
      obtain ⟨text, node, printed, reads, reread⟩ :=
        Member.exists_readsMembers [] (List.cons_ne_nil member others) all ready
          behind inside settled
      have read := ReadsNode.object (reads false)
      have more : node.members.isEmpty = false := by
        obtain ⟨other, next, -, -, same⟩ := reread
        cases same
        cases next <;> rfl
      have whole : Expr.printFrom options lineBreak inline line
          (.object ⟨member :: others, close, trailingComma⟩) ++ rest =
          '{' :: text := by
        simp only [List.nil_append] at printed
        rw [Expr.printFrom_object (List.cons_ne_nil member others), ← printed]
        simp [ObjectLiteral.tail]
      -- Object literals are nested in expressions, so that they are taken apart
      -- by cases only.
      cases node
      simp only [more, Bool.false_eq_true, if_false] at read
      rw [← whole] at read
      exact ⟨_, read, _, lineBreak, inline, line, rfl,
        (List.append_cancel_right read.split.2).symm, reread⟩

theorem Member.exists_readsMembers
    {options : PrintOptions} {style : MemberStyle}
    {comment tail rest : Text} {members : List Member} {last : Continuation}
    (separator : Text) (more : members ≠ [])
    (all : Member.AllEvery (ObjectLiteral.Printable options) members)
    (ready : Member.Ready options style tail comment members)
    (ends : last.Reads tail rest)
    {line : Line} (blank : line.Blank) {lineBreak : LineBreak} {inline : Bool}
    (settled : Member.AllSettled options lineBreak inline style line
      (separator ++ comment) tail members) :
    ∃ text node,
      Member.printList options lineBreak inline style line
        (separator ++ comment) members ++ tail = separator ++ text ∧
      (∀ afterComma, ReadsMembers afterComma text node rest) ∧
      Member.AllRereadAs options style last comment members (.comma node) := by
  match members with
  | member :: others =>
      obtain ⟨sound, leading, trailing, joins, final, further⟩ := ready
      obtain ⟨first, second⟩ := Member.allEvery_cons.1 all
      obtain ⟨settled, settled'⟩ := settled
      -- What is printed behind the member, from its comma or the brace on.
      obtain ⟨tail', next, printed, reads', reread', joins⟩ : ∃ tail' next,
          Member.printList options lineBreak inline
            style (line.after (separator ++ comment ++
              Member.printFrom options lineBreak inline
                style (line.after (separator ++ comment)) member))
            (',' :: member.commentBehind style others) others ++ tail = tail' ∧
          next.Reads tail' rest ∧
          Member.AllRereadAs options style last
            (member.commentBehind style others) others next ∧
          member.JoinsTo options (member.trailing ++ tail') := by
        by_cases empty : others = []
        · subst empty
          exact ⟨tail, last, rfl, ends, rfl, final rfl⟩
        · obtain ⟨text, node, printed, reads, reread⟩ :=
            Member.exists_readsMembers [','] empty second further ends
              (blank.after _) settled'
          have none' :
              ∀ character ∈ ([] : Text), isGap character = true := by simp
          exact ⟨_, .comma node, printed, .comma (reads true), reread,
            joins.before_delimiter none' (.inl rfl)⟩
      rw [printed] at settled
      have stops : EndsMember (member.trailing ++ tail') := by
        cases reads' with
        | comma => exact .of_trivia trailing (.inl rfl)
        | brace complete =>
            rw [← List.append_assoc]
            exact .of_trivia (trailing.append complete) (.inr rfl)
      obtain ⟨body, other, same, begins, reads, reread⟩ :=
        Member.exists_readsMember first sound
          (sound.readsBefore stops joins settled.settledBefore) stops.stops
          (blank.after (separator ++ comment)) settled
          (comment ++ member.leading?.getD style.newLeading)
      refine ⟨comment ++ member.leading?.getD style.newLeading ++
        (body ++ (member.trailing ++ tail')),
        next.extend member.trailing other, ?_, ?_,
        other, next, reread, reread', rfl⟩
      · rw [Member.printList]
        simp only [Member.commentBehind] at printed
        rw [List.append_assoc, printed, same]
        simp
      · exact ReadsMembers.extend leading begins reads trailing reads'

theorem Member.exists_readsMember {options : PrintOptions} {style : MemberStyle}
    {tail : Text} {member : Member}
    (all : Member.AllEvery (ObjectLiteral.Printable options) [member])
    (sound : member.Sound options)
    (reads : member.ReadsBefore options (member.trailing ++ tail))
    (stops : Stops (member.trailing ++ tail))
    {line : Line} (blank : line.Blank) {lineBreak : LineBreak} {inline : Bool}
    (settled : member.Settled options lineBreak inline style line tail)
    (leading : Text) :
    ∃ body other, Member.printFrom options lineBreak inline style line member =
        member.leading?.getD style.newLeading ++ (body ++ member.trailing) ∧
      Begins '}' (body ++ (member.trailing ++ tail)) ∧
      ReadsMember leading (body ++ (member.trailing ++ tail)) other
        (member.trailing ++ tail) ∧
      member.RereadAs options leading other := by
  match member with
  | .written member =>
      obtain ⟨begins, reads⟩ := reads
      refine ⟨member.text, _, ?_, begins, reads leading, rfl⟩
      simp [Member.printFrom, Member.leading?, Member.trailing]
  | .property ⟨key, value, layout⟩ =>
      obtain ⟨keySound, leaf⟩ := sound
      simp only [Member.trailing] at reads stops ⊢
      generalize behind : (layout.map Layout.trailing).getD [] ++ tail = rest
        at reads stops ⊢
      have item : ∃ text inner, BeginsToken (text ++ rest) ∧
          Expr.printFrom options lineBreak inline
            (line.after ((layout.map Layout.leading).getD style.newLeading ++
              key.print options ++
              (layout.map Layout.separator).getD [':', ' '])) value = text ∧
          ReadsValue true (text ++ rest) inner rest ∧
          value.RereadAs options inner := by
        by_cases isObject : value.IsObject
        · obtain ⟨literal, same⟩ := isObject
          rw [Member.Settled, behind] at settled
          obtain ⟨node, read, reread⟩ :=
            Expr.exists_readsNode same all.1 (blank.after _) settled
          exact ⟨_, _, read.begins_object, rfl, .node read fun _ => stops,
            reread⟩
        · obtain ⟨begins, other, reads, found⟩ := reads.resolve_left isObject
          have reread : value.RereadAs options other :=
            .of_leaf isObject
              (List.append_cancel_right reads.split.2).symm found
          exact ⟨_, other, begins, (leaf.resolve_left isObject).fixed _ _ _,
            reads, reread⟩
      obtain ⟨text, inner, begins, same, read, reread⟩ := item
      obtain ⟨read, begins⟩ := keySound.readsMember begins read leading
      refine ⟨key.print options ++
        ((layout.map Layout.separator).getD [':', ' '] ++ text), _,
        ?_, by simpa using begins, by simpa using read, inner, reread, rfl⟩
      rw [Member.printFrom]
      simp only [same]
      simp [Member.leading?]

end

end ConfigEdit
