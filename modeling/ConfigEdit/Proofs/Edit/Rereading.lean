import ConfigEdit.Proofs.Document.Reprint
import ConfigEdit.Proofs.Edit.Frame

/-!
# Sources in a print that is read back

What comes from a text is read with its source when it is printed again,
whatever is new around it.  A new member behind it is read behind the comment
that stood in front of the brace.
-/

namespace ConfigEdit

/-- The text that is read from a comma or the text in front of a brace on. -/
def Continuation.source : Continuation → Text
  | .comma literal => Member.sources [','] literal.members ++ literal.ending
  | .brace close => close ++ ['}']

/-- A literal with more members in front. -/
def ObjectLiteral.prepend (left : List Member)
    (literal : ObjectLiteral) : ObjectLiteral :=
  ⟨left ++ literal.members, literal.close, literal.trailingComma⟩

section Reread

variable {options : PrintOptions} {style : MemberStyle}

/-- A literal with members is read as a literal with the prints of its
members. -/
theorem Expr.RereadAs.exists_members {literal : ObjectLiteral} {other : Expr}
    (reread : (Expr.object literal).RereadAs options other)
    (more : literal.members ≠ []) :
    ∃ node lineBreak inline line, other = .object node ∧
      (Expr.object node).source =
        (Expr.object literal).printFrom options lineBreak inline line ∧
      Member.AllRereadAs options
        (literal.memberStyle options lineBreak inline line)
        (literal.behind options lineBreak inline line) [] literal.members
        (.comma node) := by
  match literal with
  | ⟨[], close, trailingComma⟩ => contradiction
  | ⟨member :: others, close, trailingComma⟩ => exact reread

theorem Expr.RereadAs.exists_object {literal : ObjectLiteral} {other : Expr}
    (reread : (Expr.object literal).RereadAs options other) :
    ∃ node, other = .object node := by
  match literal with
  | ⟨[], close, trailingComma⟩ => exact ⟨_, reread⟩
  | ⟨member :: others, close, trailingComma⟩ =>
      obtain ⟨node, lineBreak, inline, line, same, -⟩ := reread
      exact ⟨node, same⟩

theorem Expr.RereadAs.source_eq
    {value other : Expr} (reread : value.RereadAs options other)
    (fromText : value.FromText) : other.source = value.source := by
  match value with
  | .object ⟨[], close, trailingComma⟩ =>
      cases reread
      obtain rfl : trailingComma = none := by simpa using fromText.2.2
      rfl
  | .object ⟨member :: others, close, trailingComma⟩ =>
      obtain ⟨node, lineBreak, inline, line, rfl, printed, -⟩ := reread
      rw [printed, fromText.printFrom_eq]
  | .call _ | .number _ | .string _ _ | .boolean _ | .verbatim _ =>
      rw [reread.1, Expr.print, fromText.printFrom_eq]

theorem Expr.RereadAs.not_isObject
    {value other : Expr} (reread : value.RereadAs options other)
    (different : ¬ value.IsObject) : ¬ other.IsObject := by
  rintro ⟨literal, rfl⟩
  have same := reread.valueIn
  rw [Expr.valueIn_object] at same
  exact Expr.valueIn_ne_object (fun literal same => different ⟨literal, same⟩)
    options _ same.symm

namespace Member.RereadAs

variable {leading : Text} {member other : Member}

theorem parts (reread : member.RereadAs options leading other) :
    other.name? = member.name? ∧ other.leading? = some leading ∧
    other.trailing = [] := by
  cases member with
  | written member =>
      cases reread
      exact ⟨rfl, rfl, rfl⟩
  | property entry =>
      cases entry
      obtain ⟨inner, -, rfl⟩ := reread
      exact ⟨rfl, rfl, rfl⟩

theorem body_eq (reread : member.RereadAs options leading other)
    (fromText : member.FromText) :
    other.body = member.body := by
  cases member with
  | written member =>
      cases reread
      rfl
  | property entry =>
      obtain ⟨key, value, layout⟩ := entry
      obtain ⟨inner, reread, rfl⟩ := reread
      obtain ⟨raw, kept, below⟩ := fromText
      obtain ⟨raw, written⟩ := Option.isSome_iff_exists.1 raw
      obtain ⟨layout, rfl⟩ := Option.isSome_iff_exists.1 kept
      simp [Member.body, reread.source_eq below, Key.print, written]

end Member.RereadAs

namespace Member

variable {member : Member} {trailing : Text}

@[simp] theorem name?_withTrailing :
    (member.withTrailing trailing).name? = member.name? := by
  cases member <;> rfl

theorem withTrailing_nil (none' : member.trailing = []) :
    member.withTrailing [] = member := by
  cases member with
  | property entry =>
      obtain ⟨key, value, layout⟩ := entry
      cases layout with
      | none => rfl
      | some layout =>
          obtain ⟨leading, separator, trailing⟩ := layout
          cases none'
          rfl
  | written member =>
      cases member
      cases none'
      rfl

end Member

namespace Continuation

variable {trailing between : Text} {member : Member} {behind : Continuation}

theorem source_extend
    (kept : member.leading?.isSome = true) (none' : member.trailing = []) :
    Member.sources between (behind.extend trailing member).members ++
        (behind.extend trailing member).ending =
      between ++
        (member.leading ++ (member.body ++ (trailing ++ behind.source))) := by
  cases behind with
  | comma literal =>
      have ending : (extend trailing member (.comma literal)).ending =
          literal.ending := rfl
      rw [ending]
      simp [extend, source, Member.sources, Member.trailing_withTrailing kept]
  | brace close =>
      simp [extend, source, Member.sources, none', ObjectLiteral.ending]

theorem names_extend :
    (behind.extend trailing member).members.map Member.name? =
      member.name? :: behind.members.map Member.name? := by
  cases behind with
  | comma literal => cases member <;> rfl
  | brace close => rfl

end Continuation

namespace Member

variable {last behind : Continuation} {comment : Text} {members : List Member}

theorem commentBehind_cons {next : Member} (kept : next.leading?.isSome = true)
    (member : Member) (others : List Member) :
    member.commentBehind style (next :: others) = [] := by
  have notNew : next.leading?.isNone = false := by
    simpa [Option.isNone_eq_false_iff] using kept
  simp [commentBehind, notNew]

theorem AllFromText.commentBehind_eq
    (fromText : AllFromText members) (member : Member) :
    members = [] ∨ member.commentBehind style members = [] := by
  cases members with
  | nil => exact .inl rfl
  | cons next others =>
      exact .inr (commentBehind_cons fromText.1.leading?_isSome _ _)

theorem AllRereadAs.names
    (reread : AllRereadAs options style last comment members behind) :
    behind.members.map name? = members.map name? ++ last.members.map name? := by
  induction members generalizing comment behind with
  | nil =>
      cases reread
      rfl
  | cons member others induction =>
      obtain ⟨other, next, first, further, rfl⟩ := reread
      rw [Continuation.members, Continuation.names_extend, induction further,
        first.parts.1]
      rfl

theorem AllRereadAs.source_eq (fromText : AllFromText members)
    (apart : members = [] ∨ comment = [])
    (reread : AllRereadAs options style last comment members behind) :
    behind.source = sources [','] members ++ last.source := by
  induction members generalizing comment behind with
  | nil =>
      cases reread
      rfl
  | cons member others induction =>
      obtain ⟨other, next, first, further, rfl⟩ := reread
      obtain ⟨fromText, allFromText⟩ := fromText
      obtain rfl : comment = [] := apart.resolve_left (List.cons_ne_nil _ _)
      obtain ⟨leading, known⟩ :=
        Option.isSome_iff_exists.1 fromText.leading?_isSome
      obtain ⟨-, leading', none'⟩ := first.parts
      have source :=
        induction allFromText (allFromText.commentBehind_eq member) further
      have whole := @Continuation.source_extend member.trailing [','] _ next
        (by rw [leading']; rfl) none'
      rw [Continuation.source, whole, source]
      simp [Member.sources, Member.leading, leading', first.body_eq fromText,
        known]

/-- Members that come from a text are read in front of one that may be new. -/
theorem AllRereadAs.split {left right : List Member} {member : Member}
    (fromText : AllFromText left) (apart : left = [] ∨ comment = [])
    (reread :
      AllRereadAs options style last comment (left ++ member :: right) behind) :
    ∃ carried kept other next,
      carried = (if left = [] then comment
        else if (member :: right).all fun other => other.leading?.isNone
          then style.sourceComment else []) ∧
      member.RereadAs options
        (carried ++ member.leading?.getD style.newLeading) other ∧
      AllRereadAs options style last
        (member.commentBehind style right) right next ∧
      behind = .comma ((next.extend member.trailing other).prepend kept) ∧
      kept.map name? = left.map name? ∧
      ∀ between, sources between kept = sources between left := by
  induction left generalizing comment behind with
  | nil =>
      obtain ⟨other, next, first, further, rfl⟩ := reread
      exact ⟨comment, [], other, next, rfl, first, further,
        by cases next <;> rfl, rfl,
        fun _ => rfl⟩
  | cons front left induction =>
      obtain ⟨frontText, leftText⟩ := fromText
      obtain ⟨other, next, first, further, rfl⟩ := reread
      obtain rfl : comment = [] := apart.resolve_left (List.cons_ne_nil _ _)
      have apart : left = [] ∨
          front.commentBehind style (left ++ member :: right) = [] := by
        cases left with
        | nil => exact .inl rfl
        | cons next others =>
            exact .inr (commentBehind_cons leftText.1.leading?_isSome _ _)
      obtain ⟨carried, kept, inner, behind, comment, member', right', rfl,
          names, source⟩ :=
        induction leftText apart further
      refine ⟨carried, other.withTrailing front.trailing :: kept, inner, behind,
        ?_, member', right', rfl, ?_, ?_⟩
      · rw [comment, if_neg (List.cons_ne_nil _ _)]
        split
        · next none' => simp [none', commentBehind, frontText.leading?_isSome]
        · rfl
      · simp [names, first.parts.1]
      · intro between
        have kept := first.parts.2.1
        obtain ⟨old, known⟩ :=
          Option.isSome_iff_exists.1 frontText.leading?_isSome
        have leading : other.leading = front.leading := by
          simp [Member.leading, kept, known]
        rw [sources, sources, source, trailing_withTrailing (by rw [kept]; rfl)]
        simp [leading, first.body_eq frontText]

end Member

end Reread

section Behind

variable {literal : ObjectLiteral} {options : PrintOptions}
    {lineBreak : LineBreak}
    {inline : Bool} {line : Line} {close : Text} {comma : Bool}

/-- The comment that is carried over to a new member is the one on its line. -/
theorem ObjectLiteral.lineComment_newLeading
    (closed : literal.close = some close) (noReturn : '\r' ∉ close) :
    (close.lineComment ++
      (literal.memberStyle options lineBreak inline
        line).newLeading).lineComment =
        close.lineComment := by
  rw [memberStyle]
  cases multiline : literal.isMultiline inline with
  | true => exact Text.lineComment_lineComment noReturn _ _
  | false =>
      -- On one line, there is no comment that a line break ends.
      have flat : close.contains '\n' = false := by
        rw [isMultiline, Bool.or_eq_false_iff] at multiline
        simpa [closed] using multiline.1
      rw [Text.lineComment_of_flat flat]
      rfl

theorem ObjectLiteral.behind_of_kept (kept : ∀ member ∈ literal.members,
    member.leading?.isSome = true) (more : literal.members ≠ [])
    (closed : literal.close = some close)
    (trailing : literal.trailingComma = some comma) :
    (literal.behind options lineBreak inline line).source = literal.ending := by
  have last : (literal.members.getLast?.any fun last => last.leading?.isNone) =
      false := by
    rw [List.getLast?_eq_some_getLast more]
    simpa [Option.isNone_eq_false_iff] using kept _ (List.getLast_mem more)
  have brace :=
    @printedClose_of_kept literal lineBreak inline line _ _ (List.head_mem more)
      (kept _ (List.head_mem more)) closed
  rw [last] at brace
  rw [behind, lastComma_of_some trailing, brace, ending, closed, trailing]
  cases comma <;> simp [Continuation.source, Member.sources, ending]

/-- The brace behind a new member gives up the comment on its line. -/
theorem ObjectLiteral.extend_behind {left : List Member} {new other : Member}
    (kept : ∀ member ∈ left, member.leading?.isSome = true) (more : left ≠ [])
    (fresh : new.leading? = none) (none' : other.trailing = []) :
    (ObjectLiteral.behind ⟨left ++ [new], some close, some comma⟩ options
      lineBreak inline line).extend [] other =
      ⟨[other], some close.withoutLineComment, some comma⟩ := by
  have brace := @printedClose_of_kept ⟨left ++ [new], some close, some comma⟩
    lineBreak inline line close _ (List.mem_append_left _ (List.head_mem more))
    (kept _ (List.head_mem more)) rfl
  rw [List.getLast?_append_of_ne_nil _ (List.cons_ne_nil _ _),
    List.getLast?_singleton, Option.any_some, fresh] at brace
  rw [behind, lastComma_of_some rfl, brace]
  cases comma with
  | true => simp [Continuation.extend, Member.withTrailing_nil none']
  | false => simp [Continuation.extend]

end Behind

section Members

variable {options : PrintOptions} {leaf : Text} {value : Expr}

/-- A new member behind members that come from a text is read behind the comment
of the brace. -/
theorem Expr.RereadAs.exists_last
    {members : List Member} {close : Text} {comma : Bool} {node : ObjectLiteral}
    (fromText : Member.AllFromText members) (noReturn : '\r' ∉ close)
    (more : members ≠ []) (different : ¬ value.IsObject)
    (reread :
      (Expr.object ⟨members ++ [.property (.ofValue leaf value)], some close,
        some comma⟩).RereadAs options (.object node)) :
    ∃ kept raw inner layout,
      node = ⟨kept ++ [.property ⟨⟨leaf, raw⟩, inner, some layout⟩],
        some close.withoutLineComment, some comma⟩ ∧
      ¬ inner.IsObject ∧ layout.leading.lineComment = close.lineComment ∧
        kept.map Member.name? = members.map Member.name? ∧
        ∀ between,
          Member.sources between kept = Member.sources between members := by
  obtain ⟨_, lineBreak, inline, line, same, -, reread⟩ :=
    reread.exists_members (by simp)
  cases same
  obtain ⟨carried, kept, other, next, comment, first, rfl, same, names,
      source⟩ :=
    reread.split fromText (.inr rfl)
  obtain rfl : carried = close.lineComment := comment.trans <| by
    simp [more, Member.leading?, Property.ofValue, ObjectLiteral.memberStyle]
  obtain ⟨inner, below, rfl⟩ := first
  have trailing : (Member.property (.ofValue leaf value)).trailing = [] := rfl
  rw [trailing,
    ObjectLiteral.extend_behind fromText.leading?_isSome more rfl rfl] at same
  cases same
  exact ⟨kept, _, inner, _, rfl, below.not_isObject different,
    ObjectLiteral.lineComment_newLeading rfl noReturn, names, source⟩

/-- An object literal among members that come from a text is read among their
sources. -/
theorem Expr.RereadAs.exists_inner {left right : List Member} {key : Key}
    {inner node : ObjectLiteral} {layout : Layout} {close : Text} {comma : Bool}
    (leftText : Member.AllFromText left) (rightText : Member.AllFromText right)
    (reread : (Expr.object
      ⟨left ++ .property ⟨key, .object inner, some layout⟩ :: right,
        some close, some comma⟩).RereadAs options (.object node)) :
    ∃ (kept : List Member) (below : ObjectLiteral) (next : Continuation),
      (Expr.object inner).RereadAs options (.object below) ∧
      node = .prepend kept (next.extend layout.trailing (.property ⟨⟨key.name,
        some (key.print options)⟩,
        .object below, some ⟨layout.leading, layout.separator, []⟩⟩)) ∧
      kept.map Member.name? = left.map Member.name? ∧
      next.members.map Member.name? = right.map Member.name? ∧
      (∀ between, Member.sources between kept = Member.sources between left) ∧
      next.source = Member.sources [','] right ++
        ObjectLiteral.ending ⟨right, some close, some comma⟩ := by
  obtain ⟨_, lineBreak, inline, line, same, -, reread⟩ :=
    reread.exists_members (by simp)
  cases same
  obtain ⟨carried, kept, other, next, comment, first, further, same, names,
      source⟩ :=
    reread.split leftText (.inr rfl)
  obtain rfl : carried = [] := comment.trans <| by
    simp [Member.leading?]
  obtain ⟨below, reread', rfl⟩ := first
  obtain ⟨below, rfl⟩ := reread'.exists_object
  cases same
  have kept' :
      ∀ member ∈ left ++ .property ⟨key, .object inner, some layout⟩ :: right,
        member.leading?.isSome = true :=
    List.forall_mem_append.2 ⟨leftText.leading?_isSome,
      List.forall_mem_cons.2 ⟨rfl, rightText.leading?_isSome⟩⟩
  have ending := further.source_eq rightText (rightText.commentBehind_eq _)
  rw [ObjectLiteral.behind_of_kept kept' (by simp) rfl rfl] at ending
  refine ⟨kept, below, next, reread', rfl, names, ?_, source, ending⟩
  rw [further.names, ObjectLiteral.members_behind]
  simp

end Members

theorem Expr.source_prepend (left : List Member) (literal : ObjectLiteral) :
    (Expr.object (literal.prepend left)).source =
      '{' :: (Member.sources [] left ++
        (Member.sources (Member.commaBehind left) literal.members ++
          literal.ending)) := by
  rw [Expr.source_object_eq, ObjectLiteral.prepend, Member.sources_append]
  simp [ObjectLiteral.ending]

theorem Expr.source_middle
    {left right : List Member} {key : Key} {inner : ObjectLiteral}
    {layout : Layout} {close : Option Text} {trailingComma : Option Bool} :
    (Expr.object
      ⟨left ++ .property ⟨key, .object inner, some layout⟩ :: right, close,
        trailingComma⟩).source = '{' ::
      (Member.sources [] left ++ (Member.commaBehind left ++ (layout.leading ++
        (key.raw.getD [] ++ (layout.separator ++ ((Expr.object inner).source ++
          (layout.trailing ++ (Member.sources [','] right ++
            ObjectLiteral.ending ⟨right, close, trailingComma⟩)))))))) := by
  rw [Expr.source_object_eq, Member.sources_append]
  simp [Member.sources, Member.leading, Member.leading?, Member.body,
    Member.trailing, ObjectLiteral.ending]

end ConfigEdit
