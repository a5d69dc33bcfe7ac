import ConfigEdit.Proofs.Document.Leaves
import ConfigEdit.Proofs.Document.Printable

/-!
# How a print is read

The tree that is read of a print has the shape of the printed one, and keeps the
texts that the printer put between the members.  `Expr.RereadAs` relates the
two.  Of a leaf only its value and its text are known, since a new call may be
read as a call or as an expression that is kept as it is written.
-/

namespace ConfigEdit

/-- What stands behind a member: a comma with the members behind it, or the
brace with the text in front of it. -/
inductive Continuation where
  | comma (literal : ObjectLiteral)
  | brace (close : Text)

/-- The literal that is read of a member and what stands behind it. -/
def Continuation.extend (trailing : Text) (member : Member) :
    Continuation → ObjectLiteral
  | .comma literal =>
      { literal with
        members := member.withTrailing trailing :: literal.members }
  | .brace close => ⟨[member], some (trailing ++ close), some false⟩

/-- The members that stand behind. -/
def Continuation.members : Continuation → List Member
  | .comma literal => literal.members
  | .brace _ => []

/-- What is printed behind the last member. -/
def ObjectLiteral.behind (literal : ObjectLiteral) (options : PrintOptions)
    (lineBreak : LineBreak) (inline : Bool) (line : Line) : Continuation :=
  if literal.lastComma options inline = [] then
    .brace (literal.printedClose lineBreak inline line)
  else .comma ⟨[], some (literal.printedClose lineBreak inline line), some true⟩

theorem ObjectLiteral.members_behind
    (literal : ObjectLiteral) {options : PrintOptions}
    {lineBreak : LineBreak} {inline : Bool} {line : Line} :
    (literal.behind options lineBreak inline line).members = [] := by
  rw [behind]
  split <;> rfl

mutual

/-- The print of the first expression is read as the second one. -/
def Expr.RereadAs (options : PrintOptions) : Expr → Expr → Prop
  | .object ⟨[], close, _⟩, other =>
      other = .object ⟨[], some (close.getD []), none⟩
  | .object ⟨member :: others, close, trailingComma⟩, other =>
      let literal : ObjectLiteral := ⟨member :: others, close, trailingComma⟩
      ∃ node lineBreak inline line, other = .object node ∧
        (Expr.object node).source =
          (Expr.object literal).printFrom options lineBreak inline line ∧
        Member.AllRereadAs options
          (literal.memberStyle options lineBreak inline line)
          (literal.behind options lineBreak inline line) [] (member :: others)
          (.comma node)
  | value, other =>
      other.source = value.print options ∧
        other.valueIn .standard = value.valueIn options

/-- The prints of members, the first of them behind a comment, are read with
what stands behind the last one. -/
def Member.AllRereadAs (options : PrintOptions) (style : MemberStyle)
    (last : Continuation) (comment : Text) : List Member → Continuation → Prop
  | [], behind => behind = last
  | member :: others, behind =>
      ∃ other next,
        Member.RereadAs options
          (comment ++ member.leading?.getD style.newLeading) member other ∧
        Member.AllRereadAs options style last
          (member.commentBehind style others) others next ∧
        behind = .comma (next.extend member.trailing other)

/-- The print of the first member is read as the second one, with the given text
before it. -/
def Member.RereadAs (options : PrintOptions) (leading : Text) :
    Member → Member → Prop
  | .written member, other =>
      other = .written ⟨member.name, member.text, leading, []⟩
  | .property ⟨key, value, layout⟩, other =>
      ∃ inner, value.RereadAs options inner ∧
        other = .property ⟨⟨key.name, some (key.print options)⟩, inner,
          some ⟨leading, (layout.map Layout.separator).getD [':', ' '], []⟩⟩

end

theorem Expr.RereadAs.of_leaf {options : PrintOptions} {value other : Expr}
    (leaf : ¬ value.IsObject) (source : other.source = value.print options)
    (values : other.valueIn .standard = value.valueIn options) :
    value.RereadAs options other := by
  cases value with
  | object literal => exact absurd ⟨literal, rfl⟩ leaf
  | call _ | number _ | string _ _ | boolean _ | verbatim _ =>
      exact ⟨source, values⟩

theorem Continuation.entriesIn_extend (options : PrintOptions) (trailing : Text)
    (member : Member) (behind : Continuation) :
    Member.entriesIn options (behind.extend trailing member).members =
      Member.entriesIn options [member] ++
        Member.entriesIn options behind.members := by
  cases behind with
  | comma literal =>
      rw [extend, Member.entriesIn_cons, Member.entriesIn_withTrailing]
      rfl
  | brace close => simp [extend, members, Member.entriesIn]

mutual

theorem Expr.RereadAs.valueIn {options : PrintOptions} {value other : Expr}
    (reread : value.RereadAs options other) :
    other.valueIn .standard = value.valueIn options := by
  match value with
  | .object ⟨[], close, trailingComma⟩ =>
      cases reread
      rfl
  | .object ⟨member :: others, close, trailingComma⟩ =>
      obtain ⟨node, lineBreak, inline, line, rfl, -, members⟩ := reread
      have entries :=
        Member.AllRereadAs.entriesIn (ObjectLiteral.members_behind _) members
      rw [Expr.valueIn_object, Expr.valueIn_object, ← entries]
      rfl
  | .call _ | .number _ | .string _ _ | .boolean _ | .verbatim _ =>
      exact reread.2

theorem Member.AllRereadAs.entriesIn
    {options : PrintOptions} {style : MemberStyle}
    {last behind : Continuation} {comment : Text} {members : List Member}
    (empty : last.members = [])
    (reread : Member.AllRereadAs options style last comment members behind) :
    Member.entriesIn .standard behind.members =
      Member.entriesIn options members := by
  match members with
  | [] =>
      cases reread
      rw [empty]
      rfl
  | member :: others =>
      obtain ⟨other, next, first, further, rfl⟩ := reread
      have entries :=
        Continuation.entriesIn_extend .standard member.trailing other next
      rw [Continuation.members, entries, Member.RereadAs.entriesIn first,
        Member.AllRereadAs.entriesIn empty further, ← Member.entriesIn_cons]

theorem Member.RereadAs.entriesIn {options : PrintOptions} {leading : Text}
    {member other : Member} (reread : member.RereadAs options leading other) :
    Member.entriesIn .standard [other] = Member.entriesIn options [member] := by
  match member with
  | .written member =>
      cases reread
      rfl
  | .property ⟨key, value, layout⟩ =>
      obtain ⟨inner, value, rfl⟩ := reread
      rw [Member.entriesIn, Member.entriesIn, value.valueIn]
      rfl

end

end ConfigEdit
