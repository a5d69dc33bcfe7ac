import ConfigEdit.Proofs.Document.Layout
import ConfigEdit.Proofs.Document.Leaves
import ConfigEdit.Proofs.Text.Line

/-!
# Trees that are printed so that they can be read

An edit puts new nodes between nodes that come from a text, and moves the text
around these.  The conditions under which the print of an object literal is
read back are stated for one literal at a time, and `Expr.Every` asks for them
in each object literal of a tree:

* `Sound`: the keys and the values can be read;
* `Spaced`: trivia stands between the members, and it begins no comment
  together with the end of a value;
* `Appends`: the comment that new members follow ends on its line, and what
  they are indented with is trivia.

Whether an angled value is read back depends on all of the text behind it.
`Expr.Settled` asks for this where the printer puts the values.
-/

namespace ConfigEdit

mutual

/-- A property of each object literal of an expression that stands in the place
of a value. -/
def Expr.Every (property : ObjectLiteral → Prop) : Expr → Prop
  | .object ⟨members, close, trailingComma⟩ =>
      property ⟨members, close, trailingComma⟩ ∧
        Member.AllEvery property members
  | .call _ | .number _ | .string _ _ | .boolean _ | .verbatim _ => True

/-- A property of each object literal of some members. -/
def Member.AllEvery (property : ObjectLiteral → Prop) : List Member → Prop
  | [] => True
  | .property ⟨_, value, _⟩ :: others =>
      value.Every property ∧ Member.AllEvery property others
  | .written _ :: others => Member.AllEvery property others

end

theorem Expr.every_object
    {property : ObjectLiteral → Prop} {literal : ObjectLiteral} :
    (Expr.object literal).Every property ↔
      property literal ∧ Member.AllEvery property literal.members := by
  cases literal
  exact Iff.rfl

mutual

theorem Expr.Every.and {left right : ObjectLiteral → Prop} {value : Expr}
    (first : value.Every left) (second : value.Every right) :
    value.Every fun literal => left literal ∧ right literal := by
  match value with
  | .object ⟨members, close, trailingComma⟩ =>
      exact ⟨⟨first.1, second.1⟩, Member.AllEvery.and first.2 second.2⟩
  | .call _ | .number _ | .string _ _ | .boolean _ | .verbatim _ => trivial

theorem Member.AllEvery.and {left right : ObjectLiteral → Prop}
    {members : List Member} (first : Member.AllEvery left members)
    (second : Member.AllEvery right members) :
    Member.AllEvery (fun literal => left literal ∧ right literal) members := by
  match members with
  | [] => trivial
  | .property ⟨key, value, layout⟩ :: others =>
      exact ⟨Expr.Every.and first.1 second.1,
        Member.AllEvery.and first.2 second.2⟩
  | .written member :: others =>
      exact @Member.AllEvery.and _ _ others first second

end

mutual

theorem Expr.Every.imp {left right : ObjectLiteral → Prop}
    (weaker : ∀ literal, left literal → right literal) {value : Expr}
    (every : value.Every left) : value.Every right := by
  match value with
  | .object ⟨members, close, trailingComma⟩ =>
      exact ⟨weaker _ every.1, Member.AllEvery.imp weaker every.2⟩
  | .call _ | .number _ | .string _ _ | .boolean _ | .verbatim _ => trivial

theorem Member.AllEvery.imp {left right : ObjectLiteral → Prop}
    (weaker : ∀ literal, left literal → right literal) {members : List Member}
    (every : Member.AllEvery left members) : Member.AllEvery right members := by
  match members with
  | [] => trivial
  | .property ⟨key, value, layout⟩ :: others =>
      exact ⟨Expr.Every.imp weaker every.1, Member.AllEvery.imp weaker every.2⟩
  | .written member :: others =>
      exact @Member.AllEvery.imp _ _ weaker others every

end

theorem Member.allEvery_append
    {property : ObjectLiteral → Prop} {left right : List Member} :
    Member.AllEvery property (left ++ right) ↔
      Member.AllEvery property left ∧ Member.AllEvery property right := by
  induction left with
  | nil => simp [AllEvery]
  | cons member others induction =>
      cases member with
      | property entry =>
          cases entry
          simp [AllEvery, induction, and_assoc]
      | written member => simpa [AllEvery] using induction

theorem Member.allEvery_cons {property : ObjectLiteral → Prop} {member : Member}
    {others : List Member} :
    Member.AllEvery property (member :: others) ↔
      Member.AllEvery property [member] ∧ Member.AllEvery property others :=
  @Member.allEvery_append property [member] others

/-- The expression is an object literal. -/
def Expr.IsObject (value : Expr) : Prop := ∃ literal, value = .object literal

/-- A condition on object literals says nothing about other expressions. -/
theorem Expr.Every.of_not_isObject {property : ObjectLiteral → Prop}
    {value : Expr} (different : ¬ value.IsObject) : value.Every property := by
  cases value with
  | object literal => exact absurd ⟨literal, rfl⟩ different
  | call _ | number _ | string _ _ | boolean _ | verbatim _ => trivial

namespace Key

/-- The key is read in front of the separator, which has a colon in it. -/
def Sound (options : PrintOptions) (separator : Text) (key : Key) : Prop :=
  ∃ before behind,
    separator = before ++ ':' :: behind ∧ Trivia before ∧ Trivia behind ∧
    ∀ rest, ReadsKey (key.print options ++ (separator ++ rest))
      ⟨key.name, some (key.print options)⟩ (separator ++ rest)

end Key

/-- In front of the given text, the member is read as it is written. -/
def WrittenMember.ReadsBefore (rest : Text) (member : WrittenMember) : Prop :=
  Begins '}' (member.text ++ rest) ∧
    ∀ leading, ReadsMember leading (member.text ++ rest)
      (.written ⟨member.name, member.text, leading, []⟩) rest

namespace Member

/-- What stands between key and value. -/
def separator : Member → Text
  | .property entry => (entry.layout.map Layout.separator).getD [':', ' ']
  | .written _ => []

/-- The key and the value can be read. -/
def Sound (options : PrintOptions) : Member → Prop
  | .property ⟨key, value, layout⟩ =>
      key.Sound options ((layout.map Layout.separator).getD [':', ' ']) ∧
        (value.IsObject ∨ value.Leaf options)
  | .written member =>
      ∀ rest, EndsMember rest → Joins member.text rest → member.ReadsBefore rest

/-- The end of the value begins no comment together with the text behind. -/
def JoinsTo (options : PrintOptions) (behind : Text) : Member → Prop
  | .property ⟨_, value, _⟩ =>
      value.IsObject ∨ Joins (value.print options) behind
  | .written member => Joins member.text behind

/-- An angled value is read in front of the given text. -/
def SettledBefore (options : PrintOptions) (rest : Text) : Member → Prop
  | .property ⟨_, value, _⟩ =>
      value.IsObject ∨ (value.angled = true → value.ReadsBefore options rest)
  | .written _ => True

/-- The member is read in front of the given text; an object literal by the
conditions on its own members. -/
def ReadsBefore (options : PrintOptions) (rest : Text) : Member → Prop
  | .property ⟨_, value, _⟩ =>
      value.IsObject ∨
        BeginsToken (value.print options ++ rest) ∧
        value.ReadsBefore options rest
  | .written member => member.ReadsBefore rest

end Member

namespace ObjectLiteral

/-- What stands in front of the brace if it comes from a text. -/
def keptClose (literal : ObjectLiteral) : Text :=
  if literal.hasAppended then (literal.close.getD []).withoutLineComment
  else literal.close.getD []

/-- The members can be read. -/
def Sound (options : PrintOptions) (literal : ObjectLiteral) : Prop :=
  ∀ member ∈ literal.members, member.Sound options

/-- Trivia stands between the members. -/
structure Spaced (options : PrintOptions) (literal : ObjectLiteral) : Prop where
  leadings : ∀ leading ∈ literal.leadings, Trivia leading
  trailings : ∀ member ∈ literal.members,
    Trivia member.trailing ∧ member.JoinsTo options member.trailing
  close : Trivia (literal.close.getD [])
  last : literal.trailingComma ≠ some true →
    ∀ member ∈ literal.members.getLast?,
      member.JoinsTo options (member.trailing ++ literal.keptClose)

/-- New members follow a comment that ends on its line, and are indented with
trivia. -/
def Appends (literal : ObjectLiteral) : Prop :=
  literal.leadings ≠ [] → ∀ member ∈ literal.members, member.leading? = none →
    (∀ lineBreak : LineBreak,
      Trivia ((literal.close.getD []).lineComment ++ lineBreak.text)) ∧
      ∀ indent ∈ literal.memberIndent?, Trivia indent

/-- The print of the literal is read back, apart from angled values.  One step
of indentation matters for new members only. -/
structure Printable (options : PrintOptions) (literal : ObjectLiteral) :
    Prop where
  sound : literal.Sound options
  spaced : literal.Spaced options
  appends : literal.Appends
  indents : (∃ member ∈ literal.members, member.leading? = none) →
    Trivia options.indent

/-- What the printer writes behind the last member. -/
def tail (literal : ObjectLiteral) (options : PrintOptions)
    (lineBreak : LineBreak) (inline : Bool) (line : Line) (rest : Text) :
    Text :=
  literal.lastComma options inline ++
    (literal.printedClose lineBreak inline line ++ '}' :: rest)

end ObjectLiteral

/-- The comment that stands behind the comma of a member. -/
def Member.commentBehind (style : MemberStyle) (member : Member)
    (others : List Member) : Text :=
  if member.leading?.isSome && others.all fun other => other.leading?.isNone
  then style.sourceComment else []

mutual

/-- Where the expression is printed in front of the given text, each angled
value in it is read as itself. -/
def Expr.Settled (options : PrintOptions) (lineBreak : LineBreak)
    (inline : Bool) (line : Line) (rest : Text) : Expr → Prop
  | .object ⟨members, close, trailingComma⟩ =>
      let literal : ObjectLiteral := ⟨members, close, trailingComma⟩
      Member.AllSettled options lineBreak (!literal.isMultiline inline)
        (literal.memberStyle options lineBreak inline line) (line.push '{') []
        (literal.tail options lineBreak inline line rest) members
  | .call call =>
      (Expr.call call).angled = true → (Expr.call call).ReadsBefore options rest
  | .verbatim text =>
      (Expr.verbatim text).angled = true →
        (Expr.verbatim text).ReadsBefore options rest
  | .number _ | .string _ _ | .boolean _ => True

/-- Each angled value in members that are printed in front of the given text is
read as itself. -/
def Member.AllSettled (options : PrintOptions) (lineBreak : LineBreak)
    (inline : Bool) (style : MemberStyle) (line : Line) (between rest : Text) :
    List Member → Prop
  | [] => True
  | member :: others =>
      let text := between ++ Member.printFrom options lineBreak inline style
        (line.after between) member
      let comma := ',' :: member.commentBehind style others
      let behind :=
        Member.printList options lineBreak inline style
          (line.after text) comma others ++ rest
      Member.Settled options lineBreak inline style
        (line.after between) behind member ∧
        Member.AllSettled options lineBreak inline style
          (line.after text) comma rest others

/-- Each angled value in a member that is printed in front of the given text is
read as itself. -/
def Member.Settled
    (options : PrintOptions) (lineBreak : LineBreak) (inline : Bool)
    (style : MemberStyle) (line : Line) (rest : Text) : Member → Prop
  | .written _ => True
  | .property ⟨key, value, layout⟩ =>
      let opening :=
        (layout.map Layout.leading).getD style.newLeading ++
          key.print options ++ (layout.map Layout.separator).getD [':', ' ']
      Expr.Settled options lineBreak inline (line.after opening)
        ((layout.map Layout.trailing).getD [] ++ rest) value

end

mutual

theorem Expr.settled_of_plain {value : Expr} (plain : value.angled = false)
    (options : PrintOptions) (lineBreak : LineBreak) (inline : Bool)
    (line : Line) (rest : Text) :
    value.Settled options lineBreak inline line rest := by
  match value with
  | .object ⟨members, close, trailingComma⟩ =>
      exact Member.allSettled_of_plain plain options lineBreak _ _ _ _ _
  | .call _ | .verbatim _ =>
      intro angled
      rw [plain] at angled
      contradiction
  | .number _ | .string _ _ | .boolean _ => trivial

theorem Member.allSettled_of_plain {members : List Member}
    (plain : Member.anyAngled members = false) (options : PrintOptions)
    (lineBreak : LineBreak)
    (inline : Bool) (style : MemberStyle) (line : Line) (between rest : Text) :
    Member.AllSettled options lineBreak inline style line between rest
      members := by
  match members with
  | [] => trivial
  | .property ⟨key, value, layout⟩ :: others =>
      obtain ⟨first, further⟩ := Bool.or_eq_false_iff.1 plain
      exact ⟨Expr.settled_of_plain first options lineBreak _ _ _,
        Member.allSettled_of_plain further options lineBreak _ _ _ _ _⟩
  | .written member :: others =>
      have further : Member.anyAngled others = false := plain
      exact ⟨trivial,
        Member.allSettled_of_plain further options lineBreak _ _ _ _ _⟩

end

end ConfigEdit
