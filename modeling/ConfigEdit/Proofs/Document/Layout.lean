import ConfigEdit.Document.Print
import Mathlib.Data.List.Basic

/-!
# The layout of an object literal

The printer decides once for each object literal how its members are laid out.
These are the decisions, each by its own name, and the print of the literal
put together from them.
-/

namespace ConfigEdit

namespace ObjectLiteral

variable (literal : ObjectLiteral) (options : PrintOptions)
    (lineBreak : LineBreak) (inline : Bool) (line : Line)

/-- How lines end in the literal. -/
def newLine : Text := (literal.lineBreak?.getD lineBreak).text

/-- How the members are laid out. -/
def memberStyle : MemberStyle :=
  { newLeading :=
      if literal.isMultiline inline then
        literal.newLine lineBreak ++
          literal.memberIndent?.getD (line.indent ++ options.indent)
      else [' ']
    sourceComment := (literal.close.getD []).lineComment }

/-- The comma behind the last member, if there is one. -/
def lastComma : Text :=
  if literal.trailingComma.getD (literal.isMultiline inline &&
    options.trailingComma)
  then [','] else []

/-- The text in front of the brace of a new literal. -/
def freshClose : Text :=
  if literal.isMultiline inline then literal.newLine lineBreak ++ line.indent
  else [' ']

/-- The text in front of the brace. -/
def printedClose : Text :=
  match literal.close with
  | some close =>
      if !literal.leadings.isEmpty || !close.blank then
        if literal.hasAppended then close.withoutLineComment else close
      else literal.freshClose lineBreak inline line
  | none => literal.freshClose lineBreak inline line

variable {literal options lineBreak inline line}

theorem lastComma_of_some
    {comma : Bool} (trailing : literal.trailingComma = some comma) :
    literal.lastComma options inline = if comma then [','] else [] := by
  simp [lastComma, trailing]

/-- A literal of new members alone keeps what stands between its braces, unless
that is blank. -/
theorem printedClose_of_new {close : Text} (new : ∀ member ∈ literal.members,
    member.leading? = none) (closed : literal.close = some close) :
    literal.printedClose lineBreak inline line =
      if close.blank then literal.freshClose lineBreak inline line
      else close := by
  have none' : literal.leadings = [] := by
    simpa [leadings, List.filterMap_eq_nil_iff] using new
  cases blank : close.blank <;>
    simp [printedClose, closed, none', blank, hasAppended]

/-- The brace stays where it is when the members come from a text, and new
members behind them take over the comment on its line. -/
theorem printedClose_of_kept {close : Text} {member : Member}
    (inside : member ∈ literal.members) (kept : member.leading?.isSome = true)
    (closed : literal.close = some close) :
    literal.printedClose lineBreak inline line =
      if literal.members.getLast?.any fun last => last.leading?.isNone
      then close.withoutLineComment else close := by
  obtain ⟨leading, found⟩ := Option.isSome_iff_exists.1 kept
  have some : literal.leadings.isEmpty = false := by
    simp only [leadings, List.isEmpty_eq_false_iff]
    exact List.ne_nil_of_mem (List.mem_filterMap.2 ⟨member, inside, found⟩)
  simp [printedClose, closed, some, hasAppended]

end ObjectLiteral

section Printing

variable {options : PrintOptions} {lineBreak : LineBreak} {inline : Bool}
  {style : MemberStyle} {line : Line} {between : Text}

theorem Expr.printFrom_object
    {literal : ObjectLiteral} (more : literal.members ≠ []) :
    (Expr.object literal).printFrom options lineBreak inline line =
      '{' :: (Member.printList options lineBreak (!literal.isMultiline inline)
        (literal.memberStyle options lineBreak inline line) (line.push '{') []
        literal.members ++
          (literal.lastComma options inline ++
            (literal.printedClose lineBreak inline line ++ ['}']))) := by
  cases literal with
  | mk members close trailingComma =>
      cases members with
      | nil => contradiction
      | cons member others =>
          simp only [Expr.printFrom, List.append_assoc, List.cons_append]
          rfl

theorem Expr.printFrom_object_nil
    {literal : ObjectLiteral} (empty : literal.members = []) :
    (Expr.object literal).printFrom options lineBreak inline line =
      '{' :: (literal.close.getD [] ++ ['}']) := by
  cases literal with
  | mk members close trailingComma =>
      simp only at empty
      subst empty
      rfl

/-- New members behind members that come from a text follow the comment on the
line of the last of those. -/
theorem Member.printList_append {members appended : List Member}
    (kept : ∀ member ∈ members, member.leading?.isSome = true)
    (new : ∀ member ∈ appended, member.leading? = none) (more : members ≠ []) :
    Member.printList options lineBreak inline style line between
      (members ++ appended) =
      Member.printList options lineBreak inline style line between members ++
        Member.printList options lineBreak inline style
          (line.after
            (Member.printList options lineBreak inline style line between
              members)) (',' :: style.sourceComment) appended := by
  induction members generalizing line between with
  | nil => contradiction
  | cons member others induction =>
      have some := kept member List.mem_cons_self
      cases others with
      | nil =>
          have last :
              (appended.all fun other => other.leading?.isNone) = true := by
            simpa using new
          simp [Member.printList, some, last]
      | cons next others =>
          have notNone : next.leading?.isNone = false := by
            simp [Option.isNone_eq_false_iff,
              kept next (List.mem_cons_of_mem _ List.mem_cons_self)]
          have further (start : Line) (comma : Text) := @induction start comma
            (fun other inside => kept other (List.mem_cons_of_mem _ inside))
            (List.cons_ne_nil _ _)
          rw [List.cons_append, Member.printList, Member.printList]
          simp only [List.cons_append, List.all_cons, notNone, Bool.false_and,
            Bool.and_false]
          rw [← List.cons_append, further]
          simp [Line.after_append]

end Printing

end ConfigEdit
