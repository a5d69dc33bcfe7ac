import ConfigEdit.Proofs.Document.Reprint

/-!
# Settled prints

An angled value that is read wherever an expression may end is read in front of
what the printer puts behind it.  So a literal is settled if all of its values
are of this kind.
-/

namespace ConfigEdit

/-- The print of the value, unless it is an object literal, is read wherever an
expression may end. -/
def Expr.ReadsAnywhere (options : PrintOptions) (value : Expr) : Prop :=
  value.IsObject ∨ ∀ rest, Stops rest → Joins (value.print options) rest →
    value.ReadsBefore options rest

/-- The value of the member is read wherever an expression may end. -/
def Member.ReadsAnywhere (options : PrintOptions) : Member → Prop
  | .property ⟨_, value, _⟩ => value.ReadsAnywhere options
  | .written _ => True

/-- The literal is printable, and its values are read wherever an expression may
end. -/
structure ObjectLiteral.Steadfast (options : PrintOptions)
    (literal : ObjectLiteral) : Prop where
  printable : literal.Printable options
  reads : ∀ member ∈ literal.members, member.ReadsAnywhere options

theorem Continuation.Reads.endsMember
    {text rest trailing : Text} {behind : Continuation}
    (reads : behind.Reads text rest) (complete : Trivia trailing) :
    EndsMember (trailing ++ text) := by
  cases reads with
  | comma => exact .of_trivia complete (.inl rfl)
  | brace closed =>
      rw [← List.append_assoc]
      exact .of_trivia (complete.append closed) (.inr rfl)

mutual

theorem Expr.settled_of_every {options : PrintOptions} {value : Expr}
    (every : value.Every (ObjectLiteral.Steadfast options)) {line : Line}
    (blank : line.Blank) {lineBreak : LineBreak} {inline : Bool} {rest : Text}
    (leaf : value.IsObject ∨ value.ReadsBefore options rest) :
    value.Settled options lineBreak inline line rest := by
  match value with
  | .object ⟨members, close, trailingComma⟩ =>
      obtain ⟨⟨printable, reads⟩, all⟩ := every
      exact Member.allSettled_of_every all reads (printable.ready blank rest)
        (printable.behind blank lineBreak inline rest) (blank.after ['{']) []
  | .call _ | .verbatim _ =>
      intro _
      exact leaf.resolve_left (by simp [Expr.IsObject])
  | .number _ | .string _ _ | .boolean _ => trivial

theorem Member.allSettled_of_every
    {options : PrintOptions} {style : MemberStyle}
    {comment tail rest : Text} {members : List Member} {last : Continuation}
    (all : Member.AllEvery (ObjectLiteral.Steadfast options) members)
    (anywhere : ∀ member ∈ members, member.ReadsAnywhere options)
    (ready : Member.Ready options style tail comment members)
    (ends : last.Reads tail rest) {line : Line} (blank : line.Blank)
    {lineBreak : LineBreak} {inline : Bool} (between : Text) :
    Member.AllSettled options lineBreak inline style line between tail
      members := by
  match members with
  | [] => trivial
  | member :: others =>
      obtain ⟨-, -, trailing, joins, final, further⟩ := ready
      obtain ⟨first, second⟩ := Member.allEvery_cons.1 all
      refine ⟨?_, Member.allSettled_of_every second
        (fun other inside => anywhere other (List.mem_cons_of_mem _ inside))
        further ends (blank.after _) _⟩
      generalize printed :
        Member.printList options lineBreak inline style _ _ others ++ tail =
          behind
      have ended : EndsMember (member.trailing ++ behind) ∧
          member.JoinsTo options (member.trailing ++ behind) := by
        cases others with
        | nil =>
            subst printed
            exact ⟨ends.endsMember trailing, final rfl⟩
        | cons next others =>
            have none' :
                ∀ character ∈ ([] : Text), isGap character = true := by simp
            rw [Member.printList] at printed
            subst printed
            simp only [List.cons_append]
            exact ⟨.of_trivia trailing (.inl rfl),
              joins.before_delimiter none' (.inl rfl)⟩
      match member with
      | .written member => trivial
      | .property ⟨key, value, layout⟩ =>
          refine Expr.settled_of_every first.1
            ((blank.after between).after _) ?_
          rcases ended.2 with isObject | joins
          · exact .inl isObject
          · exact (anywhere _ List.mem_cons_self).imp_right fun reads =>
              reads _ ended.1.stops joins

end

end ConfigEdit
