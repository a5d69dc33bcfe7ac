import ConfigEdit.Document.Print
import ConfigEdit.Proofs.Document.Grammar

/-!
# The source of a node

`Expr.source` puts the texts that a node keeps together again.  It is what has
been read of the text when the node comes from a text (`ReadsValue.split`), and
then it is also what the printer gives for the node, whatever the options and
wherever the node stands (`Expr.FromText.printFrom_eq`).
-/

namespace ConfigEdit

/-- The text before a member; nothing before a new one. -/
def Member.leading (member : Member) : Text := member.leading?.getD []

/-- The text behind a member; nothing behind a new one. -/
def Member.trailing : Member → Text
  | .property entry => (entry.layout.map Layout.trailing).getD []
  | .written member => member.trailing

mutual

/-- The text that an expression comes from. -/
def Expr.source : Expr → Text
  | .object ⟨members, close, trailingComma⟩ =>
      '{' :: (Member.sources [] members ++
        ((if trailingComma = some true then [','] else []) ++
          (close.getD [] ++ ['}'])))
  | .call ⟨callee, args, close, trailingComma⟩ =>
      callee ++ '(' :: (Argument.sources [] args ++
        ((if trailingComma && !args.isEmpty then [','] else []) ++
          (close ++ [')'])))
  | .number text => text
  | .string _ raw => raw.getD []
  | .boolean value => truthWord value
  | .verbatim text => text

/-- The text that members come from.  `between` is what stands between the
member before and the first one. -/
def Member.sources (between : Text) : List Member → Text
  | [] => []
  | member :: others =>
      between ++ (member.leading ++ (member.body ++ (member.trailing ++
        Member.sources [','] others)))

/-- The text that a member comes from, without the text around it. -/
def Member.body : Member → Text
  | .property ⟨key, value, layout⟩ =>
      key.raw.getD [] ++ ((layout.map Layout.separator).getD [] ++ value.source)
  | .written member => member.text

/-- The text that arguments come from. -/
def Argument.sources (between : Text) : List Argument → Text
  | [] => []
  | ⟨leading, value, trailing⟩ :: others =>
      between ++ (leading ++
        (value.source ++ (trailing ++ Argument.sources [','] others)))

end

mutual

/-- The expression keeps the text that it comes from. -/
def Expr.FromText : Expr → Prop
  | .object ⟨members, close, trailingComma⟩ =>
      Member.AllFromText members ∧ close.isSome = true ∧
        trailingComma.isSome = !members.isEmpty
  | .call ⟨_, args, _, _⟩ => Argument.AllFromText args
  | .string _ raw => raw.isSome = true
  | .number _ | .boolean _ | .verbatim _ => True

/-- The members keep the text that they come from. -/
def Member.AllFromText : List Member → Prop
  | [] => True
  | member :: others => member.FromText ∧ Member.AllFromText others

/-- The member keeps the text that it comes from. -/
def Member.FromText : Member → Prop
  | .property ⟨key, value, layout⟩ =>
      key.raw.isSome = true ∧ layout.isSome = true ∧ value.FromText
  | .written _ => True

/-- The arguments keep the text that they come from. -/
def Argument.AllFromText : List Argument → Prop
  | [] => True
  | ⟨_, value, _⟩ :: others => value.FromText ∧ Argument.AllFromText others

end

theorem Expr.source_object (literal : ObjectLiteral) :
    (Expr.object literal).source =
      '{' :: (Member.sources [] literal.members ++
        ((if literal.trailingComma = some true then [','] else []) ++
          (literal.close.getD [] ++ ['}']))) := by
  cases literal
  rfl

theorem Expr.source_call (call : Call) :
    (Expr.call call).source =
      call.callee ++ '(' :: (Argument.sources [] call.args ++
        ((if call.trailingComma && !call.args.isEmpty then [','] else []) ++
          (call.close ++ [')']))) := by
  cases call
  rfl

theorem Expr.fromText_object (literal : ObjectLiteral) :
    (Expr.object literal).FromText ↔
      Member.AllFromText literal.members ∧ literal.close.isSome = true ∧
        literal.trailingComma.isSome = !literal.members.isEmpty := by
  cases literal
  exact Iff.rfl

theorem Expr.fromText_call (call : Call) :
    (Expr.call call).FromText ↔ Argument.AllFromText call.args := by
  cases call
  exact Iff.rfl

namespace Member

variable {member : Member} {trailing : Text}

@[simp] theorem leading_withTrailing :
    (member.withTrailing trailing).leading = member.leading := by
  cases member with
  | property entry =>
      cases entry with | mk key value layout => cases layout <;> rfl
  | written member => rfl

@[simp] theorem body_withTrailing :
    (member.withTrailing trailing).body = member.body := by
  cases member with
  | property entry =>
      cases entry with | mk key value layout => cases layout <;> rfl
  | written member => rfl

@[simp] theorem fromText_withTrailing :
    (member.withTrailing trailing).FromText ↔ member.FromText := by
  cases member with
  | property entry =>
      cases entry with
      | mk key value layout => cases layout <;> simp [withTrailing, FromText]
  | written member => simp [withTrailing, FromText]

theorem FromText.leading?_isSome (fromText : member.FromText) :
    member.leading?.isSome = true := by
  cases member with
  | property entry =>
      cases entry with
      | mk key value layout =>
          simp only [FromText] at fromText
          simpa [leading?] using fromText.2.1
  | written member => rfl

theorem trailing_withTrailing (kept : member.leading?.isSome = true) :
    (member.withTrailing trailing).trailing = trailing := by
  cases member with
  | property entry =>
      obtain ⟨layout, kept⟩ :=
        Option.isSome_iff_exists.1 (Option.isSome_map .. ▸ kept)
      simp [withTrailing, Member.trailing, kept]
  | written member => rfl

theorem FromText.trailing_withTrailing (fromText : member.FromText) :
    (member.withTrailing trailing).trailing = trailing :=
  Member.trailing_withTrailing fromText.leading?_isSome

theorem allFromText_iff {members : List Member} :
    AllFromText members ↔ ∀ member ∈ members, member.FromText := by
  induction members with
  | nil => simp [AllFromText]
  | cons member others induction => simp [AllFromText, induction]

theorem allFromText_append {left right : List Member} :
    AllFromText (left ++ right) ↔ AllFromText left ∧ AllFromText right := by
  simp only [allFromText_iff, List.forall_mem_append]

theorem AllFromText.leading?_isSome
    {members : List Member} (fromText : AllFromText members) :
    ∀ member ∈ members, member.leading?.isSome = true :=
  fun member inside =>
    (allFromText_iff.1 fromText member inside).leading?_isSome

end Member

theorem ReadsKey.split
    {text rest : Text} {key : Key} (reads : ReadsKey text key rest) :
    key.raw.isSome = true ∧ text = key.raw.getD [] ++ rest := by
  cases reads with
  | quoted | numeric | word => simp

/-- Further members stand behind a comma, or the comma stands behind the
last. -/
theorem Member.comma_sources {members : List Member} {comma : Option Bool}
    (empty : members = [] → comma = some true) (ending : Text) :
    ',' :: (Member.sources [] members ++
        ((if comma = some true ∧ members ≠ [] then [','] else []) ++ ending)) =
      Member.sources [','] members ++
        ((if comma = some true then [','] else []) ++ ending) := by
  cases members with
  | nil => simp [sources, empty rfl]
  | cons member others => simp [sources]

/-- Further arguments stand behind a comma, or the comma stands behind the
last. -/
theorem Argument.comma_sources {args : List Argument} {comma : Bool}
    (empty : args = [] → comma = true) (ending : Text) :
    ',' :: (Argument.sources [] args ++
        ((if comma = true ∧ args ≠ [] then [','] else []) ++ ending)) =
      Argument.sources [','] args ++
        ((if comma then [','] else []) ++ ending) := by
  cases args with
  | nil => simp [sources, empty rfl]
  | cons argument others =>
      cases argument
      simp [sources]

mutual

/-- An expression that is read keeps the text up to the place behind it. -/
theorem ReadsValue.split {strict : Bool} {text rest : Text} {value : Expr}
    (reads : ReadsValue strict text value rest) :
    value.FromText ∧ text = value.source ++ rest := by
  match reads with
  | .node reads _ => exact reads.split
  | .beyond _ _ _ => simp [Expr.FromText, Expr.source]
  | .verbatim _ _ => simp [Expr.FromText, Expr.source]

theorem ReadsNode.split {text rest : Text} {value : Expr}
    (reads : ReadsNode text value rest) :
    value.FromText ∧ text = value.source ++ rest := by
  match reads with
  | @ReadsNode.object text rest literal reads =>
      obtain ⟨fromText, close, comma, -, split⟩ := reads.split
      refine ⟨(Expr.fromText_object _).2 ⟨fromText, close, ?_⟩, ?_⟩
      · cases empty : literal.members.isEmpty <;> simp [comma]
      · by_cases empty : literal.members = [] <;>
          simp [Expr.source_object, split, empty]
  | .string quotes closes => simp [Expr.FromText, Expr.source]
  | .number numeral isRun => simp [Expr.FromText, Expr.source]
  | .boolean ends => simp [Expr.FromText, Expr.source]
  | @ReadsNode.call first path opening inner rest call starts complete ends
        noWord opens reads =>
      obtain ⟨fromText, callee, -, split⟩ := reads.split
      exact ⟨(Expr.fromText_call call).2 fromText,
        by simp [Expr.source_call, split, callee]⟩

theorem ReadsArguments.split {callee text rest : Text} {afterComma : Bool}
    {call : Call} (reads : ReadsArguments callee afterComma text call rest) :
    Argument.AllFromText call.args ∧ call.callee = callee ∧
      (call.args = [] → call.trailingComma = afterComma) ∧
      text = Argument.sources [] call.args ++
        ((if call.trailingComma = true ∧ call.args ≠ [] then [','] else []) ++
          (call.close ++ ')' :: rest)) := by
  match reads with
  | .close complete => simp [Argument.AllFromText, Argument.sources]
  | .last complete begins reads closed =>
      obtain ⟨fromText, split⟩ := reads.split
      simp [Argument.AllFromText, Argument.sources, fromText, split]
  | @ReadsArguments.more _ _ _ _ _ _ _ _ call complete begins reads closed
        others =>
      obtain ⟨fromText, split⟩ := reads.split
      obtain ⟨allFromText, same, comma, further⟩ := others.split
      refine ⟨⟨fromText, allFromText⟩, same, by simp, ?_⟩
      rw [split, further]
      have whole := Argument.comma_sources comma (call.close ++ ')' :: rest)
      simpa [Argument.sources] using whole

theorem ReadsMembers.split
    {text rest : Text} {afterComma : Bool} {literal : ObjectLiteral}
    (reads : ReadsMembers afterComma text literal rest) :
    Member.AllFromText literal.members ∧ literal.close.isSome = true ∧
      literal.trailingComma.isSome = true ∧
      (literal.members = [] → literal.trailingComma = some afterComma) ∧
      text = Member.sources [] literal.members ++
        ((if literal.trailingComma = some true ∧ literal.members ≠ [] then [',']
          else []) ++ (literal.close.getD [] ++ '}' :: rest)) := by
  match reads with
  | .close complete => simp [Member.AllFromText, Member.sources]
  | .last complete begins reads closed =>
      obtain ⟨fromText, leading, trailing, split⟩ := reads.split
      simp [Member.AllFromText, Member.sources, fromText, leading, trailing,
        split]
  | @ReadsMembers.more _ _ _ _ _ _ member literal complete begins reads closed
        others =>
      obtain ⟨fromText, leading, trailing, split⟩ := reads.split
      obtain ⟨allFromText, close, comma, empty, further⟩ := others.split
      refine ⟨⟨Member.fromText_withTrailing.2 fromText, allFromText⟩,
        close, comma,
        by simp, ?_⟩
      rw [split, further]
      have whole :=
        Member.comma_sources empty (literal.close.getD [] ++ '}' :: rest)
      rw [whole]
      simp [Member.sources, leading, fromText.trailing_withTrailing]

theorem ReadsMember.split {leading text rest : Text} {member : Member}
    (reads : ReadsMember leading text member rest) :
    member.FromText ∧ member.leading = leading ∧ member.trailing = [] ∧
      text = member.body ++ rest := by
  match reads with
  | .property key before behind begins reads =>
      obtain ⟨raw, keySplit⟩ := key.split
      obtain ⟨fromText, split⟩ := reads.split
      refine ⟨⟨raw, rfl, fromText⟩, rfl, rfl, ?_⟩
      simp [Member.body, keySplit, split]
  | .method .. | .shorthand .. | .modified .. | .unnamed .. =>
      simp [Member.FromText, Member.leading, Member.leading?, Member.trailing,
        Member.body]

end

end ConfigEdit
