import ConfigEdit.Proofs.Document.Reprint
import ConfigEdit.Proofs.Document.Segments
import ConfigEdit.Proofs.Edit.Root

/-!
# Another configuration in the place of the old one

The text of a document with another object literal in the place of the
configuration is read as the same document around the new literal.
-/

namespace ConfigEdit

theorem ReadsNode.exists_brace {text rest : Text} {literal : ObjectLiteral}
    (reads : ReadsNode text (.object literal) rest) :
    ∃ others, text = '{' :: others := by
  cases reads with
  | object => exact ⟨_, rfl⟩

theorem ReadsNode.begins_parenthesis
    {text rest : Text} {literal : ObjectLiteral}
    (reads : ReadsNode text (.object literal) rest) : Begins ')' text := by
  obtain ⟨others, rfl⟩ := reads.exists_brace
  exact ⟨skipTrivia_token (by decide) (by decide) _, List.cons_ne_nil _ _,
    by simp⟩

theorem CallOpening.endsWord
    {opening : Text} (opens : CallOpening opening) (inner : Text) :
    EndsWord (opening ++ '(' :: inner) := by
  have blank {trivia rest : Text} (complete : Trivia trivia)
      (ends : trivia = [] → EndsWord rest) : EndsWord (trivia ++ rest) := by
    by_cases empty : trivia = []
    · simpa [empty] using ends empty
    · exact (complete.beginsAtBoundary.append empty).endsWord
  cases opens with
  | plain complete =>
      exact blank complete fun _ => endsWord_of_head _ (by decide) (by decide)
  | @typed before types behind first angle closes second =>
      rw [List.append_assoc]
      refine blank first fun _ => ?_
      obtain ⟨others, rfl⟩ : ∃ others, types = '<' :: others := by
        cases types <;> simp_all
      exact endsWord_of_head _ (by decide) (by decide)

theorem ReadsArguments.replace
    {callee inner rest leading trailing : Text} {afterComma : Bool}
    {call : Call} {literal : ObjectLiteral} {otherArgs : List Argument}
    (reads : ReadsArguments callee afterComma inner call rest)
    (first : call.args = ⟨leading, .object literal, trailing⟩ :: otherArgs) :
    ∃ behind, inner = leading ++ ((Expr.object literal).source ++ behind) ∧
      ∀ printed node, ReadsNode (printed ++ behind) (.object node) behind →
        ReadsArguments callee afterComma (leading ++ (printed ++ behind))
          { call with args := ⟨leading, .object node, trailing⟩ :: otherArgs }
          rest := by
  cases reads with
  | close complete => cases first
  | last complete begins reads closed =>
      cases first
      refine ⟨_, by rw [reads.split.2], fun printed node read => ?_⟩
      exact .last complete read.begins_parenthesis
        (.node read fun _ => .of_trivia closed (.inl rfl)) closed
  | more complete begins reads closed others =>
      cases first
      refine ⟨_, by rw [reads.split.2], fun printed node read => ?_⟩
      exact .more complete read.begins_parenthesis
        (.node read fun _ => .of_trivia closed (.inr rfl)) closed others

/-- The first argument of an exported call may be any other object literal. -/
theorem ReadsValue.replace {expression rest leading trailing : Text}
    {call : Call} {literal : ObjectLiteral} {otherArgs : List Argument}
    (reads : ReadsValue false expression (.call call) rest)
    (first : call.args = ⟨leading, .object literal, trailing⟩ :: otherArgs) :
    ∃ behind, expression =
        call.callee ++ '(' ::
          (leading ++ ((Expr.object literal).source ++ behind)) ∧
      (∃ character ∈ call.callee.head?, isIdentifierStart character = true) ∧
      ∀ printed node, ReadsNode (printed ++ behind) (.object node) behind →
        ReadsValue false
          (call.callee ++ '(' :: (leading ++ (printed ++ behind)))
          (.call { call with
            args := ⟨leading, .object node, trailing⟩ :: otherArgs }) rest := by
  cases reads with
  | node reads _ =>
      cases reads with
      | @call character path opening inner _ _ starts complete ends notWord
            opens arguments =>
          obtain ⟨behind, rfl, replace⟩ := arguments.replace first
          have callee := arguments.split.2.1
          refine ⟨behind,
            by simp [callee], ⟨character, by simp [callee], starts⟩,
            fun printed node read => ?_⟩
          have read : ReadsNode _ _ rest :=
            .call starts complete (opens.endsWord _) notWord opens
              (replace printed node read)
          have same : call.callee ++ '(' :: (leading ++ (printed ++ behind)) =
              character :: path ++
                (opening ++ '(' :: (leading ++ (printed ++ behind))) := by
            simp [callee]
          rw [same]
          exact .node read (by simp)

theorem ReadsValue.exists_argument {expression rest leading trailing : Text}
    {call : Call} {literal : ObjectLiteral} {otherArgs : List Argument}
    (reads : ReadsValue false expression (.call call) rest)
    (first : call.args = ⟨leading, .object literal, trailing⟩ :: otherArgs) :
    ∃ inner rest,
      ReadsNode inner (.object literal) rest ∧ inner <:+ expression := by
  cases reads with
  | node reads _ =>
      cases reads with
      | @call first path opening inner rest call _ _ _ _ _ arguments =>
          have suffix {leading inner' : Text}
              (whole : inner = leading ++ inner') :
              inner' <:+ first :: path ++ (opening ++ '(' :: inner) :=
            ⟨first :: path ++ (opening ++ '(' :: leading), by simp [whole]⟩
          cases arguments with
          | close => cases first
          | last _ _ reads _ =>
              cases first
              cases reads with
              | node reads _ => exact ⟨_, _, reads, suffix rfl⟩
          | more _ _ reads _ _ =>
              cases first
              cases reads with
              | node reads _ => exact ⟨_, _, reads, suffix rfl⟩

theorem splitAtExport?_append
    {before after : List Segment} {value : DefaultExport}
    (texts : ∀ segment ∈ before, ∃ kept, segment = .text kept) :
    splitAtExport? (before ++ .defaultExport value :: after) =
      some (before, value, after) := by
  induction before with
  | nil => rfl
  | cons segment others induction =>
      obtain ⟨kept, rfl⟩ := texts segment List.mem_cons_self
      rw [List.cons_append, splitAtExport?, induction fun other inside =>
          texts other (List.mem_cons_of_mem _ inside)]
      rfl

theorem Document.exportCount_append
    {before after : List Segment} {value : DefaultExport}
    (texts : ∀ segment ∈ before, ∃ kept, segment = .text kept) :
    Document.exportCount ⟨before ++ .defaultExport value :: after⟩ =
      Document.exportCount ⟨after⟩ + 1 := by
  have none' : Document.exportCount ⟨before⟩ = 0 := by
    rw [exportCount, List.countP_eq_zero]
    intro segment inside
    obtain ⟨kept, rfl⟩ := texts segment inside
    simp
  simp only [exportCount] at none' ⊢
  simp [List.countP_append, none']

theorem Document.locate_eq {before after : List Segment} {front : Text}
    {value : Expr} (texts : ∀ segment ∈ before, ∃ kept, segment = .text kept)
    {root : ConfigRoot}
    (located : Document.locate
      ⟨before ++ .defaultExport ⟨front, value⟩ :: after⟩ = .ok root) :
    value = .call root.call ∧ root.before = before ∧ root.head = front ∧
    root.after = after ∧
    Document.exportCount ⟨after⟩ = 0 := by
  rw [locate] at located
  simp only [splitAtExport?_append texts, exportCount_append texts] at located
  split at located
  · contradiction
  · next one =>
      have one : Document.exportCount ⟨after⟩ = 0 := by omega
      split at located
      · next call =>
          split at located
          · contradiction
          · next shape =>
              cases located
              refine ⟨?_, rfl, rfl, rfl, one⟩
              cases call
              simp only at shape
              simp only [ConfigRoot.call, shape]
          · contradiction
      · contradiction

theorem Document.locate_replace {root : ConfigRoot}
    (texts : ∀ segment ∈ root.before, ∃ kept, segment = .text kept)
    (one : Document.exportCount ⟨root.after⟩ = 0) (literal : ObjectLiteral) :
    (root.replace literal).document.locate = .ok (root.replace literal) := by
  have texts' : ∀ segment ∈
      (root.replace literal).before, ∃ kept, segment = .text kept := texts
  have one' : Document.exportCount ⟨(root.replace literal).after⟩ = 0 := one
  rw [ConfigRoot.document, locate]
  simp only [splitAtExport?_append texts', exportCount_append texts', one']
  rfl

theorem locateText_eq_ok
    {text : Text} {root : ConfigRoot} (located : locateText text = .ok root) :
    ∃ (lead expression : Text) (finish : Place expression),
      text = lead ++ (root.head ++ expression) ∧
      parseValue false expression = .ok (.call root.call, finish) ∧
      parseSegments finish.1 0 false finish.1 = .ok root.after ∧
      Document.exportCount ⟨root.after⟩ = 0 ∧
      root.before = Segment.textThen lead [] ∧
      LeadsTo 0 false lead root.head expression := by
  rw [locateText] at located
  split at located
  · contradiction
  · next document parsed =>
      split at located
      · contradiction
      · next found =>
          cases located
          obtain ⟨segments⟩ := document
          rw [Document.parse_eq_ok] at parsed
          have exports :
              ∃ exported, Segment.defaultExport exported ∈ segments := by
            have same := Document.locate_document found
            simp only [ConfigRoot.document, Document.mk.injEq] at same
            rw [← same]
            exact ⟨_, List.mem_append_right _ List.mem_cons_self⟩
          obtain ⟨lead, front, expression, value, finish, after, split, read,
              further, rfl, leads⟩ :=
            exists_leadsTo parsed exports
          have start : text.upTo (front ++ expression) = lead := by
            rw [split, upTo_append]
          rw [start] at found
          obtain ⟨before, whole, texts⟩ :=
            exists_textThen lead (.defaultExport ⟨front, value⟩ :: after)
          rw [whole] at found
          obtain ⟨rfl, before', rfl, rfl, one⟩ := Document.locate_eq texts found
          refine ⟨lead, expression, finish, split, read, further, one, ?_,
            leads⟩
          rw [before']
          rw [textThen_append] at whole
          exact (List.append_cancel_right whole).symm

theorem exists_readsNode_of_locateText {text : Text} {root : ConfigRoot}
    (located : locateText text = .ok root) :
    ∃ inner rest,
      ReadsNode inner (.object root.literal) rest ∧ inner <:+ text := by
  obtain ⟨lead, expression, finish, split, read, -⟩ := locateText_eq_ok located
  obtain ⟨inner, rest, reads, suffix⟩ :=
    (readsValue_of_parseValue read).exists_argument rfl
  refine ⟨inner, rest, reads, suffix.trans ?_⟩
  rw [split, ← List.append_assoc]
  exact List.suffix_append _ _

/-- The text with another literal in the place of the configuration is read as
the same document around that literal. -/
theorem locateText_replace {text : Text} {root : ConfigRoot}
    (located : locateText text = .ok root) {printed : Text}
    {literal : ObjectLiteral} (reads :
      ReadsNode (printed ++ root.textAfter) (.object literal) root.textAfter) :
    locateText (root.textBefore ++ (printed ++ root.textAfter)) =
      .ok (root.replace literal) := by
  obtain ⟨fromText, whole⟩ := ConfigRoot.fromText_of_locateText located
  obtain ⟨lead, expression, finish, split, read, further, one, before, leads⟩ :=
    locateText_eq_ok located
  have reads' := readsValue_of_parseValue read
  obtain ⟨behind, split', ⟨character, heads, starts⟩, replace⟩ :=
    reads'.replace rfl
  have rest : root.after.flatMap Segment.source = finish.1 :=
    (parseSegments_split (List.suffix_refl finish.1) further).2
  have same : behind = root.textAfter := by
    have source := split'.symm.trans reads'.split.2
    rw [Expr.source_call, ← rest] at source
    simpa [ConfigRoot.textAfter, ConfigRoot.call, Argument.sources] using source
  subst same
  have texts : ∀ segment ∈ root.before, ∃ kept, segment = .text kept := by
    obtain ⟨texts', shape, all⟩ := exists_textThen lead []
    rw [before, shape, List.append_nil]
    exact all
  have lead' : root.before.flatMap Segment.source = lead := by
    rw [before, Segment.textThen_source]
    simp
  obtain ⟨first, others, callee⟩ :
      ∃ first others, root.callee = first :: others := by
    cases shape : root.call.callee with
    | nil => simp [shape] at heads
    | cons first others => exact ⟨first, others, shape⟩
  have reading := replace printed literal reads
  obtain ⟨finish', read', place⟩ := parseValue_of_readsValue reading
  obtain ⟨-, leads⟩ :=
    leads (root.callee ++ '(' :: (root.leading ++ (printed ++ root.textAfter)))
        (by simp) (by rw [split']; simp [ConfigRoot.call, callee]) (by
      rw [callee]
      refine beginsToken_of_identifierStart ?_
      simp_all [ConfigRoot.call])
  have text' : root.textBefore ++ (printed ++ root.textAfter) =
      lead ++ (root.head ++
        (root.callee ++ '(' ::
          (root.leading ++ (printed ++ root.textAfter)))) := by
    simp [ConfigRoot.textBefore, lead']
  have parsed := leads _ finish' root.after read' (by rw [place]; exact further)
    (lead ++ (root.head ++
      (root.callee ++ '(' :: (root.leading ++ (printed ++ root.textAfter)))))
  have segments : Segment.textThen lead
      (.defaultExport ⟨root.head, .call (root.replace literal).call⟩ ::
        root.after) = (root.replace literal).document.segments := by
    rw [textThen_append, ← before]
    rfl
  rw [upTo_append] at parsed
  have parsed' :
      Document.parse (root.textBefore ++ (printed ++ root.textAfter)) =
        .ok (root.replace literal).document := by
    rw [text']
    exact Document.parse_eq_ok.2 (parsed.trans (congrArg Except.ok segments))
  rw [locateText, parsed']
  simp only [Document.locate_replace texts one]

mutual

theorem Expr.Every.distinct {value : Expr}
    (unique : value.Every fun literal => literal.names.Nodup)
    (options : PrintOptions) :
    (value.valueIn options).Distinct := by
  match value with
  | .object ⟨members, close, trailingComma⟩ =>
      refine ⟨?_, Member.AllEvery.distinct unique.2 options⟩
      rw [Member.names_entriesIn]
      exact unique.1
  | .number text =>
      rw [Expr.valueIn]
      split <;> trivial
  | .call _ | .string _ _ | .boolean _ | .verbatim _ => trivial

theorem Member.AllEvery.distinct {members : List Member}
    (unique : Member.AllEvery (fun literal => literal.names.Nodup) members)
    (options : PrintOptions) :
    PatchValue.AllDistinct (Member.entriesIn options members) := by
  match members with
  | [] => trivial
  | .property ⟨key, value, layout⟩ :: others =>
      exact ⟨Expr.Every.distinct unique.1 options,
        Member.AllEvery.distinct unique.2 options⟩
  | .written member :: others =>
      have further := @Member.AllEvery.distinct others unique options
      rw [Member.entriesIn]
      cases member.name with
      | none => exact further
      | some name => exact ⟨trivial, further⟩

end

/-- In the place of the configuration, each angled value of the literal is read
as itself. -/
def ConfigRoot.Settles (options : PrintOptions) (root : ConfigRoot)
    (literal : ObjectLiteral) :
    Prop :=
  (Expr.object literal).Settled options root.document.lineBreak false root.line
    root.textAfter

theorem ConfigRoot.settles_of_plain {literal : ObjectLiteral}
    (plain : (Expr.object literal).angled = false) (options : PrintOptions)
    (root : ConfigRoot) :
    root.Settles options literal :=
  Expr.settled_of_plain plain options _ _ _ _

theorem readText_eq
    {text : Text} {root : ConfigRoot} (located : locateText text = .ok root)
    (distinct : ((Expr.object root.literal).valueIn .standard).Distinct) :
    readText text = .ok ((Expr.object root.literal).valueIn .standard) := by
  rw [readText, located, Expr.valueIn_object, ← ObjectLiteral.read_eq distinct]
  rfl

/-- A printable literal in the place of the configuration is read back, and the
document around it is the same. -/
theorem exists_locateText_print
    {options : PrintOptions} {text : Text} {root : ConfigRoot}
    {literal : ObjectLiteral} (located : locateText text = .ok root)
    (printable : (Expr.object literal).Every (ObjectLiteral.Printable options))
    (settled : root.Settles options literal) :
    ∃ node, locateText ((root.replace literal).document.print options) =
      .ok (root.replace node) ∧
      (Expr.object node).source =
        (Expr.object literal).printFrom options root.document.lineBreak
          false root.line ∧
      (Expr.object literal).RereadAs options (.object node) := by
  have fromText := (ConfigRoot.fromText_of_locateText located).1
  have blank : root.line.Blank := by
    refine Line.Blank.after ?_ root.textBefore
    simp [Line.Blank, Line.start]
  obtain ⟨node, reads, reread⟩ :=
    Expr.exists_readsNode rfl printable blank settled
  refine ⟨node, ?_, (List.append_cancel_right reads.split.2).symm, reread⟩
  rw [fromText.print_replace]
  exact locateText_replace located reads

/-- A printable literal in the place of the configuration is read back with its
values. -/
theorem readText_replace
    {options : PrintOptions} {text : Text} {root : ConfigRoot}
    {literal : ObjectLiteral} (located : locateText text = .ok root)
    (printable : (Expr.object literal).Every (ObjectLiteral.Printable options))
    (settled : root.Settles options literal)
    (distinct : ((Expr.object literal).valueIn options).Distinct) :
    readText ((root.replace literal).document.print options) =
      .ok ((Expr.object literal).valueIn options) := by
  obtain ⟨node, located', -, reread⟩ :=
    exists_locateText_print located printable settled
  have same := reread.valueIn
  have values := readText_eq located' (same ▸ distinct)
  exact values.trans (congrArg Except.ok same)

end ConfigEdit
