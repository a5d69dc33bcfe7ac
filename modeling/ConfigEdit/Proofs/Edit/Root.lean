import ConfigEdit.Edit.Document
import ConfigEdit.Proofs.Document.Lossless
import ConfigEdit.Proofs.Outcome

/-!
# The configuration in its text

A text with a configuration is the text before the object literal, the literal,
and the text behind it.  Another literal in its place is printed between the
same two texts.
-/

namespace ConfigEdit

namespace ConfigRoot

/-- The text of a document up to its configuration. -/
def textBefore (root : ConfigRoot) : Text :=
  root.before.flatMap Segment.source ++
    (root.head ++ (root.callee ++ '(' :: root.leading))

/-- The text of a document behind its configuration. -/
def textAfter (root : ConfigRoot) : Text :=
  root.trailing ++ (Argument.sources [','] root.otherArgs ++
    ((if root.trailingComma then [','] else []) ++
      (root.close ++ ')' :: root.after.flatMap Segment.source)))

/-- The line on which the configuration begins. -/
def line (root : ConfigRoot) : Line := Line.start.after root.textBefore

/-- All parts of the document keep the text that they come from. -/
structure FromText (root : ConfigRoot) : Prop where
  before : ∀ segment ∈ root.before, segment.FromText
  literal : (Expr.object root.literal).FromText
  otherArgs : Argument.AllFromText root.otherArgs
  after : ∀ segment ∈ root.after, segment.FromText

end ConfigRoot

theorem splitAtExport?_eq_some
    {segments before after : List Segment} {value : DefaultExport}
    (found : splitAtExport? segments = some (before, value, after)) :
    segments = before ++ .defaultExport value :: after := by
  induction segments generalizing before with
  | nil => simp [splitAtExport?] at found
  | cons segment others induction =>
      cases segment with
      | defaultExport first =>
          simp only [splitAtExport?, Option.some.injEq, Prod.mk.injEq] at found
          obtain ⟨rfl, rfl, rfl⟩ := found
          rfl
      | text text =>
          rw [splitAtExport?] at found
          obtain ⟨⟨inner, first, rest⟩, split, same⟩ :=
            Option.map_eq_some_iff.1 found
          simp only [Prod.mk.injEq] at same
          obtain ⟨rfl, rfl, rfl⟩ := same
          rw [induction split, List.cons_append]

theorem Document.locate_document {document : Document} {root : ConfigRoot}
    (found : document.locate = .ok root) : root.document = document := by
  cases document with
  | mk segments =>
      rw [locate] at found
      split at found
      · contradiction
      · next before value after split =>
          have whole := splitAtExport?_eq_some split
          simp only at whole
          split at found
          · contradiction
          · split at found
            · next call called =>
                split at found
                · contradiction
                · next leading literal trailing otherArgs shape =>
                    cases found
                    cases value
                    cases call
                    simp only at called shape
                    simp [ConfigRoot.document, ConfigRoot.call, whole, called,
                      shape]
                · contradiction
            · contradiction

namespace ConfigRoot

variable {root : ConfigRoot}

theorem fromText_of_locateText
    {text : Text} (found : locateText text = .ok root) :
    root.FromText ∧
      text = root.textBefore ++
        ((Expr.object root.literal).source ++ root.textAfter) := by
  rw [locateText] at found
  split at found
  · contradiction
  · next document read =>
      split at found
      · contradiction
      · next located =>
          cases found
          obtain ⟨fromText, joined⟩ := Document.split_of_parse read
          rw [← Document.locate_document located] at fromText joined
          simp only [ConfigRoot.document, List.mem_append, List.mem_cons]
            at fromText
          have exported : (Expr.call root.call).FromText :=
            fromText _ (.inr (.inl rfl))
          obtain ⟨literal, otherArgs⟩ := (Expr.fromText_call _).1 exported
          refine ⟨⟨fun segment member => fromText segment (.inl member),
            literal, otherArgs,
            fun segment member => fromText segment (.inr (.inr member))⟩, ?_⟩
          rw [← joined]
          simp [ConfigRoot.document, call, textBefore, textAfter,
            Segment.source, Expr.source_call, Argument.sources]

theorem FromText.print_replace (fromText : root.FromText)
    (options : PrintOptions) (literal : ObjectLiteral) :
    (root.replace literal).document.print options =
      root.textBefore ++
        ((Expr.object literal).printFrom options root.document.lineBreak false
          root.line ++ root.textAfter) := by
  have breaks :
      (root.replace literal).document.lineBreak = root.document.lineBreak := by
    simp [document, replace, Document.lineBreak, List.findSome?_append,
      List.findSome?_cons]
  have segments : (root.replace literal).document.segments =
      root.before ++
        .defaultExport ⟨root.head, .call (root.replace literal).call⟩ ::
        root.after := rfl
  rw [Document.print, breaks, segments,
    Document.printSegments_append _ fromText.before, Document.printSegments,
    Document.printSegments_eq _ fromText.after, call, Expr.printFrom,
    Argument.printList]
  simp only [replace, Argument.printList_eq fromText.otherArgs,
    ← Line.after_append]
  simp [textBefore, textAfter, line]

end ConfigRoot

/-- An update puts another configuration in the place of the one that it finds,
and prints the document. -/
theorem exists_literal_of_updateText {options : PrintOptions} {patch : Patch}
    {overwrite : Bool} {text out : Text}
    (updated : updateText options patch overwrite text = .ok out) :
    ∃ root literal, locateText text = .ok root ∧
      (if overwrite then buildObject .root patch.entries
        else mergeObject .root patch.entries root.literal) = .ok literal ∧
      out = (root.replace literal).document.print options := by
  rw [updateText] at updated
  obtain ⟨root, located, updated⟩ := bind_eq_ok.1 updated
  cases overwrite with
  | true =>
      obtain ⟨literal, built, printed⟩ := bind_eq_ok.1 updated
      exact ⟨root, literal, located, built, (Except.ok.inj printed).symm⟩
  | false =>
      obtain ⟨literal, merged, printed⟩ := bind_eq_ok.1 updated
      exact ⟨root, literal, located, merged, (Except.ok.inj printed).symm⟩

theorem updateText_eq_ok
    {options : PrintOptions} {patch : Patch} {text out : Text}
    (updated : updateText options patch false text = .ok out) :
    ∃ root merged, locateText text = .ok root ∧
      mergeObject .root patch.entries root.literal = .ok merged ∧
      out = (root.replace merged).document.print options := by
  simpa using exists_literal_of_updateText updated

end ConfigEdit
