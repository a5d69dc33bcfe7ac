import ConfigEdit.Proofs.Document.Rebreaking
import ConfigEdit.Proofs.Edit.Walk

/-!
# Configurations with other line breaks

Whether a text is a document, what it exports and which members its
configuration has does not depend on the line breaks of the text, with one
exception: a string literal that goes on over the end of a line behind a
backslash is no string literal with the other line break.
-/

namespace ConfigEdit

/-- Where a visited member is, and its name. -/
def Visit.named (visit : Visit) : PropertyPath × Option Text :=
  (visit.around, visit.member.name?)

/-- The members that a walk of the object literal meets: where they are, and
their names. -/
def ObjectLiteral.memberNames
    (literal : ObjectLiteral) : List (PropertyPath × Option Text) :=
  ((Expr.object literal).walk .root).map Visit.named

/-- The documents export expressions of the same kinds, and have configurations
with the same members, if they have any. -/
structure Document.Alike (left right : Document) : Prop where
  kinds : left.exports.map (Expr.kind ∘ DefaultExport.value) =
    right.exports.map (Expr.kind ∘ DefaultExport.value)
  members :
    left.locate.toOption.map (ObjectLiteral.memberNames ∘ ConfigRoot.literal) =
      right.locate.toOption.map (ObjectLiteral.memberNames ∘ ConfigRoot.literal)

/-- The object literal that is the first argument of an exported call. -/
def DefaultExport.configuration? : DefaultExport → Option ObjectLiteral
  | ⟨_, .call ⟨_, ⟨_, .object literal, _⟩ :: _, _, _⟩⟩ => some literal
  | _ => none

/-- The object literal of the configuration of a document with these exports. -/
def configuration? : List DefaultExport → Option ObjectLiteral
  | [exported] => exported.configuration?
  | _ => none

theorem exports_eq_splitAtExport? (segments : List Segment) :
    (Document.mk segments).exports =
      match splitAtExport? segments with
      | none => []
      | some (_, value, after) => value :: (Document.mk after).exports := by
  induction segments with
  | nil => rfl
  | cons segment others induction =>
      cases segment with
      | defaultExport value => rfl
      | text text =>
          have same : (Document.mk (.text text :: others)).exports =
              (Document.mk others).exports :=
            rfl
          rw [same, induction, splitAtExport?]
          cases splitAtExport? others with
          | none => rfl
          | some found => rfl

theorem Document.exportCount_eq (document : Document) :
    document.exportCount = document.exports.length := by
  rw [exportCount, exports, List.length_filterMap_eq_countP]
  congr
  funext segment
  cases segment <;> rfl

theorem Document.literal_locate (document : Document) :
    document.locate.toOption.map ConfigRoot.literal =
      configuration? document.exports := by
  have count := document.exportCount_eq
  obtain ⟨segments⟩ := document
  rw [locate]
  split
  · next none' =>
      rw [exports_eq_splitAtExport?, none']
      rfl
  · next before value after found =>
      have shape : (Document.mk segments).exports =
          value :: (Document.mk after).exports := by
        rw [exports_eq_splitAtExport?, found]
      rw [shape] at count ⊢
      rw [List.length_cons] at count
      cases others : (Document.mk after).exports with
      | cons first rest =>
          rw [if_pos (by simp [count, others])]
          rfl
      | nil =>
          rw [if_neg (by simp [count, others])]
          obtain ⟨head, exported⟩ := value
          cases exported with
          | object | number | string | boolean | verbatim => rfl
          | call call =>
              obtain ⟨callee, args, close, trailingComma⟩ := call
              cases args with
              | nil => rfl
              | cons argument others =>
                  obtain ⟨leading, value, trailing⟩ := argument
                  cases value <;> rfl

theorem DefaultExport.configuration?_rebreak
    (lineBreak : LineBreak) (exported : DefaultExport) :
    (exported.rebreak lineBreak).configuration? =
      exported.configuration?.map (ObjectLiteral.rebreak lineBreak) := by
  match exported with
  | ⟨_, .call ⟨_, [], _, _⟩⟩ => rfl
  | ⟨_, .call ⟨_, ⟨_, value, _⟩ :: _, _, _⟩⟩ =>
      match value with
      | .object ⟨_, _, _⟩ | .call ⟨_, _, _, _⟩ | .number _ | .string _ _ |
          .boolean _ | .verbatim _ => rfl
  | ⟨_, .object ⟨_, _, _⟩⟩ | ⟨_, .number _⟩ | ⟨_, .string _ _⟩ |
      ⟨_, .boolean _⟩ | ⟨_, .verbatim _⟩ => rfl

theorem configuration?_rebreak
    (lineBreak : LineBreak) (exports : List DefaultExport) :
    configuration? (exports.map (DefaultExport.rebreak lineBreak)) =
      (configuration? exports).map (ObjectLiteral.rebreak lineBreak) := by
  match exports with
  | [] | _ :: _ :: _ => rfl
  | [exported] => exact exported.configuration?_rebreak lineBreak

@[simp] theorem Member.name?_outline (member : Member) :
    member.outline.name? = member.name? := by
  match member with
  | .property ⟨key, value, layout⟩ => cases value <;> rfl
  | .written member => rfl

theorem Visit.named_outline (path : PropertyPath) (member : Member) :
    Visit.named ⟨path, member.outline⟩ = (path, member.name?) := by
  rw [named, Member.name?_outline]

mutual

theorem Expr.walk_rebreak
    (lineBreak : LineBreak) (path : PropertyPath) (value : Expr) :
    ((value.rebreak lineBreak).walk path).map Visit.named =
      (value.walk path).map Visit.named := by
  match value with
  | .object ⟨members, close, trailingComma⟩ =>
      exact Member.walk_rebreakAll lineBreak path members
  | .call ⟨_, _, _, _⟩ | .number _ | .string _ _ | .boolean _
  | .verbatim _ => rfl

theorem Member.walk_rebreakAll (lineBreak : LineBreak) (path : PropertyPath)
    (members : List Member) :
    (Member.walk path (Member.rebreakAll lineBreak members)).map Visit.named =
      (Member.walk path members).map Visit.named := by
  match members with
  | [] => rfl
  | .property ⟨key, value, layout⟩ :: others =>
      have inner := Expr.walk_rebreak lineBreak (path.child key.name) value
      have further := Member.walk_rebreakAll lineBreak path others
      simp only [Member.rebreakAll, Member.walk, List.map_cons, List.map_append,
        inner, further, Visit.named_outline]
      rfl
  | .written member :: others =>
      have further := Member.walk_rebreakAll lineBreak path others
      simp only [Member.rebreakAll, Member.walk, List.map_cons, further,
        Visit.named_outline]
      rfl

end

theorem ObjectLiteral.memberNames_rebreak
    (lineBreak : LineBreak) (literal : ObjectLiteral) :
    (literal.rebreak lineBreak).memberNames = literal.memberNames := by
  rw [memberNames, ← Expr.rebreak_object, Expr.walk_rebreak, memberNames]

theorem Document.Alike.of_rebreak
    {lineBreak : LineBreak} {left right : Document} (same :
      right.exports = left.exports.map (DefaultExport.rebreak lineBreak)) :
    left.Alike right := by
  constructor
  · simp [same, Function.comp_def, DefaultExport.rebreak]
  · rw [← Option.map_map, ← Option.map_map, literal_locate, literal_locate,
      same, configuration?_rebreak, Option.map_map]
    congr
    funext literal
    exact (literal.memberNames_rebreak lineBreak).symm

theorem Document.Alike.symm {left right : Document} (alike : left.Alike right) :
    right.Alike left :=
  ⟨alike.kinds.symm, alike.members.symm⟩

/-- A text without carriage returns is a document if it is one with a carriage
return in front of each line feed, and the documents are alike.  The other way
round too, as long as nothing that a quotation mark opens goes on over the end
of a line. -/
theorem Document.parse_crlf {text : Text} (noReturn : '\r' ∉ text) :
    (∀ other, Document.parse (text.rebreak .crlf) = .ok other →
      ∃ document, Document.parse text = .ok document ∧ document.Alike other) ∧
    (text.Uncontinued → ∀ document, Document.parse text = .ok document →
      ∃ other, Document.parse (text.rebreak .crlf) = .ok other ∧
        document.Alike other) := by
  refine ⟨fun other found => ?_, fun uncontinued document found => ?_⟩
  · obtain ⟨document, found', same⟩ :=
      exists_parse_rebreak .lf found (Text.rebreakable_crlf text)
    rw [Text.rebreak_lf_crlf noReturn] at found'
    exact ⟨document, found', (Alike.of_rebreak same).symm⟩
  · obtain ⟨other, found', same⟩ :=
      exists_parse_rebreak .crlf found ⟨.of_notMem noReturn, uncontinued⟩
    exact ⟨other, found', .of_rebreak same⟩

/-- A template literal may go on behind a backslash, and a comment over several
lines. -/
theorem Document.parse_crlf_nested :
    ∃ document other,
      Document.parse
        "export default f(\x7b // it\n  'a': \x7b b: `\\\n` /*\n*/ \x7d\n\x7d)".toList =
        .ok document ∧
      Document.parse
        "export default f(\x7b // it\r\n  'a': \x7b b: `\\\r\n` /*\r\n*/ \x7d\r\n\x7d)".toList =
        .ok other ∧
      document.Alike other ∧
      document.locate.toOption.map (ObjectLiteral.memberNames ∘
        ConfigRoot.literal) = some [(.root, some ['a']),
        (PropertyPath.root.child ['a'], some ['b'])] := by
  obtain ⟨-, further⟩ := @parse_crlf
    "export default f(\x7b // it\n  'a': \x7b b: `\\\n` /*\n*/ \x7d\n\x7d)".toList
    (by decide)
  obtain ⟨document, parsed⟩ : ∃ document,
      Document.parse
        "export default f(\x7b // it\n  'a': \x7b b: `\\\n` /*\n*/ \x7d\n\x7d)".toList =
        .ok document :=
    exists_eq_ok (by decide +kernel)
  obtain ⟨other, found, alike⟩ := further (by decide) document parsed
  have named : (Document.parse
      "export default f(\x7b // it\n  'a': \x7b b: `\\\n` /*\n*/ \x7d\n\x7d)".toList
      ).toOption.bind (fun document => document.locate.toOption.map
        (ObjectLiteral.memberNames ∘ ConfigRoot.literal)) =
      some [(.root, some ['a']),
        (PropertyPath.root.child ['a'], some ['b'])] := by
    decide +kernel
  rw [parsed] at named
  exact ⟨document, other, parsed, found, alike, named⟩

/-- A string literal that goes on over the end of a line, which a carriage
return and a line feed cut off. -/
theorem Document.parse_crlf_continued :
    '\r' ∉ "export default f(\x7b a: 'x\\\ny' \x7d)".toList ∧
    Text.rebreak .crlf "export default f(\x7b a: 'x\\\ny' \x7d)".toList =
        "export default f(\x7b a: 'x\\\r\ny' \x7d)".toList ∧
    (Document.parse
      "export default f(\x7b a: 'x\\\ny' \x7d)".toList).toOption.isSome = true ∧
    (Document.parse
      "export default f(\x7b a: 'x\\\r\ny' \x7d)".toList).toOption = none :=
  ⟨by decide, by decide, by decide +kernel, by decide +kernel⟩

end ConfigEdit
