import ConfigEdit.Proofs.Edit.Canonical
import ConfigEdit.Proofs.Edit.Replacement

/-!
# Overwriting a configuration

With overwriting, the configuration is built anew from the patch alone.  A patch
whose calls are all accepted is always written, the text around the
configuration stays, and the new configuration is read back as the canonical
values of the patch.

An argument of a call may be an object literal that is kept as it is written.
Where such a literal has an angled value, the look for type arguments may go
past the end of the call, as far as a quotation mark in a comment behind it.
`Patch.SettlesIn` asks that each angled value is read as itself.
-/

namespace ConfigEdit

namespace PatchValue

mutual

/-- Each call in the value at a path can be built. -/
def Accepted (path : PropertyPath) : PatchValue → Prop
  | .object entries => AllAccepted path entries
  | .call text => ∃ built, buildCall path text = .ok built
  | .number _ | .string _ | .boolean _ => True

/-- Each call in the entries of an object at a path can be built. -/
def AllAccepted (path : PropertyPath) : List (Text × PatchValue) → Prop
  | [] => True
  | (key, value) :: others =>
      value.Accepted (path.child key) ∧ AllAccepted path others

end

mutual

theorem Accepted.exists_build {path : PropertyPath} {value : PatchValue}
    (accepted : value.Accepted path) : ∃ expr, value.build path = .ok expr := by
  match value with
  | .number _ | .string _ | .boolean _ => exact ⟨_, rfl⟩
  | .call text => exact accepted
  | .object entries =>
      obtain ⟨properties, built⟩ := AllAccepted.exists_buildProperties accepted
      exact ⟨.object (.ofProperties properties), by rw [build, built]⟩

theorem AllAccepted.exists_buildProperties {path : PropertyPath}
    {entries : Entries PatchValue} (accepted : AllAccepted path entries) :
    ∃ properties, buildProperties path entries = .ok properties := by
  match entries with
  | [] => exact ⟨[], rfl⟩
  | (key, value) :: others =>
      obtain ⟨expr, built⟩ := Accepted.exists_build accepted.1
      obtain ⟨properties, further⟩ :=
        AllAccepted.exists_buildProperties accepted.2
      exact ⟨.ofValue key expr :: properties,
        by rw [buildProperties, built, further]⟩

end

end PatchValue

mutual

theorem every_leadings_of_build {path : PropertyPath} {value : PatchValue}
    {expr : Expr} (built : value.build path = .ok expr) :
    expr.Every fun literal => literal.leadings = [] := by
  match value with
  | .number _ | .string _ | .boolean _ =>
      cases built
      trivial
  | .call text =>
      rw [PatchValue.build] at built
      obtain ⟨-, call, rfl⟩ := spelled_of_buildCall built
      trivial
  | .object entries =>
      obtain ⟨properties, found, rfl⟩ := build_object_eq_ok built
      refine Expr.every_object.2 ⟨?_,
        allEvery_leadings_of_buildProperties found⟩
      simpa [ObjectLiteral.leadings, ObjectLiteral.ofProperties,
        List.filterMap_eq_nil_iff] using buildProperties_leading? found

theorem allEvery_leadings_of_buildProperties {path : PropertyPath}
    {entries : Entries PatchValue} {properties : List Property}
    (built : PatchValue.buildProperties path entries = .ok properties) :
    Member.AllEvery (fun literal => literal.leadings = [])
      (properties.map .property) := by
  match entries with
  | [] =>
      cases built
      trivial
  | (key, value) :: others =>
      obtain ⟨expr, further, first, rest, rfl⟩ :=
        buildProperties_cons_eq_ok built
      exact ⟨every_leadings_of_build first,
        allEvery_leadings_of_buildProperties rest⟩

end

/-- What is built for a value can be printed, if one step of indentation is
trivia. -/
theorem printable_of_build
    {options : PrintOptions} (indent : Trivia options.indent)
    {path : PropertyPath} {value : PatchValue} {expr : Expr}
    (built : value.build path = .ok expr) :
    expr.Every (ObjectLiteral.Printable options) := by
  obtain ⟨new, -⟩ := @isNew_of_build options _ _ _ built
  apply (new.every.and (every_leadings_of_build built)).imp
  rintro literal ⟨⟨sound, spaced⟩, new⟩
  exact ⟨sound, spaced, fun some => absurd new some, fun _ => indent⟩

/-- The literal that is built for the patch is settled in the place of the
configuration: each angled value in it is read as itself. -/
def Patch.SettlesIn (options : PrintOptions) (root : ConfigRoot)
    (patch : Patch) : Prop :=
  ∀ literal, buildObject .root patch.entries = .ok literal →
    root.Settles options literal

theorem Trivia.of_blanksAndTabs {indent : Text}
    (blanks : ∀ character ∈ indent, character = ' ' ∨ character = '\t') :
    Trivia indent := by
  apply Trivia.of_gaps
  intro character inside
  rcases blanks character inside with rfl | rfl <;> decide

/-- Overwriting puts the patch in the place of the configuration, keeps the
document around it, and is read back. -/
theorem updateText_overwrite {options : PrintOptions} {patch : KeyedPatch}
    {text : Text} {root : ConfigRoot} (located : locateText text = .ok root)
    (accepted : patch.toValue.Accepted .root)
    (indent : ∀ character ∈ options.indent, character = ' ' ∨ character = '\t')
    (settles : patch.SettlesIn options root) :
    ∃ out literal, updateText options patch true text = .ok out ∧
      text = root.textBefore ++
        ((Expr.object root.literal).source ++ root.textAfter) ∧
      out = root.textBefore ++
        ((Expr.object literal).source ++ root.textAfter) ∧
      locateText out = .ok (root.replace literal) ∧
      literal.names = patch.entries.names ∧
      readText out = .ok (patch.toValue.canonical options .root) := by
  obtain ⟨fromText, split⟩ := ConfigRoot.fromText_of_locateText located
  obtain ⟨properties, found⟩ :=
    PatchValue.AllAccepted.exists_buildProperties accepted
  have built :
      patch.toValue.build .root = .ok (.object (.ofProperties properties)) := by
    rw [Patch.toValue, PatchValue.build, found]
  have object :
      buildObject .root patch.entries = .ok (.ofProperties properties) := by
    rw [buildObject, found]
    rfl
  have printable := printable_of_build (.of_blanksAndTabs indent) built
  have settled := settles _ object
  have values := (@isNew_of_build options _ _ _ built).2
  obtain ⟨node, located', printed, reread⟩ :=
    exists_locateText_print located printable settled
  refine ⟨_, node, ?_, split, ?_, located', ?_, ?_⟩
  · rw [updateText, located]
    simp only [bind, Except.bind, if_true, object]
    rfl
  · rw [fromText.print_replace, printed]
  · have names := Member.names_entriesIn .standard node.members
    have entries := reread.valueIn.trans values
    rw [Expr.valueIn_object] at entries
    rw [PatchValue.object.inj entries, PatchValue.names_canonicalEntries]
      at names
    exact names.symm
  · rw [← values]
    refine readText_replace located printable settled ?_
    rw [values]
    exact patch.distinct.canonical options .root

/-- A configuration between type arguments and another argument. -/
def typedRoot : ConfigRoot :=
  { before := []
    head := "export default ".toList
    callee := "f<T>".toList
    leading := "/* c */ ".toList
    literal :=
      ⟨[.property ⟨⟨['a'], some ['a']⟩, .number ['1'], some ⟨[], [':'], []⟩⟩],
        some [], some false⟩
    trailing := []
    otherArgs := [⟨[' '], .number ['2'], []⟩]
    close := []
    trailingComma := false
    after := [.text ";\n".toList] }

/-- A patch with a call that has an object literal as its argument. -/
def callPatch : KeyedPatch where
  entries := [(['k'], .call "g(\x7b a: 1 \x7d)".toList), (['s'], .string ['x'])]
  distinct := by decide

/-- Overwriting with a call that has an object literal as its argument. -/
theorem updateText_overwrite_call :
    ∃ out literal,
      updateText .standard callPatch true
        "export default f<T>(/* c */ \x7ba:1\x7d, 2);\n".toList = .ok out ∧
      locateText out = .ok (typedRoot.replace literal) ∧
      literal.names = [['k'], ['s']] ∧
      readText out = .ok (callPatch.toValue.canonical .standard .root) := by
  have located :
      locateText "export default f<T>(/* c */ \x7ba:1\x7d, 2);\n".toList =
        .ok typedRoot := by with_unfolding_all rfl
  have built : buildCall [['k']] "g(\x7b a: 1 \x7d)".toList =
      .ok (.call (.ofArguments ['g']
        [.object ⟨[.property ⟨⟨['a'], some ['a']⟩, .number ['1'],
          some ⟨[' '], [':', ' '], []⟩⟩],
          some [' '], some false⟩])) := by with_unfolding_all rfl
  obtain ⟨out, literal, updated, -, -, located', names, read⟩ :=
    @updateText_overwrite .standard callPatch _ _ located
        ⟨⟨_, built⟩, trivial, trivial⟩ (by simp [PrintOptions.standard]) (by
        intro literal object
        simp only [callPatch, buildObject, PatchValue.buildProperties,
          PatchValue.build] at object
        rw [show PropertyPath.child .root ['k'] = [['k']] from rfl, built]
          at object
        obtain rfl := Except.ok.inj object
        exact ConfigRoot.settles_of_plain rfl _ _)
  exact ⟨out, literal, updated, located', names, read⟩

/-- The text of a call with an angled value and a quotation mark in a comment
behind it. -/
def quotedMarker : Text :=
  "f(\x7b a: g< /* \x27 */ \x60 /* \x27 */ > (1), ".toList ++
    "b: x < y /* \x27 */ \x7d // \x27 \x60 \x7d)".toList

/-- What `quotedMarker` is written as in the place of an empty configuration. -/
def quotedText : Text :=
  "export default f(\x7b\n  k: f(\x7b a: g< /* \x27 */ \x60 /* \x27 */ > (1), ".toList ++
    "b: x < y /* \x27 */ \x7d),\n\x7d)\n".toList

/-- The quotation mark begins a string that goes on behind the call, and what
was written cannot be read. -/
theorem updateText_overwrite_unread :
    (buildCall [['k']] quotedMarker).toOption.isSome = true ∧
      updateText .standard ⟨[(['k'], .call quotedMarker)]⟩ true
        "export default f(\x7b\x7d)\n".toList = .ok quotedText ∧
      (readText quotedText).toOption.isSome = false :=
  ⟨by decide +kernel, by decide +kernel, by decide +kernel⟩

end ConfigEdit
