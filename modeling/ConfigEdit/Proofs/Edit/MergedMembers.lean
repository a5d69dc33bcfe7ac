import ConfigEdit.Proofs.Edit.Overlay

/-!
# What a merge makes of an object literal

Each member stays in its place: untouched if the patch does not name it, and
with its key and the text around it if it does.  Behind them stands one new
property for each new name of the patch.  If the names in each object literal
are distinct, they are distinct after the merge, and the values are the old
values with the patch laid over them.
-/

namespace ConfigEdit

/-- What a merge makes of a member. -/
structure Member.MergedBy (patch : Entries PatchValue)
    (member merged : Member) : Prop where
  untouched : (∀ name ∈ member.name?, name ∉ patch.names) → merged = member
  name : merged.name? = member.name?
  property : ∀ entry, member = .property entry →
    ∃ value, merged = .property (entry.withValue value)
  written : ∀ written, member = .written written →
    merged.leading? = some written.leading ∧ merged.trailing = written.trailing

/-- The new property that an entry of a patch is written as. -/
def Property.SynthesizedFrom (path : PropertyPath) (entry : Text × PatchValue)
    (property : Property) : Prop :=
  ∃ value, entry.2.build (path.child entry.1) = .ok value ∧
    property = .ofValue entry.1 value

theorem Member.MergedBy.refl (patch : Entries PatchValue) (member : Member) :
    member.MergedBy patch member := by
  constructor
  · intro _
    rfl
  · rfl
  · rintro ⟨key, value, layout⟩ rfl
    exact ⟨value, rfl⟩
  · rintro written rfl
    exact ⟨rfl, rfl⟩

/-- A member that the patch names keeps its key and the text around it. -/
theorem mergedBy_of_mergeMember
    {path : PropertyPath} {patch : Entries PatchValue} {name : Text}
    {value : PatchValue} {member merged : Member}
    (named : member.name? = some name) (wanted : patch.get? name = some value)
    (found : mergeMember path name value member = .ok merged) :
    member.MergedBy patch merged := by
  have inside := Entries.mem_names_of_get? wanted
  constructor
  · intro absent
    exact absurd inside (absent name named)
  · exact (mergeMember_shape named found).1
  · rintro entry rfl
    rcases mergeMember_eq_ok found with
      ⟨key, literal, layout, nested, below, same, -, -, rfl⟩ |
        ⟨entry, expr, same, -, -, rfl⟩ | ⟨written, expr, same, -, -⟩
    · cases same
      exact ⟨.object below, rfl⟩
    · cases same
      exact ⟨expr, rfl⟩
    · contradiction
  · rintro written rfl
    rcases mergeMember_eq_ok found with
      ⟨key, literal, layout, nested, below, same, -, -, -⟩ |
        ⟨entry, expr, same, -, -, -⟩ | ⟨written, expr, same, -, rfl⟩
    · contradiction
    · contradiction
    · cases same
      exact ⟨rfl, rfl⟩

theorem mergedBy_of_mergeMembers
    {path : PropertyPath} {patch : Entries PatchValue}
    {seen : List Text} {members merged : List Member}
    (found : mergeMembers path patch seen members = .ok merged) :
    List.Forall₂ (Member.MergedBy patch) members merged := by
  induction members generalizing seen merged with
  | nil =>
      rw [mergeMembers] at found
      cases found
      exact .nil
  | cons member others induction =>
      obtain ⟨first, further, rfl, rest, merging⟩ := mergeMembers_cons found
      apply List.Forall₂.cons _ (induction rest)
      rcases merging with ⟨rfl, -⟩ | ⟨name, value, named, -, wanted, merging⟩
      · exact .refl patch first
      · exact mergedBy_of_mergeMember named wanted merging

theorem synthesized_of_buildProperties {path : PropertyPath}
    {entries : Entries PatchValue} {properties : List Property}
    (built : PatchValue.buildProperties path entries = .ok properties) :
    List.Forall₂ (Property.SynthesizedFrom path) entries properties := by
  induction entries generalizing properties with
  | nil =>
      rw [PatchValue.buildProperties] at built
      cases built
      exact .nil
  | cons entry others induction =>
      obtain ⟨expr, further, first, rest, rfl⟩ :=
        buildProperties_cons_eq_ok built
      exact .cons ⟨expr, first, rfl⟩ (induction rest)

mutual

theorem Expr.Every.of_distinct {options : PrintOptions} {value : Expr}
    (distinct : (value.valueIn options).Distinct) :
    value.Every fun literal => literal.names.Nodup := by
  match value with
  | .object ⟨members, close, trailingComma⟩ =>
      have names := distinct.1
      rw [Member.names_entriesIn] at names
      exact ⟨names, Member.AllEvery.of_distinct distinct.2⟩
  | .call _ | .number _ | .string _ _ | .boolean _ | .verbatim _ => trivial

theorem Member.AllEvery.of_distinct
    {options : PrintOptions} {members : List Member}
    (distinct : PatchValue.AllDistinct (Member.entriesIn options members)) :
    Member.AllEvery (fun literal => literal.names.Nodup) members := by
  match members with
  | [] => trivial
  | .property ⟨key, value, layout⟩ :: others =>
      exact ⟨Expr.Every.of_distinct distinct.1,
        Member.AllEvery.of_distinct distinct.2⟩
  | .written member :: others =>
      rw [Member.entriesIn] at distinct
      cases named : member.name with
      | none =>
          rw [named] at distinct
          exact @Member.AllEvery.of_distinct options others distinct
      | some name =>
          rw [named] at distinct
          exact @Member.AllEvery.of_distinct options others distinct.2

end

theorem ObjectLiteral.object_read_eq {literal : ObjectLiteral}
    (unique : (Expr.object literal).Every fun literal => literal.names.Nodup) :
    PatchValue.object literal.read =
      (Expr.object literal).valueIn .standard := by
  rw [ObjectLiteral.read_eq (unique.distinct .standard), Expr.valueIn_object]

/-- A merge keeps the members in their places, puts the new names behind them
and lays the patch over the values. -/
theorem mergeObject_meets {path : PropertyPath} {patch : KeyedPatch}
    {literal merged : ObjectLiteral}
    (found : mergeObject path patch.entries literal = .ok merged) :
    (∃ kept appended,
      merged =
        ⟨kept ++ appended.map .property, literal.close, literal.trailingComma⟩ ∧
      List.Forall₂ (Member.MergedBy patch.entries) literal.members kept ∧
      List.Forall₂ (Property.SynthesizedFrom path)
        (patch.entries.filter fun entry => !literal.names.contains entry.1)
        appended) ∧
    ((Expr.object literal).Every (fun literal => literal.names.Nodup) →
      (Expr.object merged).Every (fun literal => literal.names.Nodup) ∧
      PatchValue.object merged.read =
        PatchValue.overlay .standard
          (.object literal.read) path patch.toValue) := by
  constructor
  · obtain ⟨kept, appended, keeping, appending, rfl⟩ := mergeObject_eq_ok found
    exact ⟨kept, appended, rfl, mergedBy_of_mergeMembers keeping,
      synthesized_of_buildProperties appending⟩
  · intro unique
    have values : (Expr.object merged).valueIn .standard = _ :=
      valueIn_mergeObject unique found
    have distinct :=
      (unique.distinct .standard).overlay patch.distinct .standard path
    rw [Patch.toValue, ← values] at distinct
    have unique' := Expr.Every.of_distinct distinct
    refine ⟨unique', ?_⟩
    rw [ObjectLiteral.object_read_eq unique', values,
      ObjectLiteral.object_read_eq unique, Patch.toValue]

/-- The literal of `{ a: { x: true, y }, b, ...rest }`. -/
def mixedLiteral : ObjectLiteral :=
  ⟨[.property ⟨⟨['a'], some ['a']⟩,
      .object ⟨[.property ⟨⟨['x'], some ['x']⟩, .boolean true,
        some ⟨[' '], [':', ' '], []⟩⟩,
        .written ⟨some ['y'], ['y'], [' '], [' ']⟩], some [], some false⟩,
      some ⟨[' '], [':', ' '], []⟩⟩,
    .written ⟨some ['b'], ['b'], [' '], []⟩,
    .written ⟨none, "...rest".toList, [' '], [' ']⟩], some [], some false⟩

/-- The patch of `{ a: { x: false, z: 's' }, b: { c: true }, d: f(e) }`. -/
def mixedPatch : KeyedPatch where
  entries :=
    [(['a'], .object [(['x'], .boolean false), (['z'], .string ['s'])]),
      (['b'], .object [(['c'], .boolean true)]), (['d'], .call "f(e)".toList)]
  distinct := by decide

/-- The literal of
`{ a: { x: false, y, z: 's' }, b: { c: true }, ...rest, d: f(e) }`. -/
def mixedMerged : ObjectLiteral :=
  ⟨[.property ⟨⟨['a'], some ['a']⟩,
      .object ⟨[.property ⟨⟨['x'], some ['x']⟩, .boolean false,
        some ⟨[' '], [':', ' '], []⟩⟩,
        .written ⟨some ['y'], ['y'], [' '], [' ']⟩,
        .property (.ofValue ['z'] (.string ['s'] none))], some [], some false⟩,
      some ⟨[' '], [':', ' '], []⟩⟩,
    .property ⟨.ofName ['b'],
      .object (.ofProperties [.ofValue ['c'] (.boolean true)]),
      some ⟨[' '], [':', ' '], []⟩⟩,
    .written ⟨none, "...rest".toList, [' '], [' ']⟩,
    .property (.ofValue ['d'] (.call (.ofArguments ['f'] [.verbatim ['e']])))],
    some [], some false⟩

/-- An object is merged into, a shorthand is replaced and a spread stays. -/
theorem mergeObject_meets_mixed :
    mergeObject .root mixedPatch.entries mixedLiteral = .ok mixedMerged ∧
      (Expr.object mixedLiteral).Every (fun literal => literal.names.Nodup) ∧
      PatchValue.object mixedMerged.read =
        PatchValue.overlay .standard (.object mixedLiteral.read) .root
          mixedPatch.toValue := by
  have found : mergeObject .root mixedPatch.entries mixedLiteral =
      .ok mixedMerged := by with_unfolding_all rfl
  have unique :
      (Expr.object mixedLiteral).Every fun literal => literal.names.Nodup := by
    simp [mixedLiteral, Expr.Every, Member.AllEvery, ObjectLiteral.names,
      Member.name?, List.filterMap_cons]
  exact ⟨found, unique, ((mergeObject_meets found).2 unique).2⟩

end ConfigEdit
