import ConfigEdit.Proofs.Edit.MergeEquations

/-!
# Patches compose

Merging two patches one after the other is merging their combination
(`mergeObject_combine`).  The later patch must not hold an object where the
earlier one holds another value: the combination holds that object too, and
would merge it into what stands in the literal, where the earlier patch has put
its value in between.
-/

namespace ConfigEdit

section Built

theorem names_of_buildProperties {path : PropertyPath}
    {entries : Entries PatchValue} {properties : List Property}
    (built : PatchValue.buildProperties path entries = .ok properties) :
    (properties.map Member.property).filterMap Member.name? =
      entries.names := by
  induction entries generalizing properties with
  | nil =>
      cases built
      rfl
  | cons entry others induction =>
      obtain ⟨key, value⟩ := entry
      obtain ⟨expr, further, -, rest, rfl⟩ := buildProperties_cons_eq_ok built
      simpa [Entries.names, Member.name?, Property.ofValue, Key.ofName]
        using induction rest

/-- A patch is merged into the members of a literal and into properties behind
them, and what it appends is new to both. -/
theorem mergeObject_append
    {path : PropertyPath} {patch added : Entries PatchValue}
    {kept : List Member} {appended : List Property} {close : Option Text}
    {trailingComma : Option Bool} {old : Except EditError (List Member)}
    {known : Except EditError (List Property)}
    (names : (appended.map Member.property).filterMap Member.name? =
      added.names) (first : mergeMembers path patch [] kept = old)
    (second : mergeMembers path patch (kept.filterMap Member.name?).reverse
      (appended.map .property) = known.map (List.map .property)) :
    mergeObject path patch
      ⟨kept ++ appended.map .property, close, trailingComma⟩ = do
      let members ← old
      let known ← known
      let new ← PatchValue.buildProperties path
        (patch.newTo (kept.filterMap Member.name? ++ added.names))
      return ⟨members ++ (known ++ new).map .property, close,
          trailingComma⟩ := by
  have all : ObjectLiteral.names ⟨kept ++ appended.map .property, close,
      trailingComma⟩ = kept.filterMap Member.name? ++ added.names := by
    rw [ObjectLiteral.names, List.filterMap_append, names]
  rw [mergeObject_eq, mergeMembers_concat, first, List.append_nil, second, all]
  cases old with
  | error error => rfl
  | ok members =>
      cases known with
      | error error => rfl
      | ok known =>
          cases PatchValue.buildProperties path
            (patch.newTo (kept.filterMap Member.name? ++ added.names)) with
          | error error => rfl
          | ok new =>
              have same : members ++ (known ++ new).map Member.property =
                  members ++ known.map .property ++ new.map .property := by
                rw [List.map_append, List.append_assoc]
              exact congrArg
                (fun members => (Except.ok ⟨members, close, trailingComma⟩ :
                  Except EditError ObjectLiteral)) same.symm

theorem mergeMember_leaf {path : PropertyPath} {later : PatchValue}
    (leaf : ∀ nested, later ≠ .object nested) (value : PatchValue) (name : Text)
    (key : Key) (expr : Expr) (layout : Option Layout) :
    mergeMember path name later (.property ⟨key, expr, layout⟩) =
      ((value.combine later).build path).map
        fun expr => .property ⟨key, expr, layout⟩ := by
  rw [mergeMember_property name (.inl leaf),
    PatchValue.combine_of_leaf value leaf]
  rfl

mutual

/-- Merging into the expression of a value gives the expression of the combined
value. -/
theorem mergeMember_built
    {path : PropertyPath} (value : KeyedValue) {later : PatchValue}
    {expr : Expr} (name : Text) (key : Key) (layout : Option Layout)
    (keeps : value.tree.KeepsObjects later)
    (built : value.tree.build path = .ok expr) :
    mergeMember path name later (.property ⟨key, expr, layout⟩) =
      ((value.tree.combine later).build path).map
        fun expr => .property ⟨key, expr, layout⟩ := by
  match value with
  | ⟨.object entries, distinct⟩ =>
      cases later with
      | object others =>
          obtain ⟨properties, found, rfl⟩ := build_object_eq_ok built
          have names := names_of_buildProperties found
          have known :
              mergeMembers path others [] (properties.map .property) = _ :=
            mergeMembers_built (.ofObject distinct)
                (fun key value new inside wanted =>
              PatchValue.keepsObjects_object_iff.1 keeps key value new
                (Entries.get?_of_mem distinct.1 inside) wanted) (by simp) found
          rw [KeyedPatch.entries_ofObject] at known
          have none' : mergeMembers path others [] [] = .ok [] := by
            rw [mergeMembers]
          have merged :
              mergeObject path others (.ofProperties properties) = _ :=
            mergeObject_append names none' known
          rw [mergeMember_object, merged, List.filterMap_nil, List.nil_append,
            PatchValue.combine_object, build_object, PatchValue.combineEntries,
            buildProperties_append]
          cases PatchValue.buildProperties path
            (PatchValue.combineKnown entries others) with
          | error error => rfl
          | ok known =>
              cases PatchValue.buildProperties path
                (Entries.newTo others (Entries.names entries)) <;> rfl
      | number _ | string _ | boolean _ | call _ =>
          exact mergeMember_leaf (by simp) _ name key expr layout
  | ⟨.number _, _⟩ | ⟨.string _, _⟩ | ⟨.boolean _, _⟩ | ⟨.call _, _⟩ =>
      exact mergeMember_leaf (keeps.leaf (by simp)) _ name key expr layout
termination_by sizeOf value.tree

theorem mergeMembers_built {path : PropertyPath} (patch : KeyedPatch)
    {later : Entries PatchValue} {seen : List Text} {properties : List Property}
    (keeps : ∀ key value new,
      (key, value) ∈ patch.entries → later.get? key = some new →
      value.KeepsObjects new)
    (apart : ∀ name ∈ patch.entries.names, name ∉ seen)
    (built : PatchValue.buildProperties path patch.entries = .ok properties) :
    mergeMembers path later seen (properties.map .property) =
      (PatchValue.buildProperties path
        (PatchValue.combineKnown patch.entries later)).map
        (List.map .property) := by
  match patch with
  | ⟨⟨[]⟩, _⟩ =>
      cases built
      rfl
  | ⟨⟨(key, value) :: others⟩, distinct⟩ =>
      obtain ⟨expr, further, first, rest, rfl⟩ :=
        buildProperties_cons_eq_ok built
      have new : key ∉ Entries.names others := (List.nodup_cons.1 distinct.1).1
      -- The names are distinct and new, so each property meets the later value
      -- of its name.
      have next : mergeNext path later seen (.property (.ofValue key expr)) =
          (PatchValue.build (path.child key)
            ((later.get? key).elim value value.combine)).map
            fun expr => .property (.ofValue key expr) := by
        have unseen : key ∉ seen := apart key List.mem_cons_self
        rw [mergeNext_of_unseen rfl unseen]
        cases wanted : later.get? key with
        | none =>
            rw [Option.elim_none, Option.elim_none, first]
            rfl
        | some new =>
            exact mergeMember_built ⟨value, distinct.2.1⟩ key (Key.ofName key)
              none (keeps key value new List.mem_cons_self wanted) first
      have apart' : ∀ name ∈ Entries.names others, name ∉ key :: seen := by
        intro name inside among
        rcases List.mem_cons.1 among with rfl | old
        · exact new inside
        · exact apart name (List.mem_cons_of_mem _ inside) old
      have behind :
          mergeMembers path later (key :: seen) (further.map .property) = _ :=
        mergeMembers_built (.ofObject distinct.tail)
          (fun key value new inside =>
            keeps key value new (List.mem_cons_of_mem _ inside)) apart' rest
      rw [KeyedPatch.entries_ofObject] at behind
      have names : (Member.property (.ofValue key expr)).name?.toList ++ seen =
          key :: seen := rfl
      rw [List.map_cons, mergeMembers_eq, next, names, behind,
        PatchValue.combineKnown, buildProperties_cons]
      cases PatchValue.build (path.child key)
        ((later.get? key).elim value value.combine) with
      | error error => rfl
      | ok expr =>
          cases PatchValue.buildProperties path
            (PatchValue.combineKnown others later) <;> rfl
termination_by sizeOf patch.entries

end

/-- A value that has been replaced is replaced by the combined value. -/
theorem mergeMember_withValue {path : PropertyPath} (value : KeyedValue)
    {new : PatchValue} {entry : Property} {expr : Expr} (name : Text)
    (keeps : value.tree.KeepsObjects new)
    (different : (∀ nested, value.tree ≠ .object nested) ∨
      ∀ literal, entry.value ≠ .object literal)
    (built : value.tree.build path = .ok expr) :
    mergeMember path name new (.property (entry.withValue expr)) =
      mergeMember path name (value.tree.combine new) (.property entry) := by
  obtain ⟨key, old, layout⟩ := entry
  have replaced : (∀ nested, value.tree.combine new ≠ .object nested) ∨
      ∀ literal, old ≠ .object literal := by
    rcases different with leaf | noLiteral
    · rw [PatchValue.combine_of_leaf _ (keeps.leaf leaf)]
      exact .inl (keeps.leaf leaf)
    · exact .inr noLiteral
  have right :=
    @mergeMember_property path (value.tree.combine new)
      ⟨key, old, layout⟩ name replaced
  rw [right]
  exact mergeMember_built value name key layout keeps built

theorem mergeMembers_appended {path : PropertyPath} (first : KeyedPatch)
    {later : Entries PatchValue} {names : List Text}
    {properties : List Property}
    (keeps : first.toValue.KeepsObjects (.object later))
    (appending : PatchValue.buildProperties path (first.entries.newTo names) =
      .ok properties) :
    mergeMembers path later names.reverse (properties.map .property) =
      (PatchValue.buildProperties path
        (PatchValue.combineKnown (first.entries.newTo names) later)).map
        (List.map .property) := by
  refine mergeMembers_built (first.newTo names) ?_ ?_ appending
  · intro key value new inside wanted
    have among := (Entries.mem_newTo.1 inside).1
    exact PatchValue.keepsObjects_object_iff.1 keeps key value new
      (first.get?_eq_some_of_mem among) wanted
  · intro name inside old
    obtain ⟨entry, among, rfl⟩ := List.mem_map.1 inside
    exact (Entries.mem_newTo.1 among).2 (List.mem_reverse.1 old)

end Built

section Composition

/-- One member behind others, if the two values of its name compose. -/
theorem mergeNext_combine
    {path : PropertyPath} {first later : Entries PatchValue}
    {seen : List Text} {member merged : Member}
    (compose : ∀ name value new,
      first.get? name = some value → later.get? name = some new →
      mergeMember (path.child name) name value member = .ok merged →
      mergeMember (path.child name) name new merged =
        mergeMember (path.child name) name (value.combine new) member)
    (found : mergeNext path first seen member = .ok merged) :
    merged.name? = member.name? ∧
      mergeNext path later seen merged =
        mergeNext path (PatchValue.combineEntries first later) seen member := by
  by_cases old : ∀ name ∈ member.name?, name ∈ seen
  · rw [mergeNext_of_seen old] at found
    cases found
    rw [mergeNext_of_seen old, mergeNext_of_seen old]
    exact ⟨rfl, rfl⟩
  · push Not at old
    obtain ⟨name, named, unseen⟩ := old
    rw [mergeNext_of_unseen named unseen] at found
    have both := PatchValue.get?_combineEntries first later name
    cases wanted : first.get? name with
    | none =>
        rw [wanted] at found both
        cases found
        rw [mergeNext_of_unseen named unseen,
          mergeNext_of_unseen named unseen, both]
        exact ⟨rfl, rfl⟩
    | some value =>
        rw [wanted] at found both
        have kept := (mergeMember_shape named found).1
        refine ⟨kept, ?_⟩
        rw [mergeNext_of_unseen (kept.trans named) unseen,
          mergeNext_of_unseen named unseen, both]
        cases new : later.get? name with
        | none => exact found.symm
        | some value' => exact compose name value value' wanted new found

mutual

/-- Merging a patch behind another one is merging their combination. -/
theorem mergeObject_combine {path : PropertyPath} (first : KeyedPatch)
    {later : Entries PatchValue} {literal merged : ObjectLiteral}
    (keeps : first.toValue.KeepsObjects (.object later))
    (found : mergeObject path first.entries literal = .ok merged) :
    mergeObject path later merged =
      mergeObject path (PatchValue.combineEntries first.entries later)
        literal := by
  match literal with
  | ⟨members, close, trailingComma⟩ =>
      obtain ⟨kept, appended, keeping, appending, rfl⟩ :=
        mergeObject_eq_ok found
      have old := mergeMembers_combine first keeps keeping
      have names :
          kept.filterMap Member.name? = members.filterMap Member.name? := by
        have both := congrArg (List.filterMap id) (mergeMembers_shape keeping).1
        simpa [List.filterMap_map, Function.comp_def] using both
      have appending : PatchValue.buildProperties path
          (first.entries.newTo (kept.filterMap Member.name?)) =
          .ok appended := names ▸ appending
      -- The names that the first patch appends are new, so the later one
      -- reaches them.
      have known := mergeMembers_appended first keeps appending
      rw [mergeObject_append (names_of_buildProperties appending) old known,
        mergeObject_eq, ObjectLiteral.names, PatchValue.newTo_combineEntries,
        buildProperties_append, names]
      cases mergeMembers path (PatchValue.combineEntries first.entries later)
        [] members with
      | error error => rfl
      | ok merged =>
          cases PatchValue.buildProperties path (PatchValue.combineKnown
            (first.entries.newTo (members.filterMap Member.name?)) later) with
          | error error => rfl
          | ok known =>
              cases PatchValue.buildProperties path (later.newTo
                (members.filterMap Member.name? ++
                  Entries.names (first.entries.newTo
                    (members.filterMap Member.name?)))) <;> rfl
termination_by sizeOf literal

theorem mergeMembers_combine {path : PropertyPath} (first : KeyedPatch)
    {later : Entries PatchValue} {seen : List Text}
    {members merged : List Member}
    (keeps : first.toValue.KeepsObjects (.object later))
    (found : mergeMembers path first.entries seen members = .ok merged) :
    mergeMembers path later seen merged =
      mergeMembers path (PatchValue.combineEntries first.entries later) seen
        members := by
  match members with
  | [] =>
      rw [mergeMembers] at found
      cases found
      rw [mergeMembers, mergeMembers]
  | member :: others =>
      obtain ⟨next, further, merging, rest, rfl⟩ := mergeMembers_eq_ok found
      have behind := mergeMembers_combine first keeps rest
      have compose (name : Text) (value new : PatchValue)
          (wanted : first.entries.get? name = some value)
          (wanted' : later.get? name = some new)
          (found : mergeMember (path.child name) name value member =
            .ok next) :=
        mergeMember_combine ⟨value, first.distinct.of_get? wanted⟩
          (PatchValue.keepsObjects_object_iff.1 keeps name value new wanted
            wanted') found
      obtain ⟨named, same⟩ := mergeNext_combine compose merging
      rw [mergeMembers_eq, mergeMembers_eq, named, same, behind]
termination_by sizeOf members

theorem mergeMember_combine
    {path : PropertyPath} {name : Text} (value : KeyedValue) {new : PatchValue}
    {member merged : Member} (keeps : value.tree.KeepsObjects new)
    (found : mergeMember path name value.tree member = .ok merged) :
    mergeMember path name new merged =
      mergeMember path name (value.tree.combine new) member := by
  obtain ⟨value, distinct⟩ := value
  rcases mergeMember_eq_ok found with
    ⟨key, literal, layout, nested, below, rfl, rfl, merging, rfl⟩ |
    ⟨entry, expr, rfl, different, built, rfl⟩ | ⟨written, expr, rfl, built, rfl⟩
  · -- Only an object goes on into the literal; another value takes its place
    -- again.
    cases new with
    | object others =>
        rw [PatchValue.combine_object, mergeMember_object, mergeMember_object,
          mergeObject_combine (.ofObject distinct) keeps merging,
          KeyedPatch.entries_ofObject]
    | number _ | string _ | boolean _ | call _ =>
        rw [PatchValue.combine_of_leaf _ (by simp),
          mergeMember_property name (.inl (by simp)),
          mergeMember_property name (.inl (by simp))]
        rfl
  · exact mergeMember_withValue ⟨value, distinct⟩ name keeps different built
  · rw [mergeMember_written]
    exact mergeMember_built ⟨value, distinct⟩ name
      (Key.ofName name) _ keeps built
termination_by sizeOf member

end

end Composition

/-- Patches compose, and a patch that has been merged changes nothing when it is
merged again. -/
theorem mergeObject_composes {path : PropertyPath} {first : KeyedPatch}
    {literal merged : ObjectLiteral}
    (found : mergeObject path first.entries literal = .ok merged) :
    (∀ later, first.toValue.KeepsObjects (.object later) →
      mergeObject path (PatchValue.combineEntries first.entries later) literal =
        mergeObject path later merged) ∧
    mergeObject path first.entries merged = .ok merged := by
  constructor
  · intro later keeps
    exact (mergeObject_combine first keeps found).symm
  · have same : PatchValue.combineEntries first.entries first.entries =
        first.entries := by
      have whole := PatchValue.combine_self first.toKeyedValue
      exact PatchValue.object.inj
        ((PatchValue.combine_object _ _).symm.trans whole)
    rw [mergeObject_combine first (.refl _) found, same, found]

/-- The literal of `{ a: { x: true }, b }`. -/
def nestedLiteral : ObjectLiteral :=
  ⟨[.property ⟨⟨['a'], some ['a']⟩,
      .object ⟨[.property ⟨⟨['x'], some ['x']⟩, .boolean true,
        some ⟨[' '], [':', ' '], [' ']⟩⟩],
        some [], some false⟩, some ⟨[' '], [':', ' '], []⟩⟩,
    .written ⟨some ['b'], ['b'], [' '], [' ']⟩], some [], some false⟩

/-- The patch of `{ a: { z: 's' }, b: { c: true } }`. -/
def earlierPatch : KeyedPatch where
  entries := [(['a'], .object [(['z'], .string ['s'])]),
    (['b'], .object [(['c'], .boolean true)])]
  distinct := by decide

/-- The patch of `{ b: { d: 'e' }, a: { x: false, z: 'q' }, n: true }`. -/
def laterPatch : Entries PatchValue :=
  [(['b'], .object [(['d'], .string ['e'])]),
    (['a'], .object [(['x'], .boolean false), (['z'], .string ['q'])]),
    (['n'], .boolean true)]

/-- The literal of `{ a: { x: true, z: 's' }, b: { c: true } }`. -/
def nestedMerged : ObjectLiteral :=
  ⟨[.property ⟨⟨['a'], some ['a']⟩,
      .object ⟨[.property ⟨⟨['x'], some ['x']⟩, .boolean true,
        some ⟨[' '], [':', ' '], [' ']⟩⟩,
        .property (.ofValue ['z'] (.string ['s'] none))], some [], some false⟩,
      some ⟨[' '], [':', ' '], []⟩⟩,
    .property ⟨.ofName ['b'],
      .object (.ofProperties [.ofValue ['c'] (.boolean true)]),
      some ⟨[' '], [':', ' '], [' ']⟩⟩], some [], some false⟩

/-- Below a shorthand that the first patch has replaced, the later one goes
on. -/
theorem mergeObject_composes_nested :
    mergeObject .root earlierPatch.entries nestedLiteral = .ok nestedMerged ∧
    earlierPatch.toValue.KeepsObjects (.object laterPatch) ∧
    mergeObject .root
      (PatchValue.combineEntries earlierPatch.entries laterPatch)
      nestedLiteral =
        mergeObject .root laterPatch nestedMerged ∧
    mergeObject .root earlierPatch.entries nestedMerged = .ok nestedMerged := by
  have found : mergeObject .root earlierPatch.entries nestedLiteral =
      .ok nestedMerged := by with_unfolding_all rfl
  have keeps : earlierPatch.toValue.KeepsObjects (.object laterPatch) := by
    apply PatchValue.keepsObjects_object_iff.2
    intro name value later found wanted
    have inside := Entries.mem_of_get? found
    simp only [earlierPatch, List.mem_cons, Prod.mk.injEq, List.not_mem_nil,
      or_false] at inside
    rcases inside with ⟨rfl, rfl⟩ | ⟨rfl, rfl⟩
    · simp only [laterPatch, Entries.get?] at wanted
      cases wanted
      exact PatchValue.keepsObjects_of_leaves _ (by simp)
    · simp only [laterPatch, Entries.get?] at wanted
      cases wanted
      exact PatchValue.keepsObjects_of_leaves _ (by simp)
  have composes := mergeObject_composes found
  exact ⟨found, keeps, composes.1 laterPatch keeps, composes.2⟩

end ConfigEdit
