import ConfigEdit.Edit.Merge

/-!
# The steps of a merge

What a successful merge does to one member, to the members of a literal and to
the literal itself.
-/

namespace ConfigEdit

/-- A value is merged into an object literal, takes the place of a value, or
takes the place of a shorthand or a method. -/
theorem mergeMember_eq_ok {path : PropertyPath} {name : Text}
    {value : PatchValue} {member merged : Member}
    (found : mergeMember path name value member = .ok merged) :
    (∃ key literal layout nested below,
      member = .property ⟨key, .object literal, layout⟩ ∧
      value = .object nested ∧ mergeObject path nested literal = .ok below ∧
      merged = .property ⟨key, .object below, layout⟩) ∨
    (∃ entry expr, member = .property entry ∧
      ((∀ nested, value ≠ .object nested) ∨
        ∀ literal, entry.value ≠ .object literal) ∧
      value.build path = .ok expr ∧ merged = .property (entry.withValue expr)) ∨
    ∃ written expr, member = .written written ∧ value.build path = .ok expr ∧
      merged = .property (.replacing written name expr) := by
  rw [mergeMember.eq_def] at found
  split at found
  · next key literal layout =>
      split at found
      · next nested =>
          split at found
          · contradiction
          · next below merging =>
              cases found
              exact .inl ⟨key, literal, layout, nested, below, rfl, rfl,
                merging, rfl⟩
      · next noObject =>
          split at found
          · contradiction
          · next expr built =>
              cases found
              exact .inr (.inl ⟨⟨key, .object literal, layout⟩, expr, rfl,
                .inl noObject, built, rfl⟩)
  · next entry noLiteral =>
      split at found
      · contradiction
      · next expr built =>
          cases found
          refine .inr (.inl ⟨entry, expr, rfl, .inr ?_, built, rfl⟩)
          rintro literal same
          cases entry
          subst same
          exact noLiteral _ literal _ rfl
  · next written =>
      split at found
      · contradiction
      · next expr built =>
          cases found
          exact .inr (.inr ⟨written, expr, rfl, built, rfl⟩)

/-- Merging into a member changes neither its name nor the text before it. -/
theorem mergeMember_shape
    {path : PropertyPath} {name : Text} {value : PatchValue}
    {member merged : Member} (named : member.name? = some name)
    (found : mergeMember path name value member = .ok merged) :
    merged.name? = member.name? ∧ merged.leading? = member.leading? := by
  rcases mergeMember_eq_ok found with
    ⟨key, literal, layout, nested, below, rfl, -, -, rfl⟩ |
      ⟨entry, expr, rfl, -, -, rfl⟩ | ⟨written, expr, rfl, -, rfl⟩
  · exact ⟨rfl, rfl⟩
  · exact ⟨rfl, rfl⟩
  · exact ⟨named.symm, rfl⟩

theorem mergeMembers_cons {path : PropertyPath} {patch : Entries PatchValue}
    {seen : List Text} {member : Member} {others merged : List Member}
    (found : mergeMembers path patch seen (member :: others) = .ok merged) :
    ∃ first further, merged = first :: further ∧
      mergeMembers path patch (member.name?.toList ++ seen) others =
        .ok further ∧
      (first = member ∧
        (∀ name ∈ member.name?, name ∈ seen ∨ patch.get? name = none) ∨
        ∃ name value, member.name? = some name ∧ name ∉ seen ∧
          patch.get? name = some value ∧
          mergeMember (path.child name) name value member = .ok first) := by
  rw [mergeMembers] at found
  split at found
  · contradiction
  · next first merging =>
      split at found
      · contradiction
      · next further rest =>
          cases found
          refine ⟨first, further, rfl, rest, ?_⟩
          split at merging
          · next unnamed =>
              cases merging
              exact .inl ⟨rfl, by simp [unnamed]⟩
          · next name named =>
              split at merging
              · next old =>
                  have among : name ∈ seen := by simpa using old
                  cases merging
                  exact .inl ⟨rfl, by simp [named, among]⟩
              · next new =>
                  split at merging
                  · next unwanted =>
                      cases merging
                      exact .inl ⟨rfl, by simp [named, unwanted]⟩
                  · next value wanted =>
                      exact .inr ⟨name, value, named,
                        by simpa using new, wanted, merging⟩

theorem mergeMembers_shape {path : PropertyPath} {patch : Entries PatchValue}
    {seen : List Text} {members merged : List Member}
    (found : mergeMembers path patch seen members = .ok merged) :
    merged.map Member.name? = members.map Member.name? ∧
      merged.map Member.leading? = members.map Member.leading? := by
  induction members generalizing seen merged with
  | nil =>
      rw [mergeMembers] at found
      cases found
      exact ⟨rfl, rfl⟩
  | cons member others induction =>
      obtain ⟨first, further, rfl, rest, merging⟩ := mergeMembers_cons found
      obtain ⟨names, leadings⟩ := induction rest
      have shape :
          first.name? = member.name? ∧ first.leading? = member.leading? := by
        rcases merging with ⟨rfl, -⟩ | ⟨name, value, named, -, -, merging⟩
        · exact ⟨rfl, rfl⟩
        · exact mergeMember_shape named merging
      simp [names, leadings, shape]

theorem mergeObject_eq_ok {path : PropertyPath} {patch : Entries PatchValue}
    {literal merged : ObjectLiteral}
    (found : mergeObject path patch literal = .ok merged) :
    ∃ kept appended, mergeMembers path patch [] literal.members = .ok kept ∧
      appendedProperties path literal.names patch = .ok appended ∧
      merged = ⟨kept ++ appended.map .property, literal.close,
        literal.trailingComma⟩ := by
  cases literal with
  | mk members close trailingComma =>
      rw [mergeObject] at found
      split at found
      · contradiction
      · next kept keeping =>
          split at found
          · contradiction
          · next appended appending =>
              cases found
              exact ⟨kept, appended, keeping, appending, rfl⟩

theorem buildProperties_cons_eq_ok
    {path : PropertyPath} {key : Text} {value : PatchValue}
    {others : Entries PatchValue} {properties : List Property}
    (built : PatchValue.buildProperties path ((key, value) :: others) =
      .ok properties) :
    ∃ expr further, value.build (path.child key) = .ok expr ∧
      PatchValue.buildProperties path others = .ok further ∧
      properties = .ofValue key expr :: further := by
  rw [PatchValue.buildProperties] at built
  split at built
  · contradiction
  · next expr first =>
      split at built
      · contradiction
      · next further rest =>
          cases built
          exact ⟨expr, further, first, rest, rfl⟩

theorem build_object_eq_ok {path : PropertyPath} {entries : Entries PatchValue}
    {expr : Expr} (built : (PatchValue.object entries).build path = .ok expr) :
    ∃ properties, PatchValue.buildProperties path entries = .ok properties ∧
      expr = .object (.ofProperties properties) := by
  rw [PatchValue.build] at built
  split at built
  · contradiction
  · next properties found =>
      cases built
      exact ⟨properties, found, rfl⟩

theorem buildProperties_leading? {path : PropertyPath}
    {entries : Entries PatchValue} {properties : List Property}
    (found : PatchValue.buildProperties path entries = .ok properties) :
    ∀ member ∈ properties.map Member.property, member.leading? = none := by
  induction entries generalizing properties with
  | nil =>
      rw [PatchValue.buildProperties] at found
      cases found
      simp
  | cons entry others induction =>
      obtain ⟨expr, further, -, rest, rfl⟩ := buildProperties_cons_eq_ok found
      intro member inside
      rcases List.mem_cons.1 inside with rfl | inside
      · rfl
      · exact induction rest member inside

theorem buildProperties_length {path : PropertyPath}
    {entries : Entries PatchValue} {properties : List Property}
    (found : PatchValue.buildProperties path entries = .ok properties) :
    properties.length = entries.length := by
  induction entries generalizing properties with
  | nil =>
      rw [PatchValue.buildProperties] at found
      cases found
      rfl
  | cons entry others induction =>
      obtain ⟨expr, further, -, rest, rfl⟩ := buildProperties_cons_eq_ok found
      simp [induction rest]

theorem mergeMembers_of_absent {path : PropertyPath}
    {patch : Entries PatchValue} {members : List Member} (seen : List Text)
    (absent :
      ∀ member ∈ members, ∀ name ∈ member.name?, patch.get? name = none) :
    mergeMembers path patch seen members = .ok members := by
  induction members generalizing seen with
  | nil => rw [mergeMembers]
  | cons member others induction =>
      have further :=
        induction (member.name?.toList ++ seen) fun other inside =>
        absent other (List.mem_cons_of_mem _ inside)
      rw [mergeMembers, further]
      cases named : member.name? with
      | none => rfl
      | some name => simp [absent member List.mem_cons_self name named]

theorem mergeMembers_nil
    (path : PropertyPath) (seen : List Text) (members : List Member) :
    mergeMembers path [] seen members = .ok members :=
  mergeMembers_of_absent seen fun _ _ _ _ => rfl

theorem mergeObject_nil (path : PropertyPath) (literal : ObjectLiteral) :
    mergeObject path [] literal = .ok literal := by
  cases literal with
  | mk members close trailingComma =>
      rw [mergeObject, mergeMembers_nil]
      simp [appendedProperties, PatchValue.buildProperties]

end ConfigEdit
