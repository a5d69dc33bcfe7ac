import ConfigEdit.Proofs.Edit.Merge
import ConfigEdit.Proofs.Patch.Combining

/-!
# A merge step by step

The functions of a merge as chains of their steps, whether these succeed or
fail.
-/

namespace ConfigEdit

variable {path : PropertyPath}

theorem buildProperties_cons
    (key : Text) (value : PatchValue) (others : Entries PatchValue) :
    PatchValue.buildProperties path ((key, value) :: others) = do
      let expr ← value.build (path.child key)
      let further ← PatchValue.buildProperties path others
      return .ofValue key expr :: further := by
  rw [PatchValue.buildProperties]
  cases value.build (path.child key) with
  | error error => rfl
  | ok expr => cases PatchValue.buildProperties path others <;> rfl

theorem buildProperties_append (left right : Entries PatchValue) :
    PatchValue.buildProperties path (left ++ right) = do
      let first ← PatchValue.buildProperties path left
      let second ← PatchValue.buildProperties path right
      return first ++ second := by
  induction left with
  | nil =>
      rw [List.nil_append, PatchValue.buildProperties]
      cases PatchValue.buildProperties path right <;> rfl
  | cons entry others induction =>
      obtain ⟨key, value⟩ := entry
      rw [List.cons_append, buildProperties_cons, buildProperties_cons,
        induction]
      cases value.build (path.child key) with
      | error error => rfl
      | ok expr =>
          cases PatchValue.buildProperties path others with
          | error error => rfl
          | ok first => cases PatchValue.buildProperties path right <;> rfl

theorem build_object (entries : Entries PatchValue) :
    (PatchValue.object entries).build path =
      (PatchValue.buildProperties path entries).map fun properties =>
        .object (.ofProperties properties) := by
  rw [PatchValue.build]
  cases PatchValue.buildProperties path entries <;> rfl

/-- What a merge makes of a member behind others of the given names. -/
def mergeNext (path : PropertyPath) (patch : Entries PatchValue)
    (seen : List Text) (member : Member) : Except EditError Member :=
  match member.name? with
  | none => .ok member
  | some name =>
      if seen.contains name then .ok member
      else
        match patch.get? name with
        | none => .ok member
        | some value => mergeMember (path.child name) name value member

theorem mergeNext_of_seen {seen : List Text} {member : Member}
    (old : ∀ name ∈ member.name?, name ∈ seen) (patch : Entries PatchValue) :
    mergeNext path patch seen member = .ok member := by
  rw [mergeNext]
  cases named : member.name? with
  | none => rfl
  | some name => simp [old name named]

theorem mergeNext_of_unseen {seen : List Text} {member : Member} {name : Text}
    (named : member.name? = some name) (unseen : name ∉ seen)
    (patch : Entries PatchValue) :
    mergeNext path patch seen member =
      (patch.get? name).elim (.ok member) fun value =>
        mergeMember (path.child name) name value member := by
  rw [mergeNext, named]
  simp only [List.contains_eq_mem, unseen, decide_false, Bool.false_eq_true,
    if_false]
  cases patch.get? name <;> rfl

theorem mergeMembers_eq (patch : Entries PatchValue) (seen : List Text)
    (member : Member) (others : List Member) :
    mergeMembers path patch seen (member :: others) = do
      let first ← mergeNext path patch seen member
      let further ← mergeMembers path patch (member.name?.toList ++ seen) others
      return first :: further := by
  rw [mergeMembers]
  split
  · next failed =>
      have failed : mergeNext path patch seen member = .error _ := failed
      rw [failed]
      rfl
  · next first found =>
      have found : mergeNext path patch seen member = .ok first := found
      rw [found]
      cases mergeMembers path patch (member.name?.toList ++ seen) others <;> rfl

theorem mergeMembers_eq_ok {patch : Entries PatchValue} {seen : List Text}
    {member : Member} {others merged : List Member}
    (found : mergeMembers path patch seen (member :: others) = .ok merged) :
    ∃ next further, mergeNext path patch seen member = .ok next ∧
      mergeMembers path patch (member.name?.toList ++ seen) others =
        .ok further ∧
      merged = next :: further := by
  rw [mergeMembers_eq] at found
  cases merging : mergeNext path patch seen member with
  | error error =>
      rw [merging] at found
      contradiction
  | ok next =>
      cases rest :
        mergeMembers path patch (member.name?.toList ++ seen) others with
      | error error =>
          rw [merging, rest] at found
          contradiction
      | ok further =>
          rw [merging, rest] at found
          cases found
          exact ⟨next, further, rfl, rfl, rfl⟩

theorem mergeMembers_concat (patch : Entries PatchValue) (seen : List Text)
    (left right : List Member) :
    mergeMembers path patch seen (left ++ right) = do
      let first ← mergeMembers path patch seen left
      let second ← mergeMembers path patch
        ((left.filterMap Member.name?).reverse ++ seen) right
      return first ++ second := by
  induction left generalizing seen with
  | nil =>
      rw [List.nil_append, mergeMembers, List.filterMap_nil, List.reverse_nil,
        List.nil_append]
      cases mergeMembers path patch seen right <;> rfl
  | cons member others induction =>
      have names : ((member :: others).filterMap Member.name?).reverse ++ seen =
          (others.filterMap Member.name?).reverse ++
            (member.name?.toList ++ seen) := by
        cases named : member.name? <;> simp [named]
      rw [List.cons_append, mergeMembers_eq, mergeMembers_eq, induction, names]
      cases mergeNext path patch seen member with
      | error error => rfl
      | ok first =>
          cases mergeMembers path patch
            (member.name?.toList ++ seen) others with
          | error error => rfl
          | ok further =>
              cases mergeMembers path patch
                ((others.filterMap Member.name?).reverse ++
                  (member.name?.toList ++ seen)) right <;>
              rfl

theorem mergeObject_eq (patch : Entries PatchValue) (literal : ObjectLiteral) :
    mergeObject path patch literal = do
      let merged ← mergeMembers path patch [] literal.members
      let appended ← PatchValue.buildProperties path (patch.newTo literal.names)
      return ⟨merged ++ appended.map .property, literal.close,
          literal.trailingComma⟩ := by
  obtain ⟨members, close, trailingComma⟩ := literal
  have names : appendedProperties path (members.filterMap Member.name?) patch =
      PatchValue.buildProperties path
        (patch.newTo (ObjectLiteral.names ⟨members, close, trailingComma⟩)) :=
    rfl
  rw [mergeObject, ← names]
  cases mergeMembers path patch [] members with
  | error error => rfl
  | ok merged =>
      cases appendedProperties path (members.filterMap Member.name?) patch <;>
        rfl

/-- An object of the patch is merged into an object literal. -/
theorem mergeMember_object (name : Text) (nested : Entries PatchValue)
    (key : Key) (literal : ObjectLiteral) (layout : Option Layout) :
    mergeMember path name (.object nested)
      (.property ⟨key, .object literal, layout⟩) =
      (mergeObject path nested literal).map fun merged =>
        .property ⟨key, .object merged, layout⟩ := by
  rw [mergeMember]
  cases mergeObject path nested literal <;> rfl

/-- Unless both are objects, the new value takes the place of the old one. -/
theorem mergeMember_property
    {value : PatchValue} {entry : Property} (name : Text)
    (different : (∀ nested, value ≠ .object nested) ∨
      ∀ literal, entry.value ≠ .object literal) :
    mergeMember path name value (.property entry) =
      (value.build path).map fun expr => .property (entry.withValue expr) := by
  obtain ⟨key, old, layout⟩ := entry
  cases old with
  | object literal =>
      cases value with
      | object nested =>
          rcases different with no | no
          · exact absurd rfl (no nested)
          · exact absurd rfl (no literal)
      | number _ | string _ | boolean _ | call _ =>
          rw [mergeMember]
          · cases PatchValue.build path _ <;> rfl
          · simp
  | call _ | number _ | string _ _ | boolean _ | verbatim _ =>
      rw [mergeMember]
      · cases PatchValue.build path value <;> rfl
      · simp

theorem mergeMember_written
    (name : Text) (value : PatchValue) (written : WrittenMember) :
    mergeMember path name value (.written written) =
      (value.build path).map
        fun expr => .property (.replacing written name expr) := by
  rw [mergeMember]
  cases value.build path <;> rfl

end ConfigEdit
