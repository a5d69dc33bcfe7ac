import ConfigEdit.Edit.Literal

/-!
# Merging a patch into an object literal

Members that the patch does not name stay as they are.  At a member that it
names, an object of the patch is merged into an object literal, and any other
value takes the place of the value there; the first member of a name is the
one that counts.  Keys of the patch that name no member become new properties
behind all members, in the order of the patch.
-/

namespace ConfigEdit

/-- New properties for the entries that name none of the given names. -/
def appendedProperties (path : PropertyPath) (names : List Text)
    (patch : Entries PatchValue) : Except EditError (List Property) :=
  PatchValue.buildProperties path
    (patch.filter fun entry => !names.contains entry.1)

mutual

/-- An object literal at a path with a patch merged into it. -/
def mergeObject (path : PropertyPath) (patch : Entries PatchValue) :
    ObjectLiteral → Except EditError ObjectLiteral
  | ⟨members, close, trailingComma⟩ =>
      match mergeMembers path patch [] members with
      | .error error => .error error
      | .ok merged =>
          match appendedProperties path
            (members.filterMap Member.name?) patch with
          | .error error => .error error
          | .ok appended =>
              .ok ⟨merged ++ appended.map .property, close, trailingComma⟩

/-- Members at a path with a patch merged into them.  `seen` holds the names
of the members before them. -/
def mergeMembers
    (path : PropertyPath) (patch : Entries PatchValue) (seen : List Text) :
    List Member → Except EditError (List Member)
  | [] => .ok []
  | member :: others =>
      let merged : Except EditError Member :=
        match member.name? with
        | none => .ok member
        | some name =>
            if seen.contains name then .ok member
            else
              match patch.get? name with
              | none => .ok member
              | some value => mergeMember (path.child name) name value member
      match merged with
      | .error error => .error error
      | .ok merged =>
          match mergeMembers path patch
            (member.name?.toList ++ seen) others with
          | .error error => .error error
          | .ok others => .ok (merged :: others)

/-- The member of a name, at its path, with a value of the patch. -/
def mergeMember (path : PropertyPath) (name : Text) (value : PatchValue) :
    Member → Except EditError Member
  | .property ⟨key, .object literal, layout⟩ =>
      match value with
      | .object nested =>
          match mergeObject path nested literal with
          | .error error => .error error
          | .ok merged => .ok (.property ⟨key, .object merged, layout⟩)
      | other =>
          match other.build path with
          | .error error => .error error
          | .ok expr => .ok (.property ⟨key, expr, layout⟩)
  | .property entry =>
      match value.build path with
      | .error error => .error error
      | .ok expr => .ok (.property (entry.withValue expr))
  | .written member =>
      match value.build path with
      | .error error => .error error
      | .ok expr => .ok (.property (.replacing member name expr))

end

end ConfigEdit
