import ConfigEdit.Proofs.Edit.Deletion

/-!
# What a walk meets after a removal

A walk of an object literal meets its members in order and, behind each
property, the members of the object literal that is its value.  The walk after a
removal is the walk before it without the leaves that are listed: everything
else is met as it was, except for the text in front of it.

The removal does not enter an object literal that no listed path leads into.
`searchFrom` enters them all and comes to the same result.
-/

namespace ConfigEdit

/-- A member in an object literal at a path. -/
structure Visit where
  around : PropertyPath
  member : Member

namespace Visit

/-- The path of a visited leaf: a member with a name whose value is no object
literal. -/
def leaf? (visit : Visit) : Option PropertyPath :=
  visit.member.leafPath? visit.around

/-- A visited leaf is in the set. -/
def isListed (paths : RemovalSet) (visit : Visit) : Bool :=
  visit.leaf?.any paths.contains

end Visit

/-- What a walk tells of a member: all but the text in front of it and, since
they are met next, the members of its object literal. -/
def Member.outline : Member → Member
  | .property ⟨key, .object _, layout⟩ =>
      mapLeading (fun _ => [])
        (.property ⟨key, .object (.ofProperties []), layout⟩)
  | .property entry => mapLeading (fun _ => []) (.property entry)
  | .written member => mapLeading (fun _ => []) (.written member)

mutual

/-- The visits in the value at a path, in order. -/
def Expr.walk : PropertyPath → Expr → List Visit
  | path, .object ⟨members, _, _⟩ => Member.walk path members
  | _, .call _ | _, .number _ | _, .string _ _ | _, .boolean _
  | _, .verbatim _ => []

/-- The visits in the members of the object literal at a path, in order. -/
def Member.walk : PropertyPath → List Member → List Visit
  | _, [] => []
  | path, .property ⟨key, value, layout⟩ :: others =>
      ⟨path, (Member.property ⟨key, value, layout⟩).outline⟩ ::
        (Expr.walk (path.child key.name) value ++ Member.walk path others)
  | path, .written member :: others =>
      ⟨path, (Member.written member).outline⟩ :: Member.walk path others

end

mutual

/-- A removal that enters each object literal. -/
def searchFrom (paths : RemovalSet) (path : PropertyPath) :
    ObjectLiteral → ObjectLiteral
  | ⟨members, close, trailingComma⟩ =>
      let (kept, carried) := searchMembers paths path none members
      let close :=
        match carried with
        | some comment => close.map (afterRemoved comment)
        | none => close
      if kept.isEmpty && !members.isEmpty then
        ⟨[], if close.any Text.blank then none else close, none⟩
      else ⟨kept, close, trailingComma⟩

/-- The members that are left, and the comment carried over those removed at
their end. -/
def searchMembers
    (paths : RemovalSet) (path : PropertyPath) (carried : Option Text) :
    List Member → List Member × Option Text
  | [] => ([], carried)
  | member :: others =>
      match searchMember paths path member with
      | none =>
          let comment := carried.getD (member.leading?.getD []).lineComment
          searchMembers paths path (some comment) others
      | some kept =>
          let kept :=
            match carried with
            | some comment => kept.mapLeading (afterRemoved comment)
            | none => kept
          let (others, carried) := searchMembers paths path none others
          (kept :: others, carried)

/-- A member, unless it is to be removed. -/
def searchMember (paths : RemovalSet) (path : PropertyPath) :
    Member → Option Member
  | .property ⟨key, .object literal, layout⟩ =>
      some (.property ⟨key,
        .object (searchFrom paths (path.child key.name) literal), layout⟩)
  | .property entry => removeMember paths path (.property entry)
  | .written member => removeMember paths path (.written member)

end

section Walks

variable {path : PropertyPath} {member : Member}

theorem Expr.walk_object (path : PropertyPath) (literal : ObjectLiteral) :
    (Expr.object literal).walk path = Member.walk path literal.members := by
  cases literal
  rfl

theorem Member.walk_property (path : PropertyPath) (key : Key) (value : Expr)
    (layout : Option Layout) :
    Member.walk path [.property ⟨key, value, layout⟩] =
      ⟨path, (Member.property ⟨key, value, layout⟩).outline⟩ ::
        value.walk (path.child key.name) := by
  rw [walk, walk, List.append_nil]

@[simp] theorem Member.outline_mapLeading (change : Text → Text) :
    (member.mapLeading change).outline = member.outline := by
  match member with
  | .property ⟨key, value, layout⟩ => cases value <;> cases layout <;> rfl
  | .written member => rfl

@[simp] theorem Member.leafPath?_outline :
    member.outline.leafPath? path = member.leafPath? path := by
  match member with
  | .property ⟨key, value, layout⟩ => cases value <;> rfl
  | .written member => rfl

@[simp] theorem Member.walk_mapLeading (change : Text → Text) :
    Member.walk path [member.mapLeading change] =
      Member.walk path [member] := by
  have outline := @Member.outline_mapLeading member change
  match member with
  | .property ⟨key, value, layout⟩ => simpa [walk, mapLeading] using outline
  | .written member => simpa [walk, mapLeading] using outline

theorem Member.walk_cons
    (path : PropertyPath) (member : Member) (others : List Member) :
    Member.walk path (member :: others) =
      Member.walk path [member] ++ Member.walk path others := by
  match member with
  | .property ⟨key, value, layout⟩ => simp [walk]
  | .written member => simp [walk]

theorem Member.walk_of_leafPath?
    {leaf : PropertyPath} (found : member.leafPath? path = some leaf) :
    Member.walk path [member] = [⟨path, member.outline⟩] := by
  match member with
  | .property ⟨key, .object literal, layout⟩ => contradiction
  | .property ⟨key, .call _, layout⟩ | .property ⟨key, .number _, layout⟩ |
    .property ⟨key, .string _ _, layout⟩ | .property ⟨key, .boolean _, layout⟩ |
    .property ⟨key, .verbatim _, layout⟩ => rfl
  | .written member => rfl

mutual

theorem Expr.leafPaths_object (path : PropertyPath) (literal : ObjectLiteral) :
    (Expr.object literal).leafPaths path =
      ((Expr.object literal).walk path).filterMap Visit.leaf? := by
  match literal with
  | ⟨members, close, trailingComma⟩ => exact Member.leafPaths_eq path members

/-- The paths of the leaves are those of the visits that a walk makes of
them. -/
theorem Member.leafPaths_eq (path : PropertyPath) (members : List Member) :
    Member.leafPaths members path =
      (Member.walk path members).filterMap Visit.leaf? := by
  match members with
  | [] => rfl
  | .property ⟨key, .object literal, layout⟩ :: others =>
      rw [Member.leafPaths, Member.walk, List.filterMap_cons_none rfl,
        List.filterMap_append,
        Expr.leafPaths_object (path.child key.name) literal,
        Member.leafPaths_eq path others]
  | .property ⟨key, .call _, layout⟩ :: others | .property
        ⟨key, .number _, layout⟩ :: others |
        .property ⟨key, .string _ _, layout⟩ :: others |
        .property ⟨key, .boolean _, layout⟩ :: others |
        .property ⟨key, .verbatim _, layout⟩ :: others =>
      rw [Member.leafPaths, Member.walk, Member.leafPaths_eq path others]
      rfl
  | .written member :: others =>
      have leaf : Visit.leaf? ⟨path, (Member.written member).outline⟩ =
          member.name.map path.child := rfl
      rw [Member.leafPaths, Member.walk, Member.leafPaths_eq path others]
      cases named : member.name with
      | none =>
          rw [named] at leaf
          rw [List.filterMap_cons_none leaf]
          rfl
      | some name =>
          rw [named] at leaf
          rw [List.filterMap_cons_some leaf]
          rfl

end

end Walks

section Removals

variable {paths : RemovalSet} {path : PropertyPath}

theorem Visit.isListed_eq_false {visits : List Visit}
    (none' : ∀ leaf ∈ visits.filterMap Visit.leaf?, paths.contains leaf = false)
    {visit : Visit}
    (inside : visit ∈ visits) : visit.isListed paths = false := by
  rw [isListed]
  cases found : visit.leaf? with
  | none => rfl
  | some leaf => exact none' leaf (List.mem_filterMap.2 ⟨visit, inside, found⟩)

theorem Visit.filter_eq_self {visits : List Visit}
    (none' : ∀ leaf ∈ visits.filterMap Visit.leaf?,
      paths.contains leaf = false) :
    (visits.filter fun visit => !visit.isListed paths) = visits := by
  apply List.filter_eq_self.2
  intro visit inside
  rw [isListed_eq_false none' inside]
  rfl

mutual

theorem walk_removeFrom
    (paths : RemovalSet) (path : PropertyPath) (literal : ObjectLiteral) :
    (Expr.object (removeFrom paths path literal)).walk path =
      ((Expr.object literal).walk path).filter
        fun visit => !visit.isListed paths := by
  match literal with
  | ⟨members, close, trailingComma⟩ =>
      rw [Expr.walk_object, members_removeFrom]
      exact walk_removeMembers paths path none members

theorem walk_removeMembers (paths : RemovalSet) (path : PropertyPath)
    (carried : Option Text) (members : List Member) :
    Member.walk path (removeMembers paths path carried members).1 =
      (Member.walk path members).filter fun visit => !visit.isListed paths := by
  match members with
  | [] => rfl
  | member :: others =>
      have first := walk_removeMember paths path member
      rw [Member.walk_cons path member others, List.filter_append, ← first]
      cases found : removeMember paths path member with
      | none =>
          obtain ⟨comment, same⟩ := removeMembers_removed others carried found
          rw [same, walk_removeMembers paths path (some comment) others]
          rfl
      | some kept =>
          obtain ⟨change, same⟩ := removeMembers_kept others carried found
          rw [same, Member.walk_cons, Member.walk_mapLeading,
            walk_removeMembers paths path none others]
          rfl

theorem walk_removeMember
    (paths : RemovalSet) (path : PropertyPath) (member : Member) :
    Member.walk path (removeMember paths path member).toList =
      (Member.walk path [member]).filter
        fun visit => !visit.isListed paths := by
  rcases removeMember_cases paths path member with
    ⟨leaf, named, listed, gone⟩ | ⟨none', same⟩ |
      ⟨key, literal, layout, rfl, left⟩
  · have drops : Visit.isListed paths ⟨path, member.outline⟩ = true := by
      rw [Visit.isListed, Visit.leaf?, Member.leafPath?_outline, named]
      exact listed
    rw [gone, Member.walk_of_leafPath? named,
      List.filter_cons_of_neg (by simp [drops])]
    rfl
  · rw [Member.leafPaths_eq] at none'
    rw [same, Visit.filter_eq_self none']
    rfl
  · have below := walk_removeFrom paths (path.child key.name) literal
    rw [left, Member.walk_property, List.filter_cons_of_pos rfl, ← below]
    exact Member.walk_property path key _ layout

end

/-- No leaf that is left is in the set. -/
theorem contains_leafPaths_removeFrom (literal : ObjectLiteral) :
    ∀ leaf ∈ (Expr.object (removeFrom paths path literal)).leafPaths path,
      paths.contains leaf = false := by
  intro leaf inside
  rw [Expr.leafPaths_object, walk_removeFrom] at inside
  obtain ⟨visit, among, found⟩ := List.mem_filterMap.1 inside
  have stays := (List.mem_filter.1 among).2
  simpa [Visit.isListed, found] using stays

mutual

/-- Entering the object literals that no listed path leads into changes
nothing. -/
theorem searchFrom_eq
    (paths : RemovalSet) (path : PropertyPath) (literal : ObjectLiteral) :
    searchFrom paths path literal = removeFrom paths path literal := by
  match literal with
  | ⟨members, close, trailingComma⟩ =>
      rewrite [searchFrom, removeFrom, searchMembers_eq paths path none members]
      rfl

theorem searchMembers_eq (paths : RemovalSet) (path : PropertyPath)
    (carried : Option Text) (members : List Member) :
    searchMembers paths path carried members =
      removeMembers paths path carried members := by
  match members with
  | [] => rfl
  | member :: others =>
      rw [searchMembers, removeMembers, searchMember_eq paths path member]
      cases removeMember paths path member with
      | none => exact searchMembers_eq paths path _ others
      | some kept =>
          rewrite [searchMembers_eq paths path none others]
          rfl

theorem searchMember_eq
    (paths : RemovalSet) (path : PropertyPath) (member : Member) :
    searchMember paths path member = removeMember paths path member := by
  match member with
  | .property ⟨key, .object literal, layout⟩ =>
      rw [searchMember, searchFrom_eq paths (path.child key.name) literal]
      rcases removeMember_cases paths path
        (.property ⟨key, .object literal, layout⟩) with
        ⟨leaf, named, -, -⟩ | ⟨none', same⟩ | ⟨_, _, _, shape, left⟩
      · contradiction
      · have unchanged := @removeFrom_eq_self paths
            (path.child key.name) literal fun leaf inside =>
          none' leaf (List.mem_append_left _ inside)
        rw [same, unchanged]
      · cases shape
        exact left.symm
  | .property ⟨key, .call _, layout⟩ | .property ⟨key, .number _, layout⟩ |
    .property ⟨key, .string _ _, layout⟩ | .property ⟨key, .boolean _, layout⟩ |
    .property ⟨key, .verbatim _, layout⟩ => rfl
  | .written member => rfl

end

end Removals

/-- A removal removes the leaves that are listed and nothing else. -/
theorem removeFrom_meets
    (paths : RemovalSet) (path : PropertyPath) (literal : ObjectLiteral) :
    (Expr.object (removeFrom paths path literal)).walk path =
        ((Expr.object literal).walk path).filter
          (fun visit => !visit.isListed paths) ∧
      (∀ visit ∈ (Expr.object literal).walk path, visit.leaf? = none →
        visit ∈ (Expr.object (removeFrom paths path literal)).walk path) ∧
      searchFrom paths path literal = removeFrom paths path literal ∧
      ((Expr.object (removeFrom paths path literal)).walk path =
        (Expr.object literal).walk path →
        removeFrom paths path literal = literal) ∧
      removeFrom paths path (removeFrom paths path literal) =
        removeFrom paths path literal := by
  have left := @contains_leafPaths_removeFrom paths path literal
  refine ⟨walk_removeFrom paths path literal, ?_,
    searchFrom_eq paths path literal, ?_, removeFrom_eq_self left⟩
  · intro visit inside noLeaf
    rw [walk_removeFrom]
    exact List.mem_filter.2 ⟨inside, by simp [Visit.isListed, noLeaf]⟩
  · intro same
    apply removeFrom_eq_self
    rw [Expr.leafPaths_object, same] at left
    rwa [Expr.leafPaths_object]

end ConfigEdit
