import ConfigEdit.Document.Tree
import ConfigEdit.Patch.Path
import ConfigEdit.Text.Line

/-!
# Removing members from an object literal

A member goes if its full path is in the set, unless its value is an object
literal: those are searched instead, and stay even when nothing is left in
them.

A comment goes with the member it describes.  A removed member takes along the
comments on the lines above it and the comment behind it on its own line.  The
comment on the line of the member before, or of the opening brace, stays: it is
carried over the run of removed members to what follows them.
-/

namespace ConfigEdit

/-- The text before what follows a run of removed members, given the comment
that is carried over the run. -/
def afterRemoved (carried leading : Text) : Text :=
  carried ++ leading.withoutLineComment

mutual

/-- An object literal at a path without the members of a set. -/
def removeFrom (paths : RemovalSet) (path : PropertyPath) :
    ObjectLiteral → ObjectLiteral
  | ⟨members, close, trailingComma⟩ =>
      let (kept, carried) := removeMembers paths path none members
      let close :=
        match carried with
        | some comment => close.map (afterRemoved comment)
        | none => close
      if kept.isEmpty && !members.isEmpty then
        ⟨[], if close.any Text.blank then none else close, none⟩
      else ⟨kept, close, trailingComma⟩

/-- The members at a path that are not in a set, and the comment carried over
the removed members at their end.  `carried` is the comment carried over the
removed members before them. -/
def removeMembers
    (paths : RemovalSet) (path : PropertyPath) (carried : Option Text) :
    List Member → List Member × Option Text
  | [] => ([], carried)
  | member :: others =>
      match removeMember paths path member with
      | none =>
          let comment := carried.getD (member.leading?.getD []).lineComment
          removeMembers paths path (some comment) others
      | some kept =>
          let kept :=
            match carried with
            | some comment => kept.mapLeading (afterRemoved comment)
            | none => kept
          let (others, carried) := removeMembers paths path none others
          (kept :: others, carried)

/-- A member at a path, unless it is to be removed. -/
def removeMember (paths : RemovalSet) (path : PropertyPath) :
    Member → Option Member
  | .property ⟨key, .object literal, layout⟩ =>
      if paths.reachesBelow (path.child key.name) then
        some (.property
          ⟨key, .object (removeFrom paths (path.child key.name) literal),
            layout⟩)
      else some (.property ⟨key, .object literal, layout⟩)
  | .property entry =>
      if paths.contains (path.child entry.key.name) then none
      else some (.property entry)
  | .written member =>
      match member.name with
      | some name =>
          if paths.contains (path.child name) then none
          else some (.written member)
      | none => some (.written member)

end

end ConfigEdit
