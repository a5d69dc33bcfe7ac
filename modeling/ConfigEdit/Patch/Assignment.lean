import ConfigEdit.Json.Read
import ConfigEdit.Patch.Value
import ConfigEdit.Text.Blank

/-!
# Assignments

An assignment is a text `KEY=VALUE`, cut at its first equals sign.  The key is
the dotted path of a property.  The value is JSON if it can be read as such and
the string of its characters otherwise; the value of a call is its text.
-/

namespace ConfigEdit

/-- A key and a value. -/
structure Assignment where
  key : Text
  value : Text
deriving DecidableEq, Repr

/-- The texts around the first occurrence of a character. -/
def Text.splitOnce? (separator : Char) : Text → Option (Text × Text)
  | [] => none
  | character :: rest =>
      if character = separator then some ([], rest)
      else (splitOnce? separator rest).map
        fun (left, right) => (character :: left, right)

/-- The assignment that a text spells.  The key has no blanks around it and is
not empty. -/
def Assignment.ofText? (text : Text) : Option Assignment :=
  match text.splitOnce? '=' with
  | some (key, value) =>
      if key.trim.isEmpty then none else some ⟨key.trim, value⟩
  | none => none

/-- The JSON value that an assigned text spells. -/
def Json.ofAssigned (text : Text) : Json :=
  (Json.ofText? text).getD (.string text)

/-- The patch with the value of an assignment. -/
def Patch.assign (patch : Patch)
    (assignment : Assignment) : Except EditError Patch := do
  let path ← PropertyPath.parse assignment.key
  let value ← PatchValue.ofJson path (.ofAssigned assignment.value)
  return patch.insertAt path value

/-- The patch with the call of an assignment. -/
def Patch.assignCall (patch : Patch)
    (assignment : Assignment) : Except EditError Patch :=
  patch.insertDotted assignment.key (.call assignment.value.trim)

end ConfigEdit
