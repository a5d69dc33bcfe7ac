import ConfigEdit.Edit.Call
import ConfigEdit.Patch.Value

/-!
# New expressions

The expression that a value of a patch is written as.
-/

namespace ConfigEdit

mutual

/-- The expression of a value at a path. -/
def PatchValue.build (path : PropertyPath) : PatchValue → Except EditError Expr
  | .number value => .ok (.number value.literal)
  | .string text => .ok (.string text none)
  | .boolean value => .ok (.boolean value)
  | .object entries =>
      match PatchValue.buildProperties path entries with
      | .error error => .error error
      | .ok properties => .ok (.object (.ofProperties properties))
  | .call text => buildCall path text

/-- The properties of an object of values at a path. -/
def PatchValue.buildProperties (path : PropertyPath) :
    List (Text × PatchValue) → Except EditError (List Property)
  | [] => .ok []
  | (key, value) :: others =>
      match PatchValue.build (path.child key) value with
      | .error error => .error error
      | .ok expr =>
          match PatchValue.buildProperties path others with
          | .error error => .error error
          | .ok properties => .ok (.ofValue key expr :: properties)

end

/-- A new object literal of values at a path. -/
def buildObject (path : PropertyPath) (entries : Entries PatchValue) :
    Except EditError ObjectLiteral :=
  (PatchValue.buildProperties path entries).map .ofProperties

end ConfigEdit
