import ConfigEdit.Document.Print
import ConfigEdit.Number.Literal
import ConfigEdit.Patch.Value

/-!
# Reading an object literal as values

Literals and object literals become values; any other expression is a call
with its text.  Shorthands and methods stand under their name with their text,
and members without a name are left out.  Of members with one name the last
value counts, at the place of the first.
-/

namespace ConfigEdit

mutual

/-- The value of an expression. -/
def Expr.read : Expr → PatchValue
  | .object ⟨members, _, _⟩ => .object (readMembers [] members)
  | .string value _ => .string value
  | .boolean value => .boolean value
  | .number text =>
      match Number.ofLiteral? text with
      | some value => .number value
      | none => .call text
  | .call call => .call ((Expr.call call).print .standard)
  | .verbatim text => .call text

/-- The entries of members, added to the given ones. -/
def readMembers (entries : Entries PatchValue) :
    List Member → Entries PatchValue
  | [] => entries
  | .property ⟨key, value, _⟩ :: others =>
      readMembers (entries.insert key.name value.read) others
  | .written member :: others =>
      match member.name with
      | some name =>
          readMembers (entries.insert name (.call member.text)) others
      | none => readMembers entries others

end

/-- The values of an object literal. -/
def ObjectLiteral.read (literal : ObjectLiteral) : Entries PatchValue :=
  readMembers [] literal.members

end ConfigEdit
