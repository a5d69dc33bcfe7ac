import ConfigEdit.Document.Parse
import ConfigEdit.Document.Print
import ConfigEdit.Edit.Merge
import ConfigEdit.Edit.Read
import ConfigEdit.Edit.Remove
import ConfigEdit.Edit.Root

/-!
# Edits of document texts

Each edit reads a text, changes its configuration and gives the new text.  A
malformed text is reported before a missing configuration, and that before
what is wrong with the edit.
-/

namespace ConfigEdit

/-- The configuration of a text. -/
def locateText (text : Text) : Except EditError ConfigRoot :=
  match Document.parse text with
  | .error error => .error (.malformed error)
  | .ok document =>
      match document.locate with
      | .error error => .error (.noConfiguration error)
      | .ok root => .ok root

/-- A text with a patch merged into its configuration or, if it is to be
overwritten, with a configuration of the patch alone. -/
def updateText
    (options : PrintOptions) (patch : Patch) (overwrite : Bool) (text : Text) :
    Except EditError Text := do
  let root ← locateText text
  let literal ←
    if overwrite then buildObject .root patch.entries
    else mergeObject .root patch.entries root.literal
  return (root.replace literal).document.print options

/-- A text without the members of a set. -/
def removeText (options : PrintOptions) (paths : RemovalSet) (text : Text) :
    Except EditError Text := do
  let root ← locateText text
  return (root.replace (removeFrom paths .root root.literal)).document.print
    options

/-- The values of the configuration of a text. -/
def readText (text : Text) : Except EditError PatchValue := do
  let root ← locateText text
  return .object root.literal.read

end ConfigEdit
