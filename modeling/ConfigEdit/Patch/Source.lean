import ConfigEdit.Files.Tree
import ConfigEdit.Patch.Assignment
import ConfigEdit.Toml.Read

/-!
# Sources of patches

A patch is put together from a file in TOML or JSON, assignments of values and
assignments of calls, in this order.  The first fault ends it.
-/

namespace ConfigEdit

/-- How the text of a patch file is read. -/
inductive PatchFormat where
  | json
  | toml
deriving DecidableEq, Repr

namespace PatchFormat

/-- The format in words. -/
def name : PatchFormat → String
  | json => "JSON"
  | toml => "TOML"

/-- Files with the extension `toml`, in letters of either case, are TOML. -/
def ofPath (path : Text) : PatchFormat :=
  match FilePath.extension? path with
  | some extension =>
      if extension.map Char.toLower = ['t', 'o', 'm', 'l'] then toml else json
  | none => json

/-- The value that a text spells. -/
def read? : PatchFormat → Text → Option Json
  | json, text => Json.ofText? text
  | toml, text => Toml.toJson? text

end PatchFormat

/-- Why a patch cannot be put together. -/
inductive PatchError where
  | unreadable (path : Text)
  | malformed (path : Text) (format : PatchFormat)
  | invalidAssignment (text : Text)
  | edit (error : EditError)
deriving DecidableEq, Repr

/-- The error as it is shown to users. -/
def PatchError.message : PatchError → String
  | .unreadable path =>
      "IO error: " ++ String.ofList path ++ ": not a readable text"
  | .malformed path format =>
      "Parse error: " ++ String.ofList path ++ ": " ++ format.name ++
        " parse error: malformed document"
  | .invalidAssignment text =>
      "Invalid assignment `" ++ String.ofList text ++ "`: expected KEY=VALUE"
  | .edit error => error.message

/-- The assignment that a text spells, or the error that it spells none. -/
def Assignment.parse (text : Text) : Except PatchError Assignment :=
  match Assignment.ofText? text with
  | some assignment => .ok assignment
  | none => .error (.invalidAssignment text)

/-- The value that a patch file holds. -/
def readPatchFile (disk : Disk) (path : Text) : Except PatchError Json :=
  match disk.text? path with
  | none => .error (.unreadable path)
  | some text =>
      let format := PatchFormat.ofPath path
      match format.read? text with
      | some json => .ok json
      | none => .error (.malformed path format)

/-- Where a patch comes from. -/
structure PatchSource where
  file : Option Text
  /-- Assignments of values. -/
  sets : List Text
  /-- Assignments of calls. -/
  calls : List Text
deriving DecidableEq, Repr

namespace PatchSource

/-- The patch of the file, or the empty one. -/
def base (source : PatchSource) (disk : Disk) : Except PatchError Patch :=
  match source.file with
  | none => .ok .empty
  | some path => do
      let json ← readPatchFile disk path
      (Patch.ofJson json).mapError .edit

/-- The patch of a source. -/
def assemble (source : PatchSource)
    (disk : Disk) : Except PatchError Patch := do
  let base ← source.base disk
  let withValues ← source.sets.foldlM
    (fun patch text => do
      let assignment ← Assignment.parse text
      (Patch.assign patch assignment).mapError .edit) base
  source.calls.foldlM
    (fun patch text => do
      let assignment ← Assignment.parse text
      (Patch.assignCall patch assignment).mapError .edit) withValues

end PatchSource

end ConfigEdit
