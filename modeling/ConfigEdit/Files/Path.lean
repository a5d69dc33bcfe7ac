import ConfigEdit.Text.Basic

/-!
# Paths of files

A path is a text whose components stand between slashes.
-/

namespace ConfigEdit.FilePath

/-- The path of an entry of a directory. -/
def join (directory name : Text) : Text :=
  match directory.getLast? with
  | none => name
  | some last =>
      if last = '/' then directory ++ name else directory ++ '/' :: name

/-- Whether a name comes before another: the first characters that differ
decide by their codes, and a name comes before those that it begins. -/
def nameBefore (left right : Text) : Bool :=
  List.lex left right fun one other => decide (one.toNat < other.toNat)

/-- Whether a path, given by its names from the top down, comes before another:
the first names that differ decide. -/
def pathBefore (left right : List Text) : Bool := List.lex left right nameBefore

/-- The name at the end of a path. -/
def fileName? (path : Text) : Option Text :=
  let parts : List Text :=
    (path.pieces '/').filter fun part => part ≠ [] && part ≠ ['.']
  match parts.getLast? with
  | some name => if name = ['.', '.'] then none else some name
  | none => none

/-- What stands behind the last point of a name, unless the point begins the
name. -/
def extension? (path : Text) : Option Text :=
  match fileName? path with
  | none => none
  | some name =>
      let behind : Text := (name.reverse.takeWhile (· ≠ '.')).reverse
      if behind.length + 1 < name.length then some behind else none

end ConfigEdit.FilePath
