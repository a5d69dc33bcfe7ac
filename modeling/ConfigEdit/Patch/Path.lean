import ConfigEdit.Text.Basic

/-!
# Property paths

A path names a property by the keys from the root of the configuration down to
it.  In text the keys are joined by points, none of them is empty, and the
root has no text.
-/

namespace ConfigEdit

/-- The keys from the root down to a property. -/
abbrev PropertyPath := List Text

namespace PropertyPath

/-- The empty path. -/
def root : PropertyPath := []

/-- The path that a text names. -/
def ofDotted? (dotted : Text) : Option PropertyPath :=
  let keys := dotted.pieces '.'
  if keys.any List.isEmpty then none else some keys

/-- The path of a property of the object at a path. -/
def child (path : PropertyPath) (name : Text) : PropertyPath := path ++ [name]

/-- The path as it is shown. -/
def shown (path : PropertyPath) : Text :=
  if path.isEmpty then "<root>".toList else Text.joined ['.'] path

/-- The path is the other one or leads to it. -/
def leadsTo (path other : PropertyPath) : Bool := path.isPrefixOf other

end PropertyPath

/-- Paths of properties to remove, each once, in the order in which they
came. -/
abbrev RemovalSet := List PropertyPath

namespace RemovalSet

/-- The set with one more path. -/
def insert (paths : RemovalSet) (path : PropertyPath) : RemovalSet :=
  if paths.contains path then paths else paths ++ [path]

/-- The set of a list of paths. -/
def ofList (paths : List PropertyPath) : RemovalSet := paths.foldl insert []

/-- Some path of the set lies strictly below the given one. -/
def reachesBelow (paths : RemovalSet) (path : PropertyPath) : Bool :=
  paths.any fun other => path.length < other.length && path.leadsTo other

end RemovalSet

end ConfigEdit
