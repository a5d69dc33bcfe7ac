import ConfigEdit.Files.Path
import ConfigEdit.Text.Entries
import ConfigEdit.Text.Utf8

/-!
# File trees

A file tree is a file or a directory of named trees.  The names from the root
down to an entry find it, and a path is resolved to such names: empty
components and `.` stay in a directory, and `..` goes back to the one around
it.
-/

namespace ConfigEdit

/-- Files and directories. -/
inductive FileTree where
  | file (content : ByteArray)
  | directory (entries : List (Text × FileTree))

namespace FileTree

/-- The directory without entries. -/
def empty : FileTree := directory []

/-- The tree is a directory. -/
def isDirectory : FileTree → Bool
  | file _ => false
  | directory _ => true

/-- The bytes of a file. -/
def content? : FileTree → Option ByteArray
  | file content => some content
  | directory _ => none

/-- The entries of a directory. -/
def entries : FileTree → Entries FileTree
  | file _ => []
  | directory entries => entries

/-- The tree that names lead to. -/
def get? (tree : FileTree) : List Text → Option FileTree
  | [] => some tree
  | name :: names =>
      match tree.entries.get? name with
      | some inner => inner.get? names
      | none => none

/-- The tree with another one at the end of some names.  Directories are made
where there are none. -/
def put (leaf : FileTree) : List Text → FileTree → FileTree
  | [], _ => leaf
  | name :: names, tree =>
      let inner := (tree.entries.get? name).getD empty
      directory (tree.entries.insert name (put leaf names inner))

/-- The names that further components of a path lead to from a directory,
whose own names are given with the last one first. -/
def resolveFrom? (tree : FileTree) :
    (names components : List Text) → Option (List Text)
  | names, [] => some names.reverse
  | names, component :: components =>
      match tree.get? names.reverse with
      | some (.directory entries) =>
          if component = [] || component = ['.'] then
            tree.resolveFrom? names components
          else if component = ['.', '.'] then
            match names with
            | [] => none
            | _ :: outer => tree.resolveFrom? outer components
          else if Entries.has entries component then
            tree.resolveFrom? (component :: names) components
          else none
      | _ => none

/-- The names that a path from the root of the tree leads to. -/
def resolve? (tree : FileTree) (path : Text) : Option (List Text) :=
  match path with
  | [] => none
  | '/' :: _ => none
  | _ => tree.resolveFrom? [] (path.pieces '/')

/-- The tree at a path. -/
def at? (tree : FileTree) (path : Text) : Option FileTree :=
  (tree.resolve? path).bind tree.get?

/-- The tree with other bytes in the file at a path. -/
def store (tree : FileTree) (path : Text) (content : ByteArray) : FileTree :=
  match tree.resolve? path with
  | some names => put (.file content) names tree
  | none => tree

end FileTree

/-- What stands at each path. -/
abbrev Disk := Text → Option FileTree

namespace Disk

/-- The bytes of the file at a path. -/
def bytes? (disk : Disk) (path : Text) : Option ByteArray :=
  (disk path).bind FileTree.content?

/-- The text of the file at a path. -/
def text? (disk : Disk) (path : Text) : Option Text :=
  (disk.bytes? path).bind Text.ofUtf8?

end Disk

end ConfigEdit
