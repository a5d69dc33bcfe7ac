import ConfigEdit.Files.Tree
import ConfigEdit.Glob.Match

/-!
# Finding configuration files

The files below a directory whose names match a pattern, down to a depth, in
the order of their paths, component by component.  Directories with certain
names are not entered.
-/

namespace ConfigEdit

/-- What to look for and where. -/
structure DiscoverOptions where
  /-- Patterns of file names. -/
  patterns : List Text
  /-- How far below the root files can lie. -/
  maxDepth : Nat
  /-- Names of directories that are not entered. -/
  skipDirs : List Text
deriving DecidableEq, Repr

/-- Why a search failed. -/
inductive DiscoverError where
  | notADirectory (path : Text)
  | invalidPattern (pattern : Text) (error : Glob.PatternError)
deriving DecidableEq, Repr

/-- The error as it is shown to users. -/
def DiscoverError.message : DiscoverError → String
  | .notADirectory path => "Not a directory: " ++ String.ofList path
  | .invalidPattern pattern error =>
      "Glob pattern error: error parsing glob '" ++ String.ofList pattern ++
        "': " ++ error.message

mutual

/-- The files at most `depth` levels below a directory, as their names from the
directory down. -/
def FileTree.filesBelow (accepts skips : Text → Bool) (depth : Nat) :
    FileTree → List (List Text)
  | .file _ => []
  | .directory entries =>
      match depth with
      | 0 => []
      | depth + 1 => filesAmong accepts skips depth entries

/-- The files among the entries of a directory and at most `depth` levels below
them. -/
def filesAmong (accepts skips : Text → Bool) (depth : Nat) :
    List (Text × FileTree) → List (List Text)
  | [] => []
  | (name, .file _) :: others =>
      if accepts name then [name] :: filesAmong accepts skips depth others
      else filesAmong accepts skips depth others
  | (name, .directory inner) :: others =>
      (if skips name then []
        else (FileTree.filesBelow accepts skips depth (.directory inner)).map
          (name :: ·)) ++ filesAmong accepts skips depth others

end

/-- The patterns of a search. -/
def DiscoverOptions.parse (options : DiscoverOptions) :
    Except DiscoverError (List (List Glob.Token)) :=
  options.patterns.mapM fun pattern =>
    (Glob.parse pattern).mapError (.invalidPattern pattern)

/-- The paths of the files below a directory. -/
def discover (disk : Disk) (options : DiscoverOptions) (root : Text) :
    Except DiscoverError (List Text) :=
  match disk root with
  | some (.directory entries) => do
      let patterns ← options.parse
      let found :=
        FileTree.filesBelow (fun name => patterns.any (Glob.isMatch · name))
          options.skipDirs.contains options.maxDepth (.directory entries)
      let sorted :=
        found.mergeSort fun left right => !FilePath.pathBefore right left
      return sorted.map fun names => names.foldl FilePath.join root
  | _ => .error (.notADirectory root)

end ConfigEdit
