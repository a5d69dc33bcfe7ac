import ConfigEdit.Command.Run

/-!
# The program

The files that the arguments name are loaded, the run comes to its outcome, and
the outcome is carried out: texts are printed, and at most one file is stored.
-/

namespace ConfigEdit

/-- What stands at a path, down to a depth.  What is there and cannot be read
has no content and no entries. -/
def loadTree : (depth : Nat) → (path : String) → IO (Option FileTree)
  | 0, path => do
      let place := System.mkFilePath [path]
      if !(← place.pathExists) then return none
      if ← place.isDir then return some .empty
      try return some (.file (← IO.FS.readBinFile place))
      catch _ => return some .empty
  | depth + 1, path => do
      let place := System.mkFilePath [path]
      if !(← place.isDir) then return ← loadTree 0 path
      let mut entries := FileTree.empty.entries
      for entry in ← (try place.readDir catch _ => pure #[]) do
        let name := entry.fileName.toList
        if let some inner ← loadTree depth
          (String.ofList (FilePath.join path.toList name)) then
          entries := entries.insert name inner
      return some (.directory entries)

/-- What stands at each of some paths. -/
def loadDisk (depth : Nat) (paths : List Text) : IO Disk := do
  let mut loaded : Entries FileTree := []
  for path in paths do
    if let some tree ← loadTree depth (String.ofList path) then
      loaded := loaded.insert path tree
  return loaded.get?

/-- Prints a report. -/
def Report.print (report : Report) : IO UInt32 := do
  IO.print (String.ofList report.output)
  IO.eprint (String.ofList report.errors)
  return UInt32.ofNat report.exit

/-- Carries out an outcome. -/
def Outcome.carryOut : Outcome → IO UInt32
  | done report => report.print
  | save path content => do
      let stored ←
        try
          IO.FS.writeBinFile (System.mkFilePath [String.ofList path])
            content.utf8
          pure true
        catch _ => pure false
      if stored then (saved path).print else (notSaved path).print

/-- Runs an invocation. -/
def Invocation.execute (invocation : Invocation) : IO UInt32 := do
  let home := (← IO.getEnv "HOME").map String.toList
  let paths := invocation.paths home
  if invocation.options.verbose then
    for path in paths do
      IO.eprintln ("looking at " ++ String.ofList path)
  let disk ← loadDisk invocation.command.depth paths
  (invocation.run disk home).carryOut

end ConfigEdit

open ConfigEdit

/-- Runs the arguments of the command line. -/
def main (arguments : List String) : IO UInt32 :=
  match Invocation.ofArguments (arguments.map String.toList) with
  | .ok invocation => invocation.execute
  | .error stop => stop.report.print
