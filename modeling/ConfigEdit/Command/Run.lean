import ConfigEdit.Command.Arguments
import ConfigEdit.Discover.Find
import ConfigEdit.Edit.Document
import ConfigEdit.Patch.Source
import ConfigEdit.Settings.Effective

/-!
# Running commands

A run looks at the files of a disk and comes to an outcome: a report, or one
file to store and the report that follows.  Only an update or a removal that is
to be written, has succeeded and has changed the text stores a file.
-/

namespace ConfigEdit

/-- What a run says: an exit code and what it prints. -/
structure Report where
  exit : Nat
  output : Text
  errors : Text
deriving DecidableEq, Repr

namespace Report

/-- A run that has printed something. -/
def printed (output : Text) : Report := ⟨0, output, []⟩

/-- A run that has noted something. -/
def noted (note : String) : Report := ⟨0, [], (note ++ "\n").toList⟩

/-- A run that has failed. -/
def failed (message : String) : Report :=
  ⟨1, [], ("Error" ++ message ++ "\n").toList⟩

end Report

/-- What a run comes to. -/
inductive Outcome where
  | done (report : Report)
  /-- The file at the path is to hold the text. -/
  | save (path content : Text)
deriving DecidableEq, Repr

namespace Outcome

/-- The report after a file has been stored. -/
def saved (path : Text) : Report := .noted (String.ofList path ++ ": updated")

/-- The report if a file cannot be stored. -/
def notSaved (path : Text) : Report :=
  .failed (" writing " ++ String.ofList path ++ ": the file cannot be stored")

/-- What a run that failed comes to. -/
def failed (message : String) : Outcome := done (.failed message)

/-- The files after a run, and its report. -/
def perform (files : FileTree) : Outcome → FileTree × Report
  | done report => (files, report)
  | save path content => (files.store path content.utf8, saved path)

end Outcome

namespace GlobalOptions

/-- The settings that options ask for. -/
def settingsValue? (options : GlobalOptions) : Option Json :=
  let indent := options.indent.toList.map fun width =>
    ("indent", SettingsLayer.jsonNat width)
  let quote := options.quote.toList.map fun style =>
    ("quote", Json.string (match style with
      | .single => "single".toList
      | .double => "double".toList))
  match indent ++ quote with
  | [] => none
  | entries => some (SettingsLayer.jsonObject
      [("print", SettingsLayer.jsonObject entries)])

/-- The path of the settings of the repository. -/
def repoPath (options : GlobalOptions) : Text :=
  options.config.getD ".confpatch.toml".toList

/-- The path of the settings of a user. -/
def userPath (home : Text) : Text :=
  FilePath.join home ".config/confpatch/config.toml".toList

/-- The settings of a run, or why there are none. -/
def loadSettings (options : GlobalOptions) (disk : Disk) (home : Option Text) :
    Except String Settings :=
  match options.config.filter fun path => (disk path).isNone with
  | some path => .error ("settings file not found: " ++ String.ofList path)
  | none =>
      (Settings.load disk (home.map userPath) options.repoPath
        options.settingsValue?).mapError SettingsError.message

end GlobalOptions

namespace Command

/-- The text of a file goes through a function, whose error is reported with
the name of the file. -/
def withText {kind : Type} (disk : Disk) (file : Text)
    (step : Text → Except EditError kind)
    (finish : Text → kind → Outcome) : Outcome :=
  match disk.text? file with
  | none =>
      .failed (" reading " ++ String.ofList file ++ ": not a readable text")
  | some text =>
      match step text with
      | .ok result => finish text result
      | .error error =>
          .failed (": " ++ String.ofList file ++ ": " ++ error.message)

/-- The new text of a file is printed or stored. -/
def emit (file : Text) (write : Bool) (before after : Text) : Outcome :=
  if !write then .done (.printed after)
  else if after = before then
    .done (.noted (String.ofList file ++ ": unchanged"))
  else .save file after

/-- What a command comes to. -/
def run (disk : Disk) (effective : Settings) : Command → Outcome
  | update file source overwrite write =>
      match source.assemble disk with
      | .error error => .failed (": " ++ error.message)
      | .ok patch =>
          withText disk file
            (updateText effective.checked.print patch overwrite)
            (emit file write)
  | remove file paths write =>
      withText disk file
        (fun text => do
          let paths ← RemovalSet.parse paths
          removeText effective.checked.print paths text)
        (emit file write)
  | display file =>
      withText disk file readText fun _ value =>
        .done (.printed (value.toJson.pretty 0 ++ ['\n']))
  | find directory =>
      match discover disk effective.checked.discover (directory.getD ['.']) with
      | .error error => .failed (": " ++ error.message)
      | .ok found => .done (.printed (found.flatMap fun path => path ++ ['\n']))
  | settings => .done (.printed (effective.toJson.pretty 0 ++ ['\n']))

end Command

/-- The paths that a command can look at, apart from settings. -/
def Command.paths : Command → List Text
  | update file source _ _ => file :: source.file.toList
  | remove file _ _ => [file]
  | display file => [file]
  | find directory => [directory.getD ['.']]
  | settings => []

/-- How far below its paths a command can look. -/
def Command.depth : Command → Nat
  | find _ => maxSearchDepth
  | _ => 0

/-- The paths that an invocation can look at. -/
def Invocation.paths (invocation : Invocation)
    (home : Option Text) : List Text :=
  (home.map GlobalOptions.userPath).toList ++ invocation.options.repoPath ::
    invocation.command.paths

/-- What an invocation comes to. -/
def Invocation.run (invocation : Invocation) (disk : Disk)
    (home : Option Text) : Outcome :=
  match invocation.options.loadSettings disk home with
  | .error message => .failed (" loading settings: " ++ message)
  | .ok settings => invocation.command.run disk settings

/-- How to call the program. -/
def usage : String :=
  "Format-preserving edits of defineConfig() config files\n\n" ++
    "Usage: confpatch [OPTIONS] <COMMAND>\n\n" ++
    "Commands:\n" ++
    "  update <FILE> [-p PATCH] [--set KEY=VALUE] [--call KEY=EXPR] [--overwrite] [-w]\n" ++
    "  remove <FILE> --path <KEY> [-w]\n" ++
    "  show <FILE>\n" ++
    "  find [DIR]\n" ++
    "  settings\n\n" ++
    "Options:\n" ++
    "  -c, --config <CONFIG>\n" ++
    "      --indent <INDENT>\n" ++
    "      --quote <single|double>\n" ++
    "  -v, --verbose\n" ++
    "  -h, --help\n" ++
    "  -V, --version\n"

/-- What arguments that name no command to run come to. -/
def NoInvocation.report : NoInvocation → Report
  | .help => .printed usage.toList
  | .version => .printed "confpatch 0.1.0\n".toList
  | .wrong message =>
      ⟨2, [], ("error: " ++ message ++
        "\n\nFor more information, try '--help'.\n").toList⟩

/-- What the arguments of the command line come to. -/
def runArguments (disk : Disk) (home : Option Text)
    (arguments : List Text) : Outcome :=
  match Invocation.ofArguments arguments with
  | .ok invocation => invocation.run disk home
  | .error stop => .done stop.report

end ConfigEdit
