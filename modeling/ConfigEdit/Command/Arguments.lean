import ConfigEdit.Patch.Source
import ConfigEdit.Settings.Check

/-!
# Arguments of the command line

The arguments name a command with its files and options.  Options for all
commands may stand before the command or behind it; behind it they count more.
An option with one value, or without any, may come once on each side.  A value
may be joined to its option, and must be if it begins with `-`.  Behind `--`
all arguments are names of files.
-/

namespace ConfigEdit

/-- What to do. -/
inductive Command where
  | update (file : Text) (patch : PatchSource) (overwrite write : Bool)
  | remove (file : Text) (paths : List Text) (write : Bool)
  | display (file : Text)
  | find (directory : Option Text)
  | settings
deriving DecidableEq, Repr

/-- Options of all commands. -/
structure GlobalOptions where
  config : Option Text
  indent : Option Nat
  quote : Option QuoteStyle
  verbose : Bool
deriving DecidableEq, Repr

/-- A command with the options of all commands. -/
structure Invocation where
  options : GlobalOptions
  command : Command
deriving DecidableEq, Repr

/-- Why arguments name no command to run. -/
inductive NoInvocation where
  | help
  | version
  | wrong (message : String)
deriving DecidableEq, Repr

namespace Command

/-- Where an argument stands: before the command, or behind it. -/
inductive Level where
  | top
  | update
  | remove
  | display
  | find
  | settings
deriving DecidableEq, Repr

/-- Options that stand alone. -/
inductive Flag where
  | help
  | version
  | verbose
  | overwrite
  | write
deriving DecidableEq, Repr

/-- Options with a value. -/
inductive Setting where
  | config
  | indent
  | quote
  | patch
  | set
  | call
  | path
deriving DecidableEq, Repr

/-- Options. -/
inductive Switch where
  | flag (flag : Flag)
  | setting (setting : Setting)
deriving DecidableEq, Repr

namespace Level

/-- The commands by name. -/
def ofName? (name : Text) : Option Level :=
  if name = "update".toList then some update
  else if name = "remove".toList then some remove
  else if name = "show".toList then some display
  else if name = "find".toList then some find
  else if name = "settings".toList then some settings
  else none

/-- The options that can stand at a level, with their long and short names. -/
def switches (level : Level) : List (Switch × String × Option Char) :=
  let everywhere : List (Switch × String × Option Char) :=
    [(.flag .help, "help", some 'h'), (.setting .config, "config", some 'c'),
      (.setting .indent, "indent", none), (.setting .quote, "quote", none),
      (.flag .verbose, "verbose", some 'v')]
  let write : Switch × String × Option Char := (.flag .write, "write", some 'w')
  match level with
  | top => (.flag .version, "version", some 'V') :: everywhere
  | update =>
      (.setting .patch, "patch", some 'p') :: (.setting .set, "set", none) ::
        (.setting .call, "call", none) ::
        (.flag .overwrite, "overwrite", none) :: write :: everywhere
  | remove => (.setting .path, "path", none) :: write :: everywhere
  | display => everywhere
  | find => everywhere
  | settings => everywhere

/-- The option with a long name. -/
def ofLong? (level : Level) (name : Text) : Option Switch :=
  (level.switches.find? fun entry => entry.2.1.toList = name).map Prod.fst

/-- The option with a short name. -/
def ofShort? (level : Level) (name : Char) : Option Switch :=
  (level.switches.find? fun entry => entry.2.2 = some name).map Prod.fst

/-- How many files can be named at a level. -/
def fileLimit : Level → Nat
  | top => 0
  | update => 1
  | remove => 1
  | display => 1
  | find => 1
  | settings => 0

end Level

/-- What the arguments at a level have said. -/
structure Said where
  options : GlobalOptions
  patch : PatchSource
  paths : List Text
  overwrite : Bool
  write : Bool
  files : List Text

namespace Said

/-- Nothing has been said. -/
def nothing : Said :=
  { options := ⟨none, none, none, false⟩
    patch := ⟨none, [], []⟩
    paths := []
    overwrite := false
    write := false
    files := [] }

/-- An option that came a second time. -/
def repeated : NoInvocation := .wrong "an option is given more than once"

/-- A value that an option does not take. -/
def badValue (name : String) : NoInvocation :=
  .wrong ("bad value for --" ++ name)

/-- One more flag. -/
def addFlag (said : Said) : Flag → Except NoInvocation Said
  | .help => .error .help
  | .version => .error .version
  | .verbose =>
      if said.options.verbose then .error repeated
      else .ok { said with options := { said.options with verbose := true } }
  | .overwrite =>
      if said.overwrite then .error repeated
      else .ok { said with overwrite := true }
  | .write =>
      if said.write then .error repeated else .ok { said with write := true }

/-- One more option with its value.  Names of files must not be empty. -/
def addSetting (said : Said) (value : Text) : Setting → Except NoInvocation Said
  | .config =>
      if said.options.config.isSome then .error repeated
      else if value.isEmpty then .error (badValue "config")
      else .ok { said with
        options := { said.options with config := some value } }
  | .indent =>
      if said.options.indent.isSome then .error repeated
      else
        match (natOfText? 10 value).filter (· < UInt64.size) with
        | some indent =>
            .ok { said with
              options := { said.options with indent := some indent } }
        | none => .error (badValue "indent")
  | .quote =>
      if said.options.quote.isSome then .error repeated
      else
        match Settings.quoteStyle? value with
        | some style => .ok { said with
            options := { said.options with quote := some style } }
        | none => .error (badValue "quote")
  | .patch =>
      if said.patch.file.isSome then .error repeated
      else if value.isEmpty then .error (badValue "patch")
      else .ok { said with patch := { said.patch with file := some value } }
  | .set =>
      .ok { said with
        patch := { said.patch with sets := said.patch.sets ++ [value] } }
  | .call =>
      .ok { said with
        patch := { said.patch with calls := said.patch.calls ++ [value] } }
  | .path => .ok { said with paths := said.paths ++ [value] }

/-- One more name of a file. -/
def addFile (level : Level) (said : Said)
    (file : Text) : Except NoInvocation Said :=
  if said.files.length < level.fileLimit && !file.isEmpty then
    .ok { said with files := said.files ++ [file] }
  else .error (.wrong ("unexpected argument '" ++ String.ofList file ++ "'"))

/-- An option that stands alone or has its value with it.  A setting without a
value is given back, to get its value from the next argument. -/
def addSwitch (said : Said) (switch : Switch) (value : Option Text) :
    Except NoInvocation (Said × Option Setting) :=
  match switch, value with
  | .flag flag, none => (said.addFlag flag).map fun said => (said, none)
  | .flag _, some _ => .error (.wrong "a flag takes no value")
  | .setting setting, some value =>
      (said.addSetting value setting).map fun said => (said, none)
  | .setting setting, none => .ok (said, some setting)

/-- An option that the level does not have. -/
def unknown (name : Text) : NoInvocation :=
  .wrong ("unexpected argument '" ++ String.ofList name ++ "'")

/-- An option by its long name, maybe with its value. -/
def addLong (level : Level) (said : Said) (body : Text) :
    Except NoInvocation (Said × Option Setting) :=
  let (name, value) :=
    match body.splitOnce? '=' with
    | some (name, value) => (name, some value)
    | none => (body, none)
  match level.ofLong? name with
  | some switch => said.addSwitch switch value
  | none => .error (unknown ('-' :: '-' :: body))

/-- Options by their short names.  What follows the name of a setting is its
value. -/
def addShort (level : Level) (said : Said) :
    Text → Except NoInvocation (Said × Option Setting)
  | [] => .ok (said, none)
  | name :: rest =>
      match level.ofShort? name with
      | none => .error (unknown ['-', name])
      | some (.flag flag) => do addShort level (← said.addFlag flag) rest
      | some (.setting setting) =>
          match rest with
          | [] => .ok (said, some setting)
          | '=' :: value => said.addSwitch (.setting setting) (some value)
          | value => said.addSwitch (.setting setting) (some value)

end Said

/-- An argument that is an option. -/
def isOption : Text → Bool
  | '-' :: _ :: _ => true
  | _ => false

/-- An argument that is an option, added to what has been said. -/
def addOption (level : Level) (said : Said) (argument : Text) :
    Except NoInvocation (Said × Option Setting) :=
  match argument with
  | '-' :: '-' :: body => said.addLong level body
  | _ => said.addShort level (argument.drop 1)

/-- The name that asks for help in the place of a command. -/
def helpName : Text := "help".toList

/-- Help on what the arguments behind `helpName` name: nothing, a command, or
help itself. -/
def helpOn : List Text → NoInvocation
  | [] => .help
  | [topic] =>
      if topic = helpName || (Level.ofName? topic).isSome then .help
      else .wrong ("unrecognized subcommand '" ++ String.ofList topic ++ "'")
  | _ :: _ :: _ => .wrong "help is about one command"

/-- What the arguments at a level say.  Before the command, its name ends them:
it is given back with the arguments behind it. -/
def readLevel (level : Level) (said : Said) :
    List Text → Except NoInvocation (Said × Option (Level × List Text))
  | [] => .ok (said, none)
  | argument :: rest =>
      if argument = ['-', '-'] then
        (rest.foldlM (Said.addFile level) said).map fun said => (said, none)
      else if isOption argument then
        match addOption level said argument with
        | .error error => .error error
        | .ok (said, none) => readLevel level said rest
        | .ok (said, some setting) =>
            match rest with
            | [] => .error (.wrong "an option lacks its value")
            | value :: rest =>
                if isOption value then
                  .error (.wrong "an option lacks its value")
                else
                  match said.addSetting value setting with
                  | .error error => .error error
                  | .ok said => readLevel level said rest
      else
        match level, Level.ofName? argument with
        | .top, some inner => .ok (said, some (inner, rest))
        | .top, none =>
            if argument = helpName then .error (helpOn rest)
            else .error (.wrong ("unrecognized subcommand '" ++
              String.ofList argument ++ "'"))
        | _, _ =>
            match said.addFile level argument with
            | .error error => .error error
            | .ok said => readLevel level said rest

/-- The file that a command needs. -/
def Said.file (said : Said) : Except NoInvocation Text :=
  match said.files with
  | file :: _ => .ok file
  | [] => .error (.wrong "no file is given")

/-- The command of a level. -/
def ofSaid (said : Said) : Level → Except NoInvocation Command
  | .top => .error (.wrong "no command is given")
  | .update =>
      do return .update (← said.file) said.patch said.overwrite said.write
  | .remove => do
      let file ← said.file
      if said.paths.isEmpty then .error (.wrong "no path is given")
      else return .remove file said.paths said.write
  | .display => do return .display (← said.file)
  | .find => .ok (.find said.files.head?)
  | .settings => .ok .settings

end Command

/-- Options behind a command over those before it. -/
def GlobalOptions.orElse (inner outer : GlobalOptions) : GlobalOptions :=
  { config := inner.config <|> outer.config
    indent := inner.indent <|> outer.indent
    quote := inner.quote <|> outer.quote
    verbose := inner.verbose || outer.verbose }

/-- The invocation that arguments spell. -/
def Invocation.ofArguments
    (arguments : List Text) : Except NoInvocation Invocation := do
  let (outer, command) ← Command.readLevel .top .nothing arguments
  match command with
  | none => .error (.wrong "no command is given")
  | some (level, rest) => do
      let (inner, _) ← Command.readLevel level .nothing rest
      let command ← Command.ofSaid inner level
      return ⟨inner.options.orElse outer.options, command⟩

end ConfigEdit
