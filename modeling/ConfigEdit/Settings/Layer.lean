import ConfigEdit.Digest.Sha256
import ConfigEdit.Json.Merge
import ConfigEdit.Settings.Check
import ConfigEdit.Toml.Read

/-!
# Layers of settings

Settings come in layers, each merged over the ones before it: the defaults, a
file of the user, a file of the repository, and the command line.  A file that
is not there is no layer.
-/

namespace ConfigEdit

/-- Where a layer comes from. -/
inductive SettingsOrigin where
  | builtin
  | user
  | repo
  | cli
deriving DecidableEq, Repr

/-- The origin in words. -/
def SettingsOrigin.name : SettingsOrigin → String
  | .builtin => "builtin"
  | .user => "user"
  | .repo => "repo"
  | .cli => "cli"

/-- What is known of the origin of a layer.  A file has a path and the digest of
its bytes. -/
structure SettingsSource where
  origin : SettingsOrigin
  path : Option Text
  digest : Option Text
deriving DecidableEq, Repr

/-- A layer of settings. -/
structure SettingsLayer where
  source : SettingsSource
  value : Json

/-- Why settings cannot be used. -/
inductive SettingsError where
  | unreadable (path : Text)
  | notText (path : Text)
  | malformed (path : Text)
  | invalid (reason : InvalidSetting)
deriving DecidableEq, Repr

/-- The error as it is shown to users. -/
def SettingsError.message : SettingsError → String
  | .unreadable path =>
      "IO error: " ++ String.ofList path ++ ": not a readable file"
  | .notText path =>
      "Parse error: " ++ String.ofList path ++
        ": invalid UTF-8: malformed bytes"
  | .malformed path =>
      "Parse error: " ++ String.ofList path ++
        ": TOML parse error: malformed document"
  | .invalid reason => "Validation error: " ++ reason.message

namespace SettingsLayer

/-- An array of strings in JSON. -/
def jsonStrings (texts : List String) : Json :=
  .array (texts.map fun text => .string text.toList)

/-- An object in JSON. -/
def jsonObject (entries : List (String × Json)) : Json :=
  .object (entries.map fun (key, value) => (key.toList, value))

/-- A small natural number in JSON. -/
def jsonNat (value : Nat) : Json :=
  match Number.ofInt? value with
  | some number => .number number
  | none => .null

/-- The settings that hold unless a layer says otherwise. -/
def defaultValue : Json :=
  jsonObject
    [("print", jsonObject
        [("indent", jsonNat 2), ("quote", .string "single".toList),
          ("trailing_comma", .boolean true)]),
      ("discover", jsonObject
        [("patterns", jsonStrings ["cypress.config.\x7bts,js,mjs,cjs\x7d"]),
          ("max_depth", jsonNat 6),
          ("skip_dirs", jsonStrings ["node_modules", ".git", "dist"])])]

/-- The layer of the defaults. -/
def builtin : SettingsLayer := ⟨⟨.builtin, none, none⟩, defaultValue⟩

/-- The layer of the command line. -/
def ofCommandLine (value : Json) : SettingsLayer := ⟨⟨.cli, none, none⟩, value⟩

/-- The layer of a file. -/
def ofFile (origin : SettingsOrigin) (path : Text) (file : FileTree) :
    Except SettingsError SettingsLayer :=
  match file.content? with
  | none => .error (.unreadable path)
  | some bytes =>
      match Text.ofUtf8? bytes with
      | none => .error (.notText path)
      | some text =>
          match Toml.toJson? text with
          | none => .error (.malformed path)
          | some value =>
              .ok ⟨⟨origin, some path, some (Sha256.hexDigest bytes)⟩, value⟩

/-- The layer of the file at a path, if there is a path and something stands
there. -/
def ofPath (disk : Disk) (origin : SettingsOrigin) (path : Option Text) :
    Except SettingsError (List SettingsLayer) :=
  match path with
  | none => .ok []
  | some path =>
      match disk path with
      | none => .ok []
      | some file => (ofFile origin path file).map fun layer => [layer]

end SettingsLayer

end ConfigEdit
