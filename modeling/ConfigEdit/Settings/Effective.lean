import ConfigEdit.Json.Print
import ConfigEdit.Settings.Layer

/-!
# Effective settings

All layers merged, checked, and shown together with where they come from.
-/

namespace ConfigEdit

/-- The settings that hold, with their sources in the order of their layers. -/
structure Settings where
  value : Json
  sources : List SettingsSource
  checked : Settings.Checked

namespace Settings

/-- The version of the form in which settings are shown. -/
def schemaVersion : Nat := 1

/-- The settings of some layers. -/
def ofLayers (layers : List SettingsLayer) : Except SettingsError Settings :=
  let value := Json.mergeLayers (layers.map SettingsLayer.value)
  match check value with
  | .ok checked => .ok ⟨value, layers.map SettingsLayer.source, checked⟩
  | .error reason => .error (.invalid reason)

/-- The settings of the defaults, a file of the user, a file of the repository
and values of the command line. -/
def load (disk : Disk) (user repo : Option Text) (commandLine : Option Json) :
    Except SettingsError Settings := do
  let user ← SettingsLayer.ofPath disk .user user
  let repo ← SettingsLayer.ofPath disk .repo repo
  let commandLine := commandLine.toList.map SettingsLayer.ofCommandLine
  ofLayers (SettingsLayer.builtin :: user ++ repo ++ commandLine)

/-- A source in JSON.  What is not known of it is left out. -/
def sourceJson (source : SettingsSource) : Json :=
  let entry (key : String) (value : Option Text) : List (String × Json) :=
    value.toList.map fun text => (key, .string text)
  SettingsLayer.jsonObject
    (("origin", .string source.origin.name.toList) ::
      entry "path" source.path ++ entry "digest" source.digest)

/-- The settings and their sources in JSON. -/
def toJson (settings : Settings) : Json :=
  SettingsLayer.jsonObject
    [("schema_version", SettingsLayer.jsonNat schemaVersion),
      ("settings", settings.value),
      ("sources", .array (settings.sources.map sourceJson))]

end Settings

end ConfigEdit
