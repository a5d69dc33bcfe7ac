import ConfigEdit.Settings.Effective

/-!
# Looking settings up

Each option can also be looked up in merged settings that nobody has checked:
what is not there, or is of the wrong kind, is taken from the defaults.
-/

namespace ConfigEdit.Settings

/-- The options that hold unless a layer says otherwise. -/
def defaults : Checked where
  print := .standard
  discover :=
    { patterns := ["cypress.config.\x7bts,js,mjs,cjs\x7d".toList]
      maxDepth := 6
      skipDirs := ["node_modules".toList, ".git".toList, "dist".toList] }

/-- The value at a dotted path. -/
def get (settings : Settings) (path : String) : Option Json :=
  settings.value.dotted? path.toList

/-- How new text is printed. -/
def printOptions (settings : Settings) : PrintOptions where
  indent :=
    (((settings.get "print.indent").bind Json.nat?).map
      (List.replicate · ' ')).getD defaults.print.indent
  quote :=
    if (settings.get "print.quote").bind Json.string? = some "double".toList
      then .double
    else .single
  trailingComma :=
    ((settings.get "print.trailing_comma").bind Json.boolean?).getD
      defaults.print.trailingComma

/-- What is searched for, and where. -/
def discoverOptions (settings : Settings) : DiscoverOptions where
  patterns :=
    ((settings.get "discover.patterns").bind Json.strings?).getD
      defaults.discover.patterns
  maxDepth :=
    ((settings.get "discover.max_depth").bind Json.nat?).getD
      defaults.discover.maxDepth
  skipDirs :=
    ((settings.get "discover.skip_dirs").bind Json.strings?).getD
      defaults.discover.skipDirs

/-- The defaults pass their own check. -/
theorem check_defaultValue :
    check SettingsLayer.defaultValue = .ok defaults := rfl

end ConfigEdit.Settings
