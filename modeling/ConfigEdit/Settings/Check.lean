import ConfigEdit.Discover.Find
import ConfigEdit.Document.Print
import ConfigEdit.Json.Value

/-!
# Checked settings

Settings are a JSON object.  Six of its values have a meaning: how new text is
printed, and what is searched for.  `Settings.check` reads all six and accepts
nothing that it cannot use; other keys are not looked at.
-/

namespace ConfigEdit

/-- A value of the settings that cannot be used. -/
inductive InvalidSetting where
  | indent
  | quote
  | trailingComma
  | maxDepth
  | patterns
  | skipDirs
deriving DecidableEq, Repr

/-- The largest number of spaces of one step of indentation. -/
def maxIndent : Nat := 8

/-- The largest depth of a search. -/
def maxSearchDepth : Nat := 64

namespace InvalidSetting

/-- What the setting must be. -/
def message : InvalidSetting → String
  | indent =>
      "print.indent must be an integer in [0, " ++ toString maxIndent ++ "]"
  | quote => "print.quote must be \"single\" or \"double\""
  | trailingComma => "print.trailing_comma must be a boolean"
  | maxDepth => "discover.max_depth must be an integer in [1, " ++
      toString maxSearchDepth ++ "]"
  | patterns => "discover.patterns must be a list of strings"
  | skipDirs => "discover.skip_dirs must be a list of strings"

end InvalidSetting

/-- The value at a dotted path. -/
def Json.dotted? (value : Json) (path : Text) : Option Json :=
  value.at? (path.pieces '.')

namespace Settings

/-- The names of the styles of quotation marks. -/
def quoteStyle? (name : Text) : Option QuoteStyle :=
  if name = "single".toList then some .single
  else if name = "double".toList then some .double
  else none

/-- The settings as they are used. -/
structure Checked where
  print : PrintOptions
  discover : DiscoverOptions
deriving DecidableEq, Repr

/-- A value that must be there. -/
def require {kind : Type} (reason : InvalidSetting) :
    Option kind → Except InvalidSetting kind
  | some value => .ok value
  | none => .error reason

/-- An integer between two bounds. -/
def natBetween? (least most : Nat) (value : Json) : Option Nat :=
  value.nat?.filter fun number => least ≤ number && number ≤ most

/-- The settings of a value, or the first one that cannot be used. -/
def check (value : Json) : Except InvalidSetting Checked := do
  let dotted (path : String) : Option Json := value.dotted? path.toList
  let indent ← require .indent
    ((dotted "print.indent").bind (natBetween? 0 maxIndent))
  let quote ← require .quote
    (((dotted "print.quote").bind Json.string?).bind quoteStyle?)
  let trailingComma ← require .trailingComma
    ((dotted "print.trailing_comma").bind Json.boolean?)
  let maxDepth ← require .maxDepth
    ((dotted "discover.max_depth").bind (natBetween? 1 maxSearchDepth))
  let patterns ← require .patterns
    ((dotted "discover.patterns").bind Json.strings?)
  let skipDirs ← require .skipDirs
    ((dotted "discover.skip_dirs").bind Json.strings?)
  return {
    print := { indent := List.replicate indent ' ', quote, trailingComma }
    discover := { patterns, maxDepth, skipDirs } }

end Settings

end ConfigEdit
