import ConfigEdit.Number.Basic
import ConfigEdit.Text.Entries

/-!
# JSON values

Objects keep the order of their entries.
-/

namespace ConfigEdit

/-- JSON values. -/
inductive Json where
  | null
  | boolean (value : Bool)
  | number (value : Number)
  | string (text : Text)
  | array (items : List Json)
  | object (entries : List (Text × Json))
deriving Repr

namespace Json

/-- The value under a key of an object. -/
def get? : Json → Text → Option Json
  | object entries, key => Entries.get? entries key
  | _, _ => none

/-- The value at the end of a path of keys. -/
def at? (value : Json) : List Text → Option Json
  | [] => some value
  | key :: keys =>
      match value.get? key with
      | some inner => inner.at? keys
      | none => none

/-- The characters of a string. -/
def string? : Json → Option Text
  | string text => some text
  | _ => none

/-- A truth value. -/
def boolean? : Json → Option Bool
  | boolean value => some value
  | _ => none

/-- An integer of 64 bits without a sign. -/
def nat? : Json → Option Nat
  | number value => value.toNat?
  | _ => none

/-- The items of an array of strings. -/
def strings? : Json → Option (List Text)
  | array items => items.mapM string?
  | _ => none

end Json

end ConfigEdit
