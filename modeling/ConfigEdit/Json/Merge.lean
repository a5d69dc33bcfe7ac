import ConfigEdit.Json.Value

/-!
# Merging JSON values

An object is merged into an object key by key, at every depth; anything else
takes the place of what was there.  Keys keep the order in which they came
first.
-/

namespace ConfigEdit.Json

mutual

/-- A value with another one merged into it. -/
def merge (base : Json) : (overlay : Json) → Json
  | object entries =>
      match base with
      | object old => object (mergeEntries old entries)
      | _ => object entries
  | null => null
  | boolean value => boolean value
  | number value => number value
  | string text => string text
  | array items => array items

/-- Entries with further ones merged into them. -/
def mergeEntries (base : Entries Json) :
    (overlay : List (Text × Json)) → Entries Json
  | [] => base
  | (key, value) :: others =>
      let merged :=
        match base.get? key with
        | some old => merge old value
        | none => value
      mergeEntries (base.insert key merged) others

end

/-- Values merged one after the other, the last of which counts most. -/
def mergeLayers (layers : List Json) : Json := layers.foldl merge null

end ConfigEdit.Json
