import ConfigEdit.Edit.Error
import ConfigEdit.Json.Value

/-!
# Patches

A patch is a tree of values to write into a configuration.  A value is a
number, a string, a truth value, an object of values, or a call, which is held
as text.  JSON spells a call as an object with the single key `$call`.
-/

namespace ConfigEdit

/-- Values of patches and configurations. -/
inductive PatchValue where
  | number (value : Number)
  | string (text : Text)
  | boolean (value : Bool)
  | object (entries : List (Text × PatchValue))
  /-- The text of a call, or of another expression that is not taken apart. -/
  | call (text : Text)
deriving Repr

/-- The key under which JSON holds the text of a call. -/
def callKey : Text := ['$', 'c', 'a', 'l', 'l']

namespace PatchValue

mutual

/-- Whether two values are the same. -/
def decEq : (left right : PatchValue) → Decidable (left = right)
  | number left, number right =>
      decidable_of_decidable_of_eq (number.injEq left right).symm
  | string left, string right =>
      decidable_of_decidable_of_eq (string.injEq left right).symm
  | boolean left, boolean right =>
      decidable_of_decidable_of_eq (boolean.injEq left right).symm
  | object left, object right =>
      haveI := decEqEntries left right
      decidable_of_decidable_of_eq (object.injEq left right).symm
  | call left, call right =>
      decidable_of_decidable_of_eq (call.injEq left right).symm
  | number _, string _ | number _, boolean _ | number _, object _
  | number _, call _ | string _, number _ | string _, boolean _
  | string _, object _ | string _, call _ | boolean _, number _
  | boolean _, string _ | boolean _, object _ | boolean _, call _
  | object _, number _ | object _, string _ | object _, boolean _
  | object _, call _ | call _, number _ | call _, string _
  | call _, boolean _ | call _, object _ => isFalse nofun

/-- Whether two lists of entries are the same. -/
def decEqEntries :
    (left right : List (Text × PatchValue)) → Decidable (left = right)
  | [], [] => isTrue rfl
  | [], _ :: _ | _ :: _, [] => isFalse nofun
  | (key, value) :: others, (other, right) :: rights =>
      haveI := decEq value right
      haveI := decEqEntries others rights
      decidable_of_decidable_of_iff
        (p := key = other ∧ value = right ∧ others = rights)
        (by rw [List.cons.injEq, Prod.mk.injEq, and_assoc])

end

instance : DecidableEq PatchValue := decEq

/-- The kind of a value in words. -/
def kindName : PatchValue → String
  | number _ => "number"
  | string _ => "string"
  | boolean _ => "boolean"
  | object _ => "object"
  | call _ => "opaque expression"

/-- The entries of an object. -/
def entries? : PatchValue → Option (Entries PatchValue)
  | object entries => some entries
  | _ => none

/-- The value at the end of a path. -/
def at? (value : PatchValue) : PropertyPath → Option PatchValue
  | [] => some value
  | name :: names =>
      match value with
      | object entries =>
          match Entries.get? entries name with
          | some inner => inner.at? names
          | none => none
      | _ => none

mutual

/-- The value that a JSON value at a path spells. -/
def ofJson (path : PropertyPath) : Json → Except EditError PatchValue
  | .number value => .ok (number value)
  | .string text => .ok (string text)
  | .boolean value => .ok (boolean value)
  | .null => .error (.unsupported path .null)
  | .array _ => .error (.unsupported path .array)
  | .object entries =>
      match Entries.get? entries callKey with
      | some marker =>
          match entries, marker with
          | [_], .string text => .ok (call text)
          | [_], _ => .error (.unsupported path .markerWithoutText)
          | _, _ => .error (.unsupported path .markerWithOtherKeys)
      | none =>
          match ofJsonEntries path entries with
          | .ok values => .ok (object values)
          | .error error => .error error

/-- The values that the entries of a JSON object at a path spell. -/
def ofJsonEntries (path : PropertyPath) :
    List (Text × Json) → Except EditError (Entries PatchValue)
  | [] => .ok []
  | (key, json) :: others =>
      match ofJson (path.child key) json with
      | .error error => .error error
      | .ok value =>
          match ofJsonEntries path others with
          | .error error => .error error
          | .ok values => .ok ((key, value) :: values)

end

mutual

/-- A value in JSON. -/
def toJson : PatchValue → Json
  | number value => .number value
  | string text => .string text
  | boolean value => .boolean value
  | object entries => .object (toJsonEntries entries)
  | call text => .object [(callKey, .string text)]

/-- The entries of an object in JSON. -/
def toJsonEntries : List (Text × PatchValue) → List (Text × Json)
  | [] => []
  | (key, value) :: others => (key, value.toJson) :: toJsonEntries others

end

end PatchValue

/-- Values to write, under their keys, in order. -/
structure Patch where
  entries : Entries PatchValue
deriving Repr

namespace Patch

/-- The patch without values. -/
def empty : Patch := ⟨[]⟩

/-- The patch with a value under a top-level key. -/
def insert (patch : Patch) (key : Text) (value : PatchValue) : Patch :=
  ⟨patch.entries.insert key value⟩

/-- Entries with a value below the keys of `parents`.  Objects are made where
there are none, also in the place of other values. -/
def insertBelow (leaf : Text) (value : PatchValue) :
    (parents : PropertyPath) → Entries PatchValue → Entries PatchValue
  | [], entries => entries.insert leaf value
  | parent :: parents, entries =>
      let inner := ((entries.get? parent).bind PatchValue.entries?).getD []
      entries.insert parent (.object (insertBelow leaf value parents inner))

/-- The patch with a value at a path, which must not be the root. -/
def insertAt (patch : Patch) (path : PropertyPath)
    (value : PatchValue) : Patch :=
  match path.getLast? with
  | some leaf => ⟨insertBelow leaf value path.dropLast patch.entries⟩
  | none => patch

/-- The patch with a value at the path that a text names. -/
def insertDotted (patch : Patch) (dotted : Text) (value : PatchValue) :
    Except EditError Patch :=
  (PropertyPath.parse dotted).map fun path => patch.insertAt path value

/-- The patch that a JSON object spells. -/
def ofJson (json : Json) : Except EditError Patch :=
  match PatchValue.ofJson .root json with
  | .error error => .error error
  | .ok (.object entries) => .ok ⟨entries⟩
  | .ok value => .error (.unsupported .root (.patchNotAnObject value.kindName))

/-- The patch as a value. -/
def toValue (patch : Patch) : PatchValue := .object patch.entries

end Patch

end ConfigEdit
