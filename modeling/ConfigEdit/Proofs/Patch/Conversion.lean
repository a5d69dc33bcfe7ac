import ConfigEdit.Patch.Value
import ConfigEdit.Proofs.Outcome

/-!
# Patch values in JSON

A JSON value spells a value of a patch unless it holds null, an array, or an
object with the key `$call` that is not the marker of a call.  The value is then
spelled by that JSON value alone.  A value is read back from its JSON unless one
of its objects has the key `$call`, which would be taken for a marker.
-/

namespace ConfigEdit

namespace Json

/-- A value contains itself and what its items and entries contain. -/
inductive Contains : Json → Json → Prop where
  | self (json : Json) : Contains json json
  | item {items : List Json} {inner node : Json} :
      inner ∈ items → Contains inner node → Contains (.array items) node
  | entry {entries : List (Text × Json)} {key : Text} {inner node : Json} :
      (key, inner) ∈ entries → Contains inner node →
      Contains (.object entries) node

/-- A value holds another one below the keys of a path. -/
inductive HoldsAt : Json → PropertyPath → Json → Prop where
  | self (json : Json) : HoldsAt json [] json
  | entry {entries : List (Text × Json)} {key : Text} {inner node : Json}
      {path : PropertyPath} :
      (key, inner) ∈ entries → HoldsAt inner path node →
      HoldsAt (.object entries) (key :: path) node

/-- Values that no patch can hold, and why: null, arrays, and objects with the
key `$call` that have another entry or hold no text there. -/
inductive Refused : Json → UnsupportedValue → Prop where
  | null : Refused .null .null
  | array (items : List Json) : Refused (.array items) .array
  | markerWithoutText {marker : Json} :
      (∀ text, marker ≠ .string text) →
      Refused (.object [(callKey, marker)]) .markerWithoutText
  | markerWithOtherKeys {entries : List (Text × Json)} :
      callKey ∈ Entries.names entries → entries.length ≠ 1 →
      Refused (.object entries) .markerWithOtherKeys

theorem HoldsAt.contains {json node : Json} {path : PropertyPath}
    (holds : json.HoldsAt path node) : json.Contains node := by
  induction holds with
  | self json => exact .self json
  | entry inside _ induction => exact .entry inside induction

end Json

namespace PatchValue

/-- A value contains itself and what its entries contain. -/
inductive Contains : PatchValue → PatchValue → Prop where
  | self (value : PatchValue) : Contains value value
  | entry {entries : List (Text × PatchValue)} {key : Text}
      {inner node : PatchValue} :
      (key, inner) ∈ entries → Contains inner node →
      Contains (.object entries) node

/-- No object inside the value has the key `$call`. -/
def Unmarked (value : PatchValue) : Prop :=
  ∀ entries, value.Contains (.object entries) → callKey ∉ Entries.names entries

section Steps

variable {path : PropertyPath} {entries : List (Text × Json)}

theorem ofJsonEntries_cons_eq_ok
    {key : Text} {json : Json} {values : Entries PatchValue}
    (found : ofJsonEntries path ((key, json) :: entries) = .ok values) :
    ∃ value further, ofJson (path.child key) json = .ok value ∧
      ofJsonEntries path entries = .ok further ∧
      values = (key, value) :: further := by
  rw [ofJsonEntries] at found
  split at found
  · contradiction
  · next value first =>
      split at found
      · contradiction
      · next further rest =>
          cases found
          exact ⟨value, further, first, rest, rfl⟩

theorem ofJsonEntries_cons_eq_error
    {key : Text} {json : Json} {error : EditError}
    (failed : ofJsonEntries path ((key, json) :: entries) = .error error) :
    ofJson (path.child key) json = .error error ∨
    ofJsonEntries path entries = .error error := by
  rw [ofJsonEntries] at failed
  split at failed
  · next first =>
      cases failed
      exact .inl first
  · split at failed
    · next rest =>
        cases failed
        exact .inr rest
    · contradiction

theorem ofJson_object (unmarked : callKey ∉ Entries.names entries) :
    ofJson path (.object entries) =
      (ofJsonEntries path entries).map .object := by
  have absent : Entries.get? entries callKey = none :=
    Entries.get?_eq_none_iff.2 unmarked
  rw [ofJson, absent]
  cases ofJsonEntries path entries with
  | error error => rfl
  | ok values => rfl

/-- An object with the key `$call` is the marker of a call or no value of a
patch. -/
theorem ofJson_marked
    (path : PropertyPath) (marked : callKey ∈ Entries.names entries) :
    (∃ text, entries = [(callKey, .string text)] ∧
      ofJson path (.object entries) = .ok (.call text)) ∨
    ∃ reason, Json.Refused (.object entries) reason := by
  match entries with
  | [] => contradiction
  | [(key, marker)] =>
      have same : callKey = key := by simpa [Entries.names] using marked
      subst same
      cases marker with
      | string text =>
          refine .inl ⟨text, rfl, ?_⟩
          rw [ofJson, Entries.get?, if_pos rfl]
      | null | boolean _ | number _ | array _ | object _ =>
          refine .inr ⟨_, .markerWithoutText ?_⟩
          intro text same
          contradiction
  | first :: second :: others =>
      refine .inr ⟨_, .markerWithOtherKeys marked ?_⟩
      simp

theorem ofJson_of_refused {json : Json} {reason : UnsupportedValue}
    (refused : json.Refused reason) :
    ofJson path json = .error (.unsupported path reason) := by
  cases refused with
  | null => rw [ofJson]
  | array items => rw [ofJson]
  | @markerWithoutText marker noText =>
      rw [ofJson, Entries.get?, if_pos rfl]
      cases marker with
      | string text => exact absurd rfl (noText text)
      | null | boolean _ | number _ | array _ | object _ => rfl
  | @markerWithOtherKeys entries marked more =>
      obtain ⟨marker, found⟩ :
          ∃ marker, Entries.get? entries callKey = some marker := by
        apply Option.ne_none_iff_exists'.1
        intro absent
        exact Entries.get?_eq_none_iff.1 absent marked
      rw [ofJson, found]
      cases entries with
      | nil => contradiction
      | cons first others =>
          cases others with
          | nil => exact absurd rfl more
          | cons second others => rfl

/-- An object that is read is the marker of a call or is read entry by entry. -/
theorem ofJson_object_eq_ok {value : PatchValue}
    (found : ofJson path (.object entries) = .ok value) :
    (∃ text, entries = [(callKey, .string text)] ∧ value = .call text) ∨
      callKey ∉ Entries.names entries ∧
        ∃ values, ofJsonEntries path entries = .ok values ∧
          value = .object values := by
  by_cases marked : callKey ∈ Entries.names entries
  · rcases ofJson_marked path marked with
      ⟨text, shape, read⟩ | ⟨reason, refused⟩
    · rw [read] at found
      cases found
      exact .inl ⟨text, shape, rfl⟩
    · rw [ofJson_of_refused refused] at found
      contradiction
  · rw [ofJson_object marked] at found
    obtain ⟨values, reading, rfl⟩ := map_eq_ok.1 found
    exact .inr ⟨marked, values, reading, rfl⟩

end Steps

section Reading

variable {path : PropertyPath} {json : Json} {entries : List (Text × Json)}

theorem exists_ofJson_of_mem_entries {values : Entries PatchValue} {key : Text}
    {inner : Json} (found : ofJsonEntries path entries = .ok values)
    (inside : (key, inner) ∈ entries) :
    ∃ read, ofJson (path.child key) inner = .ok read := by
  induction entries generalizing values with
  | nil => contradiction
  | cons entry others induction =>
      obtain ⟨name, json⟩ := entry
      obtain ⟨value, further, first, rest, -⟩ := ofJsonEntries_cons_eq_ok found
      rcases List.mem_cons.1 inside with same | inside
      · cases same
        exact ⟨value, first⟩
      · exact induction rest inside

/-- What an object is read as is put together from what its entries are read
as. -/
theorem exists_ofJson_of_mem {value : PatchValue} {key : Text} {inner : Json}
    (found : ofJson path (.object entries) = .ok value)
    (inside : (key, inner) ∈ entries) :
    ∃ below read, ofJson below inner = .ok read := by
  rcases ofJson_object_eq_ok found with ⟨text, rfl, -⟩ | ⟨-, values, reading, -⟩
  · rw [List.mem_singleton] at inside
    cases inside
    exact ⟨path, .string text, rfl⟩
  · obtain ⟨read, same⟩ := exists_ofJson_of_mem_entries reading inside
    exact ⟨_, read, same⟩

/-- Nothing that is refused is inside a value that is read. -/
theorem not_refused_of_ofJson
    {value : PatchValue} {node : Json} {reason : UnsupportedValue}
    (found : ofJson path json = .ok value) (inside : json.Contains node) :
    ¬ node.Refused reason := by
  induction inside generalizing path value with
  | self json =>
      intro refused
      rw [ofJson_of_refused refused] at found
      contradiction
  | item _ _ _ =>
      rw [ofJson] at found
      contradiction
  | entry member _ induction =>
      obtain ⟨below, read, reading⟩ := exists_ofJson_of_mem found member
      exact induction reading

mutual

theorem toJson_of_ofJson
    {path : PropertyPath} {json : Json} {value : PatchValue}
    (found : ofJson path json = .ok value) : value.toJson = json := by
  match json with
  | .null | .array items =>
      rw [ofJson] at found
      contradiction
  | .number _ | .string _ | .boolean _ =>
      rw [ofJson] at found
      cases found
      rfl
  | .object entries =>
      rcases ofJson_object_eq_ok found with
        ⟨text, rfl, rfl⟩ | ⟨-, values, reading, rfl⟩
      · rfl
      · have same := toJsonEntries_of_ofJsonEntries reading
        rw [toJson, same]

theorem toJsonEntries_of_ofJsonEntries {path : PropertyPath}
    {entries : List (Text × Json)} {values : Entries PatchValue}
    (found : ofJsonEntries path entries = .ok values) :
    toJsonEntries values = entries := by
  match entries with
  | [] =>
      cases found
      rfl
  | (key, json) :: others =>
      obtain ⟨value, further, first, rest, rfl⟩ :=
        ofJsonEntries_cons_eq_ok found
      have same := toJson_of_ofJson first
      have others' := toJsonEntries_of_ofJsonEntries rest
      rw [toJsonEntries, same, others']

end

mutual

/-- An error is at the path of something that is refused. -/
theorem exists_refused_of_ofJson {path : PropertyPath} {json : Json}
    {error : EditError} (failed : ofJson path json = .error error) :
    ∃ below node reason, json.HoldsAt below node ∧ node.Refused reason ∧
      error = .unsupported (path ++ below) reason := by
  match json with
  | .number _ | .string _ | .boolean _ =>
      rw [ofJson] at failed
      contradiction
  | .null =>
      rw [ofJson_of_refused .null] at failed
      cases failed
      exact ⟨[], _, _, .self _, .null, by rw [List.append_nil]⟩
  | .array items =>
      rw [ofJson_of_refused (.array items)] at failed
      cases failed
      exact ⟨[], _, _, .self _, .array items, by rw [List.append_nil]⟩
  | .object entries =>
      by_cases marked : callKey ∈ Entries.names entries
      · rcases ofJson_marked path marked with
          ⟨text, -, read⟩ | ⟨reason, refused⟩
        · rw [read] at failed
          contradiction
        · rw [ofJson_of_refused refused] at failed
          cases failed
          exact ⟨[], _, _, .self _, refused, by rw [List.append_nil]⟩
      · rw [ofJson_object marked] at failed
        cases reading : ofJsonEntries path entries with
        | error error =>
            rw [reading] at failed
            cases failed
            obtain ⟨key, inner, below, node, reason, inside, holds, refused,
                same⟩ :=
              exists_refused_of_ofJsonEntries reading
            exact ⟨key :: below, node, reason, .entry inside holds,
              refused, same⟩
        | ok values =>
            rw [reading] at failed
            contradiction

theorem exists_refused_of_ofJsonEntries
    {path : PropertyPath} {entries : List (Text × Json)}
    {error : EditError} (failed : ofJsonEntries path entries = .error error) :
    ∃ key inner below node reason,
      (key, inner) ∈ entries ∧ inner.HoldsAt below node ∧
      node.Refused reason ∧
      error = .unsupported (path ++ key :: below) reason := by
  match entries with
  | [] => contradiction
  | (key, json) :: others =>
      rcases ofJsonEntries_cons_eq_error failed with first | rest
      · obtain ⟨below, node, reason, holds, refused, rfl⟩ :=
          exists_refused_of_ofJson first
        refine ⟨key, json, below, node, reason, List.mem_cons_self, holds,
          refused, ?_⟩
        rw [PropertyPath.child, List.append_assoc, List.singleton_append]
      · obtain ⟨other, inner, below, node, reason, inside, holds, refused,
            same⟩ :=
          exists_refused_of_ofJsonEntries rest
        exact ⟨other, inner, below, node, reason, List.mem_cons_of_mem _ inside,
          holds, refused, same⟩

end

end Reading

section Writing

variable {path : PropertyPath}

theorem names_toJsonEntries (entries : Entries PatchValue) :
    Entries.names (toJsonEntries entries) = entries.names := by
  induction entries with
  | nil => rfl
  | cons entry others induction =>
      obtain ⟨key, value⟩ := entry
      simpa [toJsonEntries, Entries.names] using induction

theorem Unmarked.entry {entries : Entries PatchValue}
    (unmarked : (PatchValue.object entries).Unmarked) {key : Text}
    {value : PatchValue}
    (inside : (key, value) ∈ entries) : value.Unmarked := by
  intro nested contains
  exact unmarked nested (.entry inside contains)

mutual

theorem ofJson_toJson
    {value : PatchValue} (unmarked : value.Unmarked) (path : PropertyPath) :
    ofJson path value.toJson = .ok value := by
  match value with
  | .number _ | .string _ | .boolean _ | .call _ => rfl
  | .object entries =>
      have absent : callKey ∉ Entries.names (toJsonEntries entries) := by
        rw [names_toJsonEntries]
        exact unmarked entries (.self _)
      have read := ofJsonEntries_toJsonEntries
        (fun entry inside => unmarked.entry inside) path
      rw [toJson, ofJson_object absent, read]
      rfl

theorem ofJsonEntries_toJsonEntries {entries : Entries PatchValue}
    (unmarked : ∀ entry ∈ entries, entry.2.Unmarked) (path : PropertyPath) :
    ofJsonEntries path (toJsonEntries entries) = .ok entries := by
  match entries with
  | [] => rfl
  | (key, value) :: others =>
      have first :=
        ofJson_toJson (unmarked _ List.mem_cons_self) (path.child key)
      have rest := ofJsonEntries_toJsonEntries
        (fun entry inside =>
          unmarked entry (List.mem_cons_of_mem _ inside)) path
      rw [toJsonEntries, ofJsonEntries, first]
      simp only [rest]

end

theorem ofJson_toJson_of_mem
    {entries : Entries PatchValue} {key : Text} {value : PatchValue}
    (found : ofJsonEntries path (toJsonEntries entries) = .ok entries)
    (inside : (key, value) ∈ entries) :
    ofJson (path.child key) value.toJson = .ok value := by
  induction entries with
  | nil => contradiction
  | cons entry others induction =>
      obtain ⟨name, first⟩ := entry
      rw [toJsonEntries] at found
      obtain ⟨read, further, same, rest, shape⟩ :=
        ofJsonEntries_cons_eq_ok found
      cases shape
      rcases List.mem_cons.1 inside with equal | inside
      · cases equal
        exact same
      · exact induction rest inside

/-- An object that is read back from its JSON does not have the key `$call`, and
its values are read back. -/
theorem of_ofJson_toJson_object {entries : Entries PatchValue}
    (found : ofJson path (PatchValue.object entries).toJson =
      .ok (.object entries)) :
    callKey ∉ entries.names ∧
    ofJsonEntries path (toJsonEntries entries) = .ok entries := by
  rw [toJson] at found
  rcases ofJson_object_eq_ok found with
    ⟨text, -, same⟩ | ⟨unmarked, values, reading, same⟩
  · contradiction
  · cases same
    rw [names_toJsonEntries] at unmarked
    exact ⟨unmarked, reading⟩

theorem unmarked_of_ofJson_toJson {value : PatchValue}
    (found : ofJson path value.toJson = .ok value) : value.Unmarked := by
  intro nested contains
  generalize shape : PatchValue.object nested = node at contains
  induction contains generalizing path with
  | self value =>
      subst shape
      exact (of_ofJson_toJson_object found).1
  | entry inside _ induction =>
      exact induction (ofJson_toJson_of_mem (of_ofJson_toJson_object found).2
        inside) shape

end Writing

/-- A JSON value is read as a value of a patch exactly if nothing inside it is
refused; it is then the JSON of that value, and otherwise the error is at the
path of something that is refused.  A value is read back from its JSON exactly
if no object inside it has the key `$call`. -/
theorem ofJson_lossless (path : PropertyPath) :
    (∀ json : Json,
      ((∃ value, ofJson path json = .ok value) ↔
        ∀ node, json.Contains node → ∀ reason, ¬ node.Refused reason) ∧
      (∀ value, ofJson path json = .ok value → value.toJson = json) ∧
      ∀ error, ofJson path json = .error error →
        ∃ below node reason, json.HoldsAt below node ∧ node.Refused reason ∧
          error = .unsupported (path ++ below) reason) ∧
    ∀ value : PatchValue, ofJson path value.toJson = .ok value ↔
      ∀ entries,
        value.Contains (.object entries) → callKey ∉ Entries.names entries := by
  constructor
  · intro json
    refine ⟨?_, fun value => toJson_of_ofJson,
      fun error => exists_refused_of_ofJson⟩
    constructor
    · intro ⟨value, found⟩ node inside reason
      exact not_refused_of_ofJson found inside
    · intro accepted
      cases read : ofJson path json with
      | ok value => exact ⟨value, rfl⟩
      | error error =>
          obtain ⟨below, node, reason, holds, refused, -⟩ :=
            exists_refused_of_ofJson read
          exact absurd refused (accepted node holds.contains reason)
  · intro value
    constructor
    · exact unmarked_of_ofJson_toJson
    · intro unmarked
      exact ofJson_toJson unmarked path

end PatchValue

namespace Patch

theorem ofJson_eq_ok {json : Json} {patch : Patch} :
    ofJson json = .ok patch ↔
      PatchValue.ofJson .root json = .ok patch.toValue := by
  obtain ⟨entries⟩ := patch
  rw [ofJson, toValue]
  cases PatchValue.ofJson .root json with
  | error error => simp
  | ok value => cases value <;> simp

/-- A patch is read back from its JSON exactly if none of its objects has the
key `$call`. -/
theorem ofJson_toJson_iff (patch : Patch) :
    ofJson patch.toValue.toJson = .ok patch ↔ patch.toValue.Unmarked := by
  rw [ofJson_eq_ok]
  constructor
  · exact PatchValue.unmarked_of_ofJson_toJson
  · intro unmarked
    exact PatchValue.ofJson_toJson unmarked .root

end Patch

end ConfigEdit
