import ConfigEdit.Patch.Source
import ConfigEdit.Proofs.Json.Reading
import ConfigEdit.Proofs.Patch.Conversion
import ConfigEdit.Proofs.Patch.Keyed
import ConfigEdit.Proofs.Toml.Tables

/-!
# Assembled patches are keyed

What a patch file spells has distinct keys in its objects, and an assignment
sets one key after the other.  So each patch that is put together is a
`KeyedPatch` (`PatchSource.isKeyed_of_assemble`), and what is proved of these
holds of every run.
-/

namespace ConfigEdit

namespace PatchValue

mutual

theorem distinct_of_toJson :
    (value : PatchValue) → value.toJson.Distinct → value.Distinct
  | .object entries, distinct => by
      have names : (Entries.names (toJsonEntries entries)).Nodup :=
        distinct.names
      refine ⟨names_toJsonEntries entries ▸ names, ?_⟩
      exact allDistinct_of_toJsonEntries entries fun entry inside =>
        distinct.below (Entries.get?_of_mem names inside)
  | .number _, _ | .string _, _ | .boolean _, _ | .call _, _ => trivial

theorem allDistinct_of_toJsonEntries :
    (entries : List (Text × PatchValue)) →
      (∀ entry ∈ toJsonEntries entries, entry.2.Distinct) → AllDistinct entries
  | [], _ => trivial
  | (_, value) :: others, distinct => by
      obtain ⟨first, further⟩ := List.forall_mem_cons.1 distinct
      exact ⟨distinct_of_toJson value first,
        allDistinct_of_toJsonEntries others further⟩

end

theorem distinct_of_ofJson {path : PropertyPath} {json : Json}
    {value : PatchValue} (distinct : json.Distinct)
    (found : ofJson path json = .ok value) : value.Distinct :=
  distinct_of_toJson value (toJson_of_ofJson found ▸ distinct)

end PatchValue

theorem PatchFormat.distinct_of_read? {format : PatchFormat} {text : Text}
    {json : Json} (read : format.read? text = some json) : json.Distinct := by
  cases format with
  | json => exact Json.distinct_of_ofText? read
  | toml => exact Toml.distinct_of_toJson? read

theorem distinct_of_readPatchFile {disk : Disk} {path : Text} {json : Json}
    (found : readPatchFile disk path = .ok json) : json.Distinct := by
  rw [readPatchFile] at found
  split at found
  · contradiction
  · dsimp only at found
    split at found
    · next read =>
        cases found
        exact PatchFormat.distinct_of_read? read
    · contradiction

/-- No name comes twice in the patch. -/
def Patch.IsKeyed (patch : Patch) : Prop :=
  ∃ keyed : KeyedPatch, keyed.toPatch = patch

namespace KeyedPatch

variable {patch : KeyedPatch} {after : Patch} {assignment : Assignment}

theorem isKeyed_of_assign
    (assigned : patch.toPatch.assign assignment = .ok after) :
    after.IsKeyed := by
  obtain ⟨path, -, assigned⟩ := bind_eq_ok.1 assigned
  obtain ⟨value, spelled, same⟩ := bind_eq_ok.1 assigned
  cases same
  have distinct :=
    PatchValue.distinct_of_ofJson (Json.distinct_ofAssigned _) spelled
  exact ⟨patch.insertAt path ⟨value, distinct⟩, rfl⟩

theorem isKeyed_of_assignCall
    (assigned : patch.toPatch.assignCall assignment = .ok after) :
    after.IsKeyed := by
  obtain ⟨path, -, same⟩ := map_eq_ok.1 assigned
  exact ⟨patch.insertAt path ⟨.call assignment.value.trim, trivial⟩, same⟩

end KeyedPatch

namespace PatchSource

variable {source : PatchSource} {disk : Disk} {patch : Patch}

theorem isKeyed_of_base (found : source.base disk = .ok patch) :
    patch.IsKeyed := by
  rw [base] at found
  split at found
  · cases found
    exact ⟨.empty, rfl⟩
  · obtain ⟨json, read, spelled⟩ := bind_eq_ok.1 found
    have spelled := Patch.ofJson_eq_ok.1 (mapError_eq_ok.1 spelled)
    exact ⟨⟨patch, PatchValue.distinct_of_ofJson
      (distinct_of_readPatchFile read) spelled⟩, rfl⟩

/-- In a patch that is put together no name comes twice. -/
theorem isKeyed_of_assemble (assembled : source.assemble disk = .ok patch) :
    patch.IsKeyed := by
  obtain ⟨start, found, assembled⟩ := bind_eq_ok.1 assembled
  obtain ⟨withValues, set, called⟩ := bind_eq_ok.1 assembled
  have withValues : withValues.IsKeyed := by
    refine holds_of_foldlM Patch.IsKeyed ?_ (isKeyed_of_base found) set
    rintro _ text next ⟨keyed, rfl⟩ changed
    obtain ⟨assignment, -, changed⟩ := bind_eq_ok.1 changed
    exact KeyedPatch.isKeyed_of_assign (mapError_eq_ok.1 changed)
  refine holds_of_foldlM Patch.IsKeyed ?_ withValues called
  rintro _ text next ⟨keyed, rfl⟩ changed
  obtain ⟨assignment, -, changed⟩ := bind_eq_ok.1 changed
  exact KeyedPatch.isKeyed_of_assignCall (mapError_eq_ok.1 changed)

end PatchSource

end ConfigEdit
