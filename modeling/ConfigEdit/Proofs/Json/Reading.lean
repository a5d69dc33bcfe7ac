import ConfigEdit.Patch.Assignment
import ConfigEdit.Proofs.Json.Layers
import ConfigEdit.Proofs.Text.Entries

/-!
# Objects that are read have distinct keys

The entries of an object are set one after the other, so a key that comes twice
in the text is one key of the value (`Json.distinct_of_ofText?`).
-/

namespace ConfigEdit.Json

theorem distinct_of_readEntries? {read : Text → Option (Json × Text)}
    (reads : ∀ text value rest, read text = some (value, rest) → value.Distinct)
    {limit : Nat} {text rest : Text} {entries : List (Text × Json)}
    (found : readEntries? read limit text = some (entries, rest)) :
    ∀ entry ∈ entries, entry.2.Distinct := by
  induction limit generalizing text entries rest with
  | zero => contradiction
  | succ limit induction =>
      rw [readEntries?] at found
      split at found
      · obtain ⟨⟨key, behindKey⟩, -, found⟩ := Option.bind_eq_some_iff.1 found
        dsimp only at found
        split at found
        · obtain ⟨⟨value, behindValue⟩, readsValue, found⟩ :=
            Option.bind_eq_some_iff.1 found
          have first : value.Distinct := reads _ _ _ readsValue
          dsimp only at found
          split at found
          · obtain ⟨⟨others, behind⟩, further, same⟩ :=
              Option.bind_eq_some_iff.1 found
            cases same
            exact List.forall_mem_cons.2 ⟨first, induction further⟩
          · cases found
            exact List.forall_mem_singleton.2 first
          · contradiction
        · contradiction
      · contradiction

private theorem distinct_of_map {kind : Type} {found : Option kind}
    {spell : kind → Json × Text} {value : Json} {rest : Text}
    (spelled : ∀ item, (spell item).1.Distinct)
    (read : found.map spell = some (value, rest)) : value.Distinct := by
  obtain ⟨item, -, same⟩ := Option.map_eq_some_iff.1 read
  have distinct := spelled item
  rwa [same] at distinct

theorem distinct_of_readValue? {depth : Nat} {text rest : Text} {value : Json}
    (read : readValue? depth text = some (value, rest)) : value.Distinct := by
  rw [readValue?.eq_def] at read
  dsimp only at read
  split at read
  · contradiction
  · exact distinct_of_map (fun _ => .leaf rfl) read
  · exact distinct_of_map (fun _ => .leaf rfl) read
  · exact distinct_of_map (fun _ => .leaf rfl) read
  · exact distinct_of_map (fun _ => .leaf rfl) read
  · split at read
    · contradiction
    · split at read
      · cases read
        exact .leaf rfl
      · exact distinct_of_map (fun _ => .leaf rfl) read
  · split at read
    · contradiction
    · next inner =>
        split at read
        · cases read
          exact .object List.nodup_nil nofun
        · obtain ⟨⟨entries, behind⟩, found, same⟩ :=
            Option.map_eq_some_iff.1 read
          cases same
          have reads (text : Text) (value : Json) (rest : Text)
              (read : readValue? inner text = some (value, rest)) :
              value.Distinct :=
            distinct_of_readValue? read
          have below := distinct_of_readEntries? reads found
          refine .object (Entries.nodup_names_ofList entries)
            fun entry inside => ?_
          obtain ⟨item, member, same⟩ := Entries.exists_of_mem_ofList inside
          exact same ▸ below item member
  · split at read
    · exact distinct_of_map (fun _ => .leaf rfl) read
    · contradiction
termination_by depth

/-- What a text spells has distinct keys in all its objects. -/
theorem distinct_of_ofText? {text : Text} {value : Json}
    (found : ofText? text = some value) :
    value.Distinct := by
  rw [ofText?] at found
  split at found
  · next read =>
      split at found
      · cases found
        exact distinct_of_readValue? read
      · contradiction
  · contradiction

theorem distinct_ofAssigned (text : Text) : (ofAssigned text).Distinct := by
  rw [ofAssigned]
  cases found : ofText? text with
  | none => exact .leaf rfl
  | some value => exact distinct_of_ofText? found

end ConfigEdit.Json
