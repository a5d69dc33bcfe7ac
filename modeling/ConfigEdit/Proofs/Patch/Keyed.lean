import ConfigEdit.Patch.Value
import ConfigEdit.Proofs.Text.Entries

/-!
# Values in which no name comes twice

A patch is made by setting one name after the other, so no name comes twice in
it or in an object in it.  `KeyedValue` and `KeyedPatch` carry this with the
value, and insertions lead from one keyed patch to the next
(`KeyedPatch.insertAt`).
-/

namespace ConfigEdit

mutual

/-- In each object of the value the names are distinct. -/
def PatchValue.Distinct : PatchValue → Prop
  | .object entries =>
      (Entries.names entries).Nodup ∧ PatchValue.AllDistinct entries
  | .number _ | .string _ | .boolean _ | .call _ => True

/-- In each object of the values the names are distinct. -/
def PatchValue.AllDistinct : List (Text × PatchValue) → Prop
  | [] => True
  | (_, value) :: others => value.Distinct ∧ PatchValue.AllDistinct others

end

mutual

/-- Whether the names in each object of a value are distinct. -/
def PatchValue.decideDistinct : (value : PatchValue) → Decidable value.Distinct
  | .object entries =>
      @instDecidableAnd _ _
        (inferInstanceAs (Decidable (Entries.names entries).Nodup))
        (PatchValue.decideAllDistinct entries)
  | .number _ | .string _ | .boolean _ | .call _ => .isTrue trivial

/-- Whether the names in each object of the values are distinct. -/
def PatchValue.decideAllDistinct :
    (entries : List (Text × PatchValue)) →
    Decidable (PatchValue.AllDistinct entries)
  | [] => .isTrue trivial
  | (_, value) :: others =>
      @instDecidableAnd _ _ value.decideDistinct
        (PatchValue.decideAllDistinct others)

end

instance (value : PatchValue) : Decidable value.Distinct := value.decideDistinct

namespace PatchValue

theorem allDistinct_iff {entries : Entries PatchValue} :
    AllDistinct entries ↔ ∀ entry ∈ entries, entry.2.Distinct := by
  induction entries with
  | nil => simp [AllDistinct]
  | cons entry others induction => simp [AllDistinct, induction]

theorem distinct_object_iff {entries : Entries PatchValue} :
    (object entries).Distinct ↔
      entries.names.Nodup ∧ ∀ entry ∈ entries, entry.2.Distinct := by
  rw [Distinct, allDistinct_iff]

theorem Distinct.of_get? {entries : Entries PatchValue} {name : Text}
    {value : PatchValue} (distinct : (object entries).Distinct)
    (found : entries.get? name = some value) :
    value.Distinct :=
  (distinct_object_iff.1 distinct).2 _ (Entries.mem_of_get? found)

theorem Distinct.tail {entry : Text × PatchValue} {others : Entries PatchValue}
    (distinct : (object (entry :: others)).Distinct) :
    (object others).Distinct :=
  ⟨(List.nodup_cons.1 distinct.1).2, distinct.2.2⟩

theorem Distinct.filter {entries : Entries PatchValue}
    (distinct : (object entries).Distinct) (keep : Text × PatchValue → Bool) :
    (object (entries.filter keep)).Distinct := by
  refine distinct_object_iff.2
    ⟨distinct.1.sublist (List.filter_sublist.map _), ?_⟩
  intro entry inside
  exact (distinct_object_iff.1 distinct).2 entry (List.mem_filter.1 inside).1

theorem Distinct.insert {entries : Entries PatchValue} {value : PatchValue}
    (distinct : (object entries).Distinct) (new : value.Distinct)
    (name : Text) :
    (object (entries.insert name value)).Distinct := by
  refine distinct_object_iff.2
    ⟨Entries.nodup_names_insert distinct.1 name value, ?_⟩
  intro entry inside
  rcases Entries.mem_insert inside with same | old
  · exact same ▸ new
  · exact (distinct_object_iff.1 distinct).2 entry old

theorem Distinct.insertBelow
    {leaf : Text} {value : PatchValue} (new : value.Distinct)
    {parents : PropertyPath} {entries : Entries PatchValue}
    (distinct : (object entries).Distinct) :
    (object (Patch.insertBelow leaf value parents entries)).Distinct := by
  induction parents generalizing entries with
  | nil => exact distinct.insert new leaf
  | cons parent parents induction =>
      refine distinct.insert (induction ?_) parent
      cases found : entries.get? parent with
      | none => exact ⟨List.nodup_nil, trivial⟩
      | some inner =>
          cases inner with
          | object nested => exact distinct.of_get? found
          | number _ | string _ | boolean _ | call _ =>
              exact ⟨List.nodup_nil, trivial⟩

end PatchValue

/-- A value in which no name comes twice. -/
structure KeyedValue where
  tree : PatchValue
  distinct : tree.Distinct

/-- A patch in which no name comes twice. -/
structure KeyedPatch extends Patch where
  distinct : toPatch.toValue.Distinct

namespace KeyedPatch

instance : Coe KeyedPatch Patch := ⟨toPatch⟩

/-- The patch as a value. -/
def toKeyedValue (patch : KeyedPatch) : KeyedValue :=
  ⟨patch.toValue, patch.distinct⟩

/-- The patch of the entries of an object. -/
def ofObject {entries : Entries PatchValue}
    (distinct : (PatchValue.object entries).Distinct) :
    KeyedPatch :=
  ⟨⟨entries⟩, distinct⟩

@[simp] theorem entries_ofObject {entries : Entries PatchValue}
    (distinct : (PatchValue.object entries).Distinct) :
    (ofObject distinct).entries = entries :=
  rfl

/-- The patch without values. -/
def empty : KeyedPatch := ⟨.empty, List.nodup_nil, trivial⟩

/-- The patch with a value at a path. -/
def insertAt (patch : KeyedPatch) (path : PropertyPath) (value : KeyedValue) :
    KeyedPatch where
  toPatch := patch.toPatch.insertAt path value.tree
  distinct := by
    rw [Patch.insertAt]
    split
    · exact value.distinct.insertBelow patch.distinct
    · exact patch.distinct

theorem get?_eq_some_of_mem (patch : KeyedPatch) {name : Text}
    {value : PatchValue} (inside : (name, value) ∈ patch.entries) :
    patch.entries.get? name = some value :=
  Entries.get?_of_mem patch.distinct.1 inside

end KeyedPatch

end ConfigEdit
