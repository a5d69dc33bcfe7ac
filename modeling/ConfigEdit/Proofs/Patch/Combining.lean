import ConfigEdit.Proofs.Document.Values

/-!
# Laying patches over patches

`combineEntries` lays later entries over earlier ones: names keep their places
and new ones come behind, objects are combined, and of other values the later
one counts.
-/

namespace ConfigEdit

namespace Entries

variable {kind : Type}

/-- The entries whose names are not among the given ones. -/
def newTo (entries : Entries kind) (names : List Text) : Entries kind :=
  entries.filter fun entry => !names.contains entry.1

theorem mem_newTo
    {entries : Entries kind} {names : List Text} {entry : Text × kind} :
    entry ∈ entries.newTo names ↔ entry ∈ entries ∧ entry.1 ∉ names := by
  simp [newTo]

theorem get?_newTo (entries : Entries kind) {names : List Text} {name : Text}
    (new : name ∉ names) :
    (entries.newTo names).get? name = entries.get? name := by
  induction entries with
  | nil => rfl
  | cons entry others induction =>
      obtain ⟨key, value⟩ := entry
      by_cases same : key = name
      · subst same
        simp [newTo, get?, new]
      · by_cases old : key ∈ names
        · simpa [newTo, get?, old, same] using induction
        · simpa [newTo, get?, old, same] using induction

theorem newTo_newTo (entries : Entries kind) (names others : List Text) :
    (entries.newTo names).newTo others = entries.newTo (others ++ names) := by
  rw [newTo, newTo, newTo, List.filter_filter]
  apply List.filter_congr
  intro entry _
  simp

end Entries

/-- The values whose names are not among the given ones. -/
def KeyedPatch.newTo (patch : KeyedPatch) (names : List Text) : KeyedPatch :=
  .ofObject (patch.distinct.filter fun entry => !names.contains entry.1)

@[simp] theorem KeyedPatch.entries_newTo
    (patch : KeyedPatch) (names : List Text) :
    (patch.newTo names).entries = patch.entries.newTo names := rfl

namespace PatchValue

mutual

/-- A value with a later one laid over it: objects are combined, and of other
values the later one counts. -/
def combine : PatchValue → PatchValue → PatchValue
  | .object entries, later =>
      match later.entries? with
      | some others =>
          .object (combineKnown entries others ++
            Entries.newTo others (Entries.names entries))
      | none => later
  | .number _, later | .string _, later | .boolean _, later | .call _,
      later => later

/-- Entries with the later values under their names laid over them. -/
def combineKnown :
    List (Text × PatchValue) → Entries PatchValue → List (Text × PatchValue)
  | [], _ => []
  | (key, value) :: others, later =>
      (key, (later.get? key).elim value fun new => combine value new) ::
        combineKnown others later

end

/-- Entries with later ones laid over them; those with new names come behind. -/
def combineEntries (entries later : Entries PatchValue) : Entries PatchValue :=
  combineKnown entries later ++ later.newTo entries.names

/-- Where the later value holds an object, the value holds nothing or an
object. -/
def KeepsObjects (value later : PatchValue) : Prop :=
  ∀ path old nested,
    value.at? path = some old → later.at? path = some (.object nested) →
    ∃ entries, old = .object entries

section Combining

variable {value later : PatchValue}

theorem combine_of_leaf
    (value : PatchValue) (leaf : ∀ nested, later ≠ .object nested) :
    value.combine later = later := by
  cases value with
  | object entries =>
      rw [combine]
      cases later with
      | object nested => exact absurd rfl (leaf nested)
      | number _ | string _ | boolean _ | call _ => rfl
  | number _ | string _ | boolean _ | call _ => rw [combine]

theorem combine_object (entries others : Entries PatchValue) :
    (PatchValue.object entries).combine (.object others) =
      .object (combineEntries entries others) := by
  rw [combine]
  rfl

theorem get?_combineKnown (entries others : Entries PatchValue) (name : Text) :
    Entries.get? (combineKnown entries others) name =
      (entries.get? name).map
        fun value => (others.get? name).elim value value.combine := by
  induction entries with
  | nil => rfl
  | cons entry further induction =>
      obtain ⟨key, value⟩ := entry
      by_cases same : key = name
      · subst same
        simp [combineKnown, Entries.get?]
      · simpa [combineKnown, Entries.get?, same] using induction

theorem get?_combineEntries
    (entries others : Entries PatchValue) (name : Text) :
    (combineEntries entries others).get? name =
      match entries.get? name with
      | none => others.get? name
      | some value => some ((others.get? name).elim value value.combine) := by
  rw [combineEntries, Entries.get?_append, get?_combineKnown]
  cases found : entries.get? name with
  | none => exact Entries.get?_newTo others (Entries.get?_eq_none_iff.1 found)
  | some value => rfl

theorem newTo_combineKnown
    (names : List Text) (entries others : Entries PatchValue) :
    Entries.newTo (combineKnown entries others) names =
      combineKnown (entries.newTo names) others := by
  induction entries with
  | nil => rfl
  | cons entry further induction =>
      obtain ⟨key, value⟩ := entry
      rw [Entries.newTo] at induction ⊢
      by_cases old : key ∈ names
      · simpa [combineKnown, Entries.newTo, old] using induction
      · simpa [combineKnown, Entries.newTo, old] using induction

theorem newTo_combineEntries
    (names : List Text) (entries others : Entries PatchValue) :
    (combineEntries entries others).newTo names =
      combineKnown (entries.newTo names) others ++
        others.newTo (names ++ Entries.names (entries.newTo names)) := by
  have known := newTo_combineKnown names entries others
  have new : Entries.newTo (others.newTo entries.names) names =
      others.newTo (names ++ Entries.names (entries.newTo names)) := by
    rw [Entries.newTo_newTo]
    apply List.filter_congr
    intro entry _
    by_cases old : entry.1 ∈ names
    · simp [old]
    · simp [old, Entries.names, Entries.newTo]
  rw [combineEntries, ← new, ← known]
  exact List.filter_append _ _

theorem KeepsObjects.refl (value : PatchValue) : value.KeepsObjects value := by
  intro path old nested found later
  rw [found] at later
  exact ⟨nested, Option.some.inj later⟩

theorem KeepsObjects.exists_entries {nested : Entries PatchValue}
    (keeps : value.KeepsObjects (.object nested)) :
    ∃ entries, value = .object entries :=
  keeps [] value nested rfl rfl

theorem KeepsObjects.leaf (keeps : value.KeepsObjects later)
    (leaf : ∀ entries, value ≠ .object entries) :
    ∀ nested, later ≠ .object nested := by
  rintro nested rfl
  obtain ⟨entries, same⟩ := keeps.exists_entries
  exact leaf entries same

theorem keepsObjects_of_leaf
    (value : PatchValue) (leaf : ∀ nested, later ≠ .object nested) :
    value.KeepsObjects later := by
  intro path old nested _ found
  cases path with
  | nil => exact absurd (Option.some.inj found) (leaf nested)
  | cons name names =>
      cases later with
      | object others => exact absurd rfl (leaf others)
      | number _ | string _ | boolean _ | call _ => contradiction

/-- Between objects the condition is one on the values under the same name. -/
theorem keepsObjects_object_iff {entries others : Entries PatchValue} :
    (PatchValue.object entries).KeepsObjects (.object others) ↔
      ∀ name value later,
        entries.get? name = some value → others.get? name = some later →
        value.KeepsObjects later := by
  constructor
  · intro keeps name value later found wanted path old nested left right
    apply keeps (name :: path) old nested
    · rw [at?, found]
      exact left
    · rw [at?, wanted]
      exact right
  · intro keeps path old nested left right
    cases path with
    | nil =>
        cases left
        exact ⟨entries, rfl⟩
    | cons name names =>
        rw [at?] at left right
        cases found : entries.get? name with
        | none => simp [found] at left
        | some value =>
            cases wanted : others.get? name with
            | none => simp [wanted] at right
            | some later =>
                rw [found] at left
                rw [wanted] at right
                exact keeps name value later found wanted names old nested
                  left right

theorem keepsObjects_of_leaves
    (entries : Entries PatchValue) {others : Entries PatchValue}
    (leaves : ∀ entry ∈ others, ∀ nested, entry.2 ≠ .object nested) :
    (PatchValue.object entries).KeepsObjects (.object others) := by
  apply keepsObjects_object_iff.2
  intro name value later _ wanted
  exact keepsObjects_of_leaf value (leaves _ (Entries.mem_of_get? wanted))

end Combining

mutual

theorem combine_self (value : KeyedValue) :
    value.tree.combine value.tree = value.tree := by
  match value with
  | ⟨.object entries, distinct⟩ =>
      have known := combineKnown_self (.ofObject distinct) fun entry inside =>
        Entries.get?_of_mem distinct.1 inside
      have new : Entries.newTo entries (Entries.names entries) = [] := by
        apply List.filter_eq_nil_iff.2
        intro entry inside
        simpa [Entries.names] using ⟨entry.2, inside⟩
      have all : combineKnown entries entries = entries := known
      rw [combine_object, combineEntries, all, new, List.append_nil]
  | ⟨.number _, _⟩ | ⟨.string _, _⟩ | ⟨.boolean _, _⟩ | ⟨.call _, _⟩ => rfl
termination_by sizeOf value.tree

theorem combineKnown_self (patch : KeyedPatch) {later : Entries PatchValue}
    (found : ∀ entry ∈ patch.entries, later.get? entry.1 = some entry.2) :
    combineKnown patch.entries later = patch.entries := by
  match patch with
  | ⟨⟨[]⟩, _⟩ => rfl
  | ⟨⟨(key, value) :: others⟩, distinct⟩ =>
      have first : later.get? key = some value := found _ List.mem_cons_self
      have further :=
        combineKnown_self (.ofObject distinct.tail) fun entry inside =>
        found entry (List.mem_cons_of_mem _ inside)
      have same := combine_self ⟨value, distinct.2.1⟩
      have behind : combineKnown others later = others := further
      rw [combineKnown, behind, first, Option.elim_some, same]
termination_by sizeOf patch.entries

end

end PatchValue

end ConfigEdit
