import ConfigEdit.Text.Basic

/-!
# Ordered entries

Values under names, in the order in which the names came first.  Setting a
name again keeps its place.
-/

namespace ConfigEdit

/-- Values under names. -/
abbrev Entries (kind : Type) := List (Text × kind)

namespace Entries

variable {kind : Type}

/-- The value under a name. -/
def get? : Entries kind → Text → Option kind
  | [], _ => none
  | (key, value) :: others, name =>
      if key = name then some value else get? others name

/-- The entries with a value under a name: in its place if the name is there,
and at the end if it is not. -/
def insert : Entries kind → Text → kind → Entries kind
  | [], name, value => [(name, value)]
  | (key, old) :: others, name, value =>
      if key = name then (key, value) :: others
      else (key, old) :: insert others name value

/-- The entries without those under a name. -/
def erase (entries : Entries kind) (name : Text) : Entries kind :=
  entries.filter fun entry => entry.1 ≠ name

/-- The names in order. -/
def names (entries : Entries kind) : List Text := entries.map Prod.fst

/-- A name has a value. -/
def has (entries : Entries kind) (name : Text) : Bool :=
  (entries.get? name).isSome

/-- Entries set one after the other. -/
def ofList (items : List (Text × kind)) : Entries kind :=
  items.foldl (fun entries item => insert entries item.1 item.2) []

@[simp] theorem get?_insert_self
    (entries : Entries kind) (name : Text) (value : kind) :
    (entries.insert name value).get? name = some value := by
  induction entries with
  | nil => simp [insert, get?]
  | cons entry others induction =>
      obtain ⟨key, old⟩ := entry
      by_cases same : key = name
      · simp [insert, get?, same]
      · simp [insert, get?, same, induction]

theorem get?_insert_of_ne (entries : Entries kind) {name other : Text}
    (value : kind) (different : name ≠ other) :
    (entries.insert name value).get? other = entries.get? other := by
  induction entries with
  | nil => simp [insert, get?, different]
  | cons entry others induction =>
      obtain ⟨key, old⟩ := entry
      by_cases same : key = name
      · subst same
        simp [insert, get?, different]
      · by_cases found : key = other
        · subst found
          simp [insert, get?, same]
        · simp [insert, get?, same, found, induction]

theorem mem_of_get? {entries : Entries kind} {name : Text} {value : kind}
    (found : entries.get? name = some value) : (name, value) ∈ entries := by
  induction entries with
  | nil => simp [get?] at found
  | cons entry others induction =>
      obtain ⟨key, old⟩ := entry
      rw [get?] at found
      split at found
      · next same =>
          cases found
          exact same ▸ List.mem_cons_self
      · exact List.mem_cons_of_mem _ (induction found)

theorem mem_names_of_get? {entries : Entries kind} {name : Text} {value : kind}
    (found : entries.get? name = some value) : name ∈ entries.names :=
  List.mem_map.2 ⟨_, mem_of_get? found, rfl⟩

theorem get?_of_mem {entries : Entries kind} (distinct : entries.names.Nodup)
    {name : Text} {value : kind} (inside : (name, value) ∈ entries) :
    entries.get? name = some value := by
  induction entries with
  | nil => contradiction
  | cons entry others induction =>
      obtain ⟨key, old⟩ := entry
      obtain ⟨new, distinct⟩ := List.nodup_cons.1 distinct
      rcases List.mem_cons.1 inside with same | later
      · cases same
        simp [get?]
      · have different : key ≠ name := by
          rintro rfl
          exact new (List.mem_map.2 ⟨_, later, rfl⟩)
        rw [get?, if_neg different]
        exact induction distinct later

theorem get?_eq_none_iff {entries : Entries kind} {name : Text} :
    entries.get? name = none ↔ name ∉ entries.names := by
  induction entries with
  | nil => simp [get?, names]
  | cons entry others induction =>
      obtain ⟨key, value⟩ := entry
      by_cases same : key = name
      · simp [get?, names, same]
      · simpa [get?, names, same, Ne.symm same] using induction

theorem has_eq_contains (entries : Entries kind) (name : Text) :
    entries.has name = entries.names.contains name := by
  rw [Bool.eq_iff_iff, has, Option.isSome_iff_ne_none, Ne, get?_eq_none_iff,
    Classical.not_not, List.contains_iff_mem]

theorem get?_append (left right : Entries kind) (name : Text) :
    Entries.get? (left ++ right) name =
      (left.get? name).or (right.get? name) := by
  induction left with
  | nil => rfl
  | cons entry others induction =>
      obtain ⟨key, value⟩ := entry
      by_cases same : key = name
      · simp [get?, same]
      · simpa [get?, same] using induction

/-- A name that is there keeps its place. -/
theorem names_insert_of_mem {entries : Entries kind} {name : Text}
    (value : kind) (inside : name ∈ entries.names) :
    (entries.insert name value).names = entries.names := by
  induction entries with
  | nil => contradiction
  | cons entry others induction =>
      obtain ⟨key, old⟩ := entry
      by_cases same : key = name
      · simp [insert, names, same]
      · have behind : name ∈ names others := by
          simpa [names, Ne.symm same] using inside
        simpa [insert, names, same] using induction behind

end Entries

end ConfigEdit
