import ConfigEdit.Text.Entries
import Mathlib.Data.List.Nodup

/-!
# Setting entries

What is left of the entries after a name has been set, and in which order.
-/

namespace ConfigEdit.Entries

variable {kind : Type}

/-- Of two values that are set under one name the second one counts. -/
@[simp] theorem insert_insert
    (entries : Entries kind) (name : Text) (first second : kind) :
    (entries.insert name first).insert name second =
      entries.insert name second := by
  induction entries with
  | nil => simp [insert]
  | cons entry others induction =>
      obtain ⟨key, old⟩ := entry
      by_cases same : key = name
      · simp [insert, same]
      · simp [insert, same, induction]

/-- A name that is there keeps its place, and a new one comes last. -/
theorem names_insert (entries : Entries kind) (name : Text) (value : kind) :
    (entries.insert name value).names =
      if name ∈ entries.names then entries.names
      else entries.names ++ [name] := by
  split
  · next inside => exact names_insert_of_mem value inside
  · next new =>
      induction entries with
      | nil => rfl
      | cons entry others induction =>
          obtain ⟨key, old⟩ := entry
          obtain ⟨different, behind⟩ : name ≠ key ∧ name ∉ names others := by
            simpa [names] using new
          rw [insert, if_neg different.symm]
          exact congrArg (key :: ·) (induction behind)

theorem nodup_names_insert
    {entries : Entries kind} (distinct : entries.names.Nodup) (name : Text)
    (value : kind) : (entries.insert name value).names.Nodup := by
  rw [names_insert]
  split
  · exact distinct
  · next new =>
      rw [← List.concat_eq_append]
      exact distinct.concat new

theorem mem_insert {entries : Entries kind} {name : Text} {value : kind}
    {entry : Text × kind} (inside : entry ∈ entries.insert name value) :
    entry.2 = value ∨ entry ∈ entries := by
  induction entries with
  | nil => exact .inl (congrArg Prod.snd (List.mem_singleton.1 inside))
  | cons first others induction =>
      obtain ⟨key, old⟩ := first
      rw [insert] at inside
      split at inside
      · rcases List.mem_cons.1 inside with rfl | inside
        · exact .inl rfl
        · exact .inr (List.mem_cons_of_mem _ inside)
      · rcases List.mem_cons.1 inside with rfl | inside
        · exact .inr List.mem_cons_self
        · exact (induction inside).imp id (List.mem_cons_of_mem _)

theorem nodup_names_ofList (items : List (Text × kind)) :
    (ofList items).names.Nodup := by
  have further (entries : Entries kind) (distinct : entries.names.Nodup) :
      (items.foldl (fun entries item => insert entries item.1 item.2)
        entries).names.Nodup := by
    induction items generalizing entries with
    | nil => exact distinct
    | cons item others induction =>
        exact induction _ (nodup_names_insert distinct _ _)
  exact further [] List.nodup_nil

theorem mem_foldl_insert {items : List (Text × kind)} {entries : Entries kind}
    {entry : Text × kind}
    (inside : entry ∈
      items.foldl (fun entries item => insert entries item.1 item.2) entries) :
    entry ∈ entries ∨ ∃ item ∈ items, entry.2 = item.2 := by
  induction items generalizing entries with
  | nil => exact .inl inside
  | cons item others induction =>
      rcases induction inside with among | ⟨other, member, same⟩
      · rcases mem_insert among with same | old
        · exact .inr ⟨item, List.mem_cons_self, same⟩
        · exact .inl old
      · exact .inr ⟨other, List.mem_cons_of_mem _ member, same⟩

theorem exists_of_mem_ofList {items : List (Text × kind)} {entry : Text × kind}
    (inside : entry ∈ ofList items) : ∃ item ∈ items, entry.2 = item.2 :=
  (mem_foldl_insert inside).resolve_left List.not_mem_nil

end ConfigEdit.Entries
