import Mathlib.Data.List.Forall2

/-!
# Computations that can fail

A computation of several steps has a result if each of its steps has one.
-/

namespace ConfigEdit

variable {kind other error fault : Type}

section Steps

variable {result : Except error kind} {value : other}

theorem map_eq_ok {step : kind → other} :
    result.map step = .ok value ↔
      ∃ inner, result = .ok inner ∧ step inner = value := by
  cases result <;> simp [Except.map]

theorem bind_eq_ok {step : kind → Except error other} :
    (result >>= step) = .ok value ↔
      ∃ inner, result = .ok inner ∧ step inner = .ok value := by
  cases result <;> simp [bind, Except.bind]

theorem mapError_eq_ok {rename : error → fault} {inner : kind} :
    result.mapError rename = .ok inner ↔ result = .ok inner := by
  cases result <;> simp [Except.mapError]

theorem exists_eq_ok (found : result.toOption.isSome = true) :
    ∃ outcome, result = .ok outcome := by
  cases result with
  | error => contradiction
  | ok outcome => exact ⟨outcome, rfl⟩

end Steps

theorem mapM_eq_ok_iff {step : kind → Except error other} {items : List kind}
    {results : List other} :
    items.mapM step = .ok results ↔
      List.Forall₂ (fun item result => step item = .ok result) items
        results := by
  induction items generalizing results with
  | nil =>
      rw [List.mapM_nil, List.forall₂_nil_left_iff]
      exact ⟨fun same => (Except.ok.inj same).symm, fun same => same ▸ rfl⟩
  | cons item others induction =>
      rw [List.mapM_cons, List.forall₂_cons_left_iff]
      constructor
      · intro found
        obtain ⟨value, first, found⟩ := bind_eq_ok.1 found
        obtain ⟨values, further, same⟩ := bind_eq_ok.1 found
        exact ⟨value, values, first, induction.1 further,
          (Except.ok.inj same).symm⟩
      · rintro ⟨value, values, first, further, rfl⟩
        rw [first, induction.2 further]
        rfl

/-- What every step keeps holds behind the last one. -/
theorem holds_of_foldlM (holds : kind → Prop)
    {step : kind → other → Except error kind} (keeps : ∀ {value item next},
      holds value → step value item = .ok next → holds next)
    {items : List other} {first last : kind} (started : holds first)
    (done : items.foldlM step first = .ok last) : holds last := by
  induction items generalizing first with
  | nil =>
      cases done
      exact started
  | cons item others induction =>
      rw [List.foldlM_cons] at done
      obtain ⟨next, changed, done⟩ := bind_eq_ok.1 done
      exact induction (keeps started changed) done

theorem exists_mem_of_forall₂ {relation : kind → other → Prop}
    {items : List kind} {results : List other}
    (all : List.Forall₂ relation items results) :
    ∀ result ∈ results, ∃ item ∈ items, relation item result := by
  induction all with
  | nil => simp
  | cons first others induction =>
      intro result inside
      rcases List.mem_cons.1 inside with rfl | inside
      · exact ⟨_, List.mem_cons_self, first⟩
      · obtain ⟨item, member, related⟩ := induction result inside
        exact ⟨item, List.mem_cons_of_mem _ member, related⟩

theorem exists_forall₂ {relation : kind → other → Prop} {items : List kind}
    (each : ∀ item ∈ items, ∃ result, relation item result) :
    ∃ results, List.Forall₂ relation items results := by
  induction items with
  | nil => exact ⟨[], .nil⟩
  | cons item others induction =>
      obtain ⟨⟨result, related⟩, each⟩ := List.forall_mem_cons.1 each
      obtain ⟨results, all⟩ := induction each
      exact ⟨result :: results, .cons related all⟩

end ConfigEdit
