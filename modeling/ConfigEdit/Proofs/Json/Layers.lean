import ConfigEdit.Json.Merge
import ConfigEdit.Proofs.Text.Entries
import Mathlib.Data.List.Basic

/-!
# Merged layers

`Json.mergeLayers` is a fold of a merge that is not associative: a value without
keys between two objects takes the first of them away.  What the fold holds is
still decided path by path.  A leaf stands at a path if the last layer that has
a say there says so, and a layer has no say (`Json.Yields`) if the path leaves
it through objects alone.

One merge is `Json.at?_merge`, an induction on the path; the fold is
`Json.at?_foldl`, one on the layers.  `Json.names_mergeEntries` and
`Json.merge_merge` say what a merge does to the order of the names, and that
merging once is enough.
-/

namespace ConfigEdit

theorem Entries.insert_eq_self {kind : Type} {entries : Entries kind}
    {name : Text} {value : kind} (found : entries.get? name = some value) :
    entries.insert name value = entries := by
  induction entries with
  | nil => contradiction
  | cons entry others induction =>
      obtain ⟨key, old⟩ := entry
      by_cases same : key = name
      · simp_all [insert, get?]
      · rw [get?, if_neg same] at found
        rw [insert, if_neg same, induction found]

namespace Json

/-- The value is an object. -/
def isObject : Json → Bool
  | object _ => true
  | null | boolean _ | number _ | string _ | array _ => false

/-- In each object that keys lead to, the names are distinct. -/
def Distinct (json : Json) : Prop :=
  ∀ path entries,
    json.at? path = some (object entries) → (Entries.names entries).Nodup

/-- The value has nothing at the path, and whatever it has on the way there is
an object. -/
def Yields (json : Json) (path : List Text) : Prop :=
  json.at? path = none ∧
    ∀ above value, above <+: path → above ≠ path → json.at? above = some value →
      value.isObject = true

section Paths

variable {json : Json} {entries : List (Text × Json)} {key : Text}
    {path : List Text}

theorem exists_of_isObject (isObject : json.isObject = true) :
    ∃ entries, json = object entries := by
  cases json with
  | object entries => exact ⟨entries, rfl⟩
  | _ => contradiction

@[simp] theorem at?_nil (json : Json) : json.at? [] = some json := rfl

theorem at?_cons (json : Json) (key : Text) (path : List Text) :
    json.at? (key :: path) =
      (json.get? key).bind fun inner => inner.at? path := by
  rw [at?]
  cases json.get? key <;> rfl

@[simp] theorem get?_object (entries : List (Text × Json)) (key : Text) :
    (object entries).get? key = Entries.get? entries key := rfl

theorem get?_of_leaf (leaf : json.isObject = false) (key : Text) :
    json.get? key = none := by
  cases json with
  | object entries => contradiction
  | _ => rfl

theorem Distinct.names (distinct : (object entries).Distinct) :
    (Entries.names entries).Nodup :=
  distinct [] entries rfl

theorem Distinct.below (distinct : (object entries).Distinct) {inner : Json}
    (found : Entries.get? entries key = some inner) : inner.Distinct := by
  intro path nested inside
  apply distinct (key :: path) nested
  rw [at?_cons, get?_object, found]
  exact inside

theorem Distinct.leaf (leaf : json.isObject = false) : json.Distinct := by
  intro path nested inside
  cases path with
  | nil =>
      cases inside
      contradiction
  | cons key path => simp [at?_cons, get?_of_leaf leaf] at inside

theorem Distinct.object (distinct : (Entries.names entries).Nodup)
    (below : ∀ entry ∈ entries, entry.2.Distinct) :
    (object entries).Distinct := by
  intro path nested inside
  cases path with
  | nil =>
      cases inside
      exact distinct
  | cons key path =>
      rw [at?_cons] at inside
      obtain ⟨inner, found, inside⟩ := Option.bind_eq_some_iff.1 inside
      exact below (key, inner) (Entries.mem_of_get? found) path nested inside

theorem not_yields_nil (json : Json) : ¬ json.Yields [] := nofun

theorem Yields.isObject (yields : json.Yields path) : json.isObject = true := by
  cases path with
  | nil => exact absurd yields json.not_yields_nil
  | cons key path =>
      exact yields.2 [] json List.nil_prefix
        (List.cons_ne_nil key path).symm rfl

/-- Behind a key an object yields if it does not have the key, or if what it has
there yields. -/
theorem yields_cons :
    (object entries).Yields (key :: path) ↔
      ∀ inner, Entries.get? entries key = some inner → inner.Yields path := by
  constructor
  · rintro ⟨nothing, onWay⟩ inner found
    rw [at?_cons, get?_object, found] at nothing
    refine ⟨nothing, fun above value leads before inside => ?_⟩
    refine onWay (key :: above) value
      (List.cons_prefix_cons.2 ⟨rfl, leads⟩) ?_ ?_
    · exact fun same => before (List.cons.inj same).2
    · rw [at?_cons, get?_object, found]
      exact inside
  · intro yields
    constructor
    · rw [at?_cons, get?_object]
      cases found : Entries.get? entries key with
      | none => rfl
      | some inner => exact (yields inner found).1
    · intro above value leads before inside
      cases above with
      | nil =>
          cases inside
          rfl
      | cons name above =>
          obtain ⟨rfl, further⟩ := List.cons_prefix_cons.1 leads
          rw [at?_cons] at inside
          obtain ⟨inner, found, inside⟩ := Option.bind_eq_some_iff.1 inside
          refine (yields inner found).2 above value further ?_ inside
          exact fun same => before (same ▸ rfl)

end Paths

section Merging

variable {base overlay value : Json} {path : List Text}

theorem merge_of_leaf (leaf : overlay.isObject = false) (base : Json) :
    merge base overlay = overlay := by
  cases overlay with
  | object entries => contradiction
  | _ => rw [merge]

theorem merge_object (old new : List (Text × Json)) :
    merge (object old) (object new) = object (mergeEntries old new) := by
  rw [merge]

theorem merge_object_of_leaf
    (leaf : base.isObject = false) (new : List (Text × Json)) :
    merge base (object new) = object new := by
  cases base with
  | object entries => contradiction
  | _ => rfl

@[simp] theorem merge_null (overlay : Json) : merge null overlay = overlay := by
  cases overlay with
  | object new => exact merge_object_of_leaf rfl new
  | _ => rw [merge]

@[simp] theorem isObject_merge_object (base : Json) (new : List (Text × Json)) :
    (merge base (object new)).isObject = true := by
  cases base with
  | object old =>
      rw [merge_object]
      rfl
  | _ => rfl

/-- Where there is no value yet, a value is merged into null. -/
theorem mergeEntries_cons (base : Entries Json) (key : Text) (value : Json)
    (others : List (Text × Json)) :
    mergeEntries base ((key, value) :: others) =
      mergeEntries (base.insert key (merge ((base.get? key).getD null) value))
        others := by
  rw [mergeEntries]
  cases base.get? key with
  | none => rw [Option.getD_none, merge_null]
  | some old => rfl

theorem get?_mergeEntries {new : Entries Json} (distinct : new.names.Nodup)
    (old : Entries Json) (name : Text) :
    (mergeEntries old new).get? name =
      match new.get? name with
      | none => old.get? name
      | some value => some (merge ((old.get? name).getD null) value) := by
  induction new generalizing old with
  | nil => rw [mergeEntries, Entries.get?]
  | cons entry others induction =>
      obtain ⟨key, value⟩ := entry
      obtain ⟨notBehind, distinct⟩ := List.nodup_cons.1 distinct
      rw [mergeEntries_cons, induction distinct]
      by_cases same : key = name
      · subst same
        have nothing : Entries.get? others key = none :=
          Entries.get?_eq_none_iff.2 notBehind
        simp [Entries.get?, nothing]
      · simp [Entries.get?, same, Entries.get?_insert_of_ne old _ same]

/-- The names of the base keep their order, and the new ones follow in
theirs. -/
theorem names_mergeEntries {new : Entries Json} (distinct : new.names.Nodup)
    (old : Entries Json) :
    (mergeEntries old new).names =
      old.names ++ new.names.filter fun name => name ∉ old.names := by
  induction new generalizing old with
  | nil => simp [mergeEntries, Entries.names]
  | cons entry others induction =>
      obtain ⟨key, value⟩ := entry
      obtain ⟨notBehind, distinct⟩ := List.nodup_cons.1 distinct
      have names : Entries.names ((key, value) :: others) =
          key :: Entries.names others := rfl
      rw [mergeEntries_cons, induction distinct, Entries.names_insert, names]
      by_cases inside : key ∈ old.names
      · simp [inside]
      · have different : ∀ name ∈ Entries.names others, name ≠ key := by
          rintro name behind rfl
          exact notBehind behind
        rw [if_neg inside, List.filter_cons_of_pos (by simpa using inside),
          List.append_assoc, List.singleton_append]
        congr 2
        apply List.filter_congr
        intro name behind
        simp [different name behind]

theorem get?_merge_object {new : List (Text × Json)}
    (distinct : (Entries.names new).Nodup) (base : Json) (key : Text) :
    (merge base (object new)).get? key =
      match Entries.get? new key with
      | none => base.get? key
      | some value => some (merge ((base.get? key).getD null) value) := by
  by_cases isObject : base.isObject = true
  · obtain ⟨old, rfl⟩ := exists_of_isObject isObject
    rw [merge_object]
    exact get?_mergeEntries distinct old key
  · have leaf := eq_false_of_ne_true isObject
    rw [merge_object_of_leaf leaf, get?_of_leaf leaf, get?_object]
    cases Entries.get? new key <;> simp

theorem at?_merge_of_both (distinct : overlay.Distinct) {old new : Json}
    (before : base.at? path = some old) (after : overlay.at? path = some new) :
    (merge base overlay).at? path = some (merge old new) := by
  induction path generalizing base overlay with
  | nil =>
      cases before
      cases after
      rfl
  | cons key path induction =>
      rw [at?_cons] at before after
      obtain ⟨first, inBase, before⟩ := Option.bind_eq_some_iff.1 before
      obtain ⟨second, inOverlay, further⟩ := Option.bind_eq_some_iff.1 after
      cases overlay with
      | object entries =>
          rw [get?_object] at inOverlay
          rw [at?_cons, get?_merge_object distinct.names, inOverlay, inBase]
          exact induction (distinct.below inOverlay) before further
      | _ => contradiction

theorem Yields.at?_null (yields : value.Yields path) :
    null.at? path = none := by
  cases path with
  | nil => exact absurd yields value.not_yields_nil
  | cons key path => rfl

private theorem at?_merge_leaf (overlayLeaf : overlay.isObject = false) :
    (merge base overlay).at? path = some value ↔
      overlay.at? path = some value ∨
      base.at? path = some value ∧ overlay.Yields path := by
  have noSay : ¬ overlay.Yields path := by
    intro yields
    simp [yields.isObject] at overlayLeaf
  simp [merge_of_leaf overlayLeaf, noSay]

/-- A merged value has a leaf where the overlay has it, and where the base has
it and the overlay has no say. -/
theorem at?_merge
    (distinct : overlay.Distinct) (leaf : value.isObject = false) :
    (merge base overlay).at? path = some value ↔
      overlay.at? path = some value ∨
      base.at? path = some value ∧ overlay.Yields path := by
  induction path generalizing base overlay with
  | nil =>
      cases overlay with
      | object entries =>
          have different (json : Json)
              (isObject : json.isObject = true) : json ≠ value := by
            rintro rfl
            simp [isObject] at leaf
          simp [not_yields_nil,
            different _ (isObject_merge_object base entries),
            different (object entries) rfl]
      | _ => exact at?_merge_leaf rfl
  | cons key path induction =>
      cases overlay with
      | object entries =>
          rw [at?_cons, get?_merge_object distinct.names, yields_cons, at?_cons,
            at?_cons, get?_object]
          cases found : Entries.get? entries key with
          | none => simp
          | some inner =>
              simp only [Option.bind_some, induction (distinct.below found)]
              cases base.get? key with
              | none =>
                  have nothing :
                      ¬ (null.at? path = some value ∧ inner.Yields path) := by
                    rintro ⟨holds, yields⟩
                    simp [yields.at?_null] at holds
                  simp [nothing]
              | some old => simp
      | _ => exact at?_merge_leaf rfl

/-- A leaf that a fold of merges holds comes from the last layer that has a say,
and from the start if no layer has one. -/
theorem at?_foldl
    {layers : List Json} (distinct : ∀ layer ∈ layers, layer.Distinct)
    (leaf : value.isObject = false) (start : Json) :
    (layers.foldl merge start).at? path = some value ↔
      (∃ before layer after, layers = before ++ layer :: after ∧
        layer.at? path = some value ∧ ∀ later ∈ after, later.Yields path) ∨
      start.at? path = some value ∧ ∀ layer ∈ layers, layer.Yields path := by
  induction layers generalizing start with
  | nil => simp
  | cons first others induction =>
      obtain ⟨firstDistinct, othersDistinct⟩ := List.forall_mem_cons.1 distinct
      rw [List.foldl_cons, induction othersDistinct,
        at?_merge firstDistinct leaf, List.forall_mem_cons]
      constructor
      · rintro (⟨before, layer, after, rfl, holds, yield⟩ |
          ⟨holds | ⟨holds, yields⟩, yield⟩)
        · exact .inl ⟨first :: before, layer, after, rfl, holds, yield⟩
        · exact .inl ⟨[], first, others, rfl, holds, yield⟩
        · exact .inr ⟨holds, yields, yield⟩
      · rintro (⟨before, layer, after, split, holds, yield⟩ |
          ⟨holds, yields, yield⟩)
        · cases before with
          | nil =>
              cases split
              exact .inr ⟨.inl holds, yield⟩
          | cons other before =>
              cases split
              exact .inl ⟨before, layer, after, rfl, holds, yield⟩
        · exact .inr ⟨.inr ⟨holds, yields⟩, yield⟩

theorem at?_mergeLayers {layers : List Json} (more : layers ≠ [])
    (distinct : ∀ layer ∈ layers, layer.Distinct)
    (leaf : value.isObject = false) :
    (mergeLayers layers).at? path = some value ↔
      ∃ before layer after, layers = before ++ layer :: after ∧
        layer.at? path = some value ∧ ∀ later ∈ after, later.Yields path := by
  have noStart :
      ¬ (null.at? path = some value ∧ ∀ layer ∈ layers, layer.Yields path) := by
    rintro ⟨holds, yield⟩
    obtain ⟨layer, inside⟩ := List.exists_mem_of_ne_nil layers more
    simp [(yield layer inside).at?_null] at holds
  rw [mergeLayers, at?_foldl distinct leaf]
  simp only [noStart, or_false]

/-- Entries that hold everything merged already are not changed by merging
it. -/
theorem mergeEntries_eq_self {entries : Entries Json} {new : List (Text × Json)}
    (merged : ∀ entry ∈ new, ∃ value, entries.get? entry.1 = some value ∧
      merge value entry.2 = value) : mergeEntries entries new = entries := by
  induction new with
  | nil => rw [mergeEntries]
  | cons entry others induction =>
      obtain ⟨key, value⟩ := entry
      obtain ⟨⟨old, found, same⟩, othersMerged⟩ := List.forall_mem_cons.1 merged
      rw [mergeEntries_cons, found, Option.getD_some, same,
        Entries.insert_eq_self found]
      exact induction othersMerged

private theorem merge_merge_leaf
    (leaf : overlay.isObject = false) (base : Json) :
    merge (merge base overlay) overlay = merge base overlay := by
  rw [merge_of_leaf leaf, merge_of_leaf leaf]

mutual

theorem merge_merge (base : Json) : (overlay : Json) → overlay.Distinct →
    merge (merge base overlay) overlay = merge base overlay
  | object new, distinct => by
      have below : ∀ entry ∈ new, entry.2.Distinct := fun entry inside =>
        distinct.below (Entries.get?_of_mem distinct.names inside)
      obtain ⟨merged, same⟩ :=
        exists_of_isObject (isObject_merge_object base new)
      rw [same, merge_object, mergeEntries_eq_self]
      intro entry inside
      have found := get?_merge_object distinct.names base entry.1
      rw [same, get?_object, Entries.get?_of_mem distinct.names inside] at found
      exact ⟨_, found, merge_merge_of_mem new below entry inside _⟩
  | null, _ | boolean _, _ | number _, _ | string _, _ | array _, _ =>
      merge_merge_leaf rfl base

private theorem merge_merge_of_mem : (new : List (Text × Json)) →
    (∀ entry ∈ new, entry.2.Distinct) → ∀ entry ∈ new, ∀ base : Json,
      merge (merge base entry.2) entry.2 = merge base entry.2
  | [], _ => nofun
  | (key, value) :: others, distinct => by
      obtain ⟨first, further⟩ := List.forall_mem_cons.1 distinct
      refine List.forall_mem_cons.2 ⟨fun base => ?_, ?_⟩
      · exact merge_merge base value first
      · exact merge_merge_of_mem others further

end

/-- Of several layers the last one that has a say at a path decides whether a
leaf stands there: the others have nothing there and nothing but objects on the
way.  Where a value and one that is merged into it both hold objects, the names
of the first keep their order and the new ones follow in theirs, and merging the
value once more changes nothing. -/
theorem mergeLayers_lastCounts :
    (∀ (layers : List Json) (path : List Text) (value : Json), layers ≠ [] →
      (∀ layer ∈ layers, layer.Distinct) → value.isObject = false →
      ((mergeLayers layers).at? path = some value ↔
          ∃ before layer after, layers = before ++ layer :: after ∧
            layer.at? path = some value ∧ ∀ later ∈ after, later.Yields path)) ∧
    ∀ base overlay : Json, overlay.Distinct →
      (∀ path old new, base.at? path = some (object old) →
        overlay.at? path = some (object new) →
        ∃ merged, (merge base overlay).at? path = some (object merged) ∧
          Entries.names merged = Entries.names old ++
            (Entries.names new).filter fun name => name ∉ Entries.names old) ∧
      merge (merge base overlay) overlay = merge base overlay := by
  refine ⟨fun layers path value more distinct leaf =>
    at?_mergeLayers more distinct leaf, ?_⟩
  intro base overlay distinct
  refine ⟨fun path old new before after => ?_,
    merge_merge base overlay distinct⟩
  have both := at?_merge_of_both distinct before after
  rw [merge_object] at both
  exact ⟨_, both, names_mergeEntries (distinct path new after) old⟩

/-- A text between two objects: what the first layer says below it is lost. -/
theorem mergeLayers_lastCounts_interrupted :
    let first :=
      object [(['a'], object [(['x'], boolean true), (['y'], boolean true)])]
    let second := object [(['a'], string ['s'])]
    let third := object [(['a'], object [(['z'], array []), (['y'], null)])]
    (∀ layer ∈ [first, second, third], layer.Distinct) ∧
      (mergeLayers [first, second, third]).at? [['a'], ['y']] = some null ∧
      (mergeLayers [first, second, third]).at? [['a'], ['x']] ≠
        some (boolean true) ∧
      (∃ merged, (merge first third).at? [['a']] = some (object merged) ∧
        Entries.names merged = [['x'], ['y'], ['z']]) ∧
      merge (merge first third) third = merge first third := by
  intro first second third
  have firstDistinct : first.Distinct :=
    .object (by decide) (List.forall_mem_cons.2 ⟨.object (by decide)
      (List.forall_mem_cons.2 ⟨.leaf rfl,
        List.forall_mem_cons.2 ⟨.leaf rfl, nofun⟩⟩), nofun⟩)
  have secondDistinct : second.Distinct :=
    .object (by decide) (List.forall_mem_cons.2 ⟨.leaf rfl, nofun⟩)
  have thirdDistinct : third.Distinct :=
    .object (by decide) (List.forall_mem_cons.2 ⟨.object (by decide)
      (List.forall_mem_cons.2 ⟨.leaf rfl,
        List.forall_mem_cons.2 ⟨.leaf rfl, nofun⟩⟩), nofun⟩)
  have distinct : ∀ layer ∈ [first, second, third], layer.Distinct := by
    simp [firstDistinct, secondDistinct, thirdDistinct]
  have decides (path : List Text) (value : Json)
      (leaf : value.isObject = false) :=
    mergeLayers_lastCounts.1 [first, second, third] path value
      (List.cons_ne_nil _ _) distinct leaf
  obtain ⟨order, again⟩ := mergeLayers_lastCounts.2 first third thirdDistinct
  refine ⟨distinct, ?_, ?_, order [['a']] _ _ rfl rfl, again⟩
  · exact (decides _ _ rfl).2 ⟨[first, second], third, [], rfl, rfl, nofun⟩
  · intro holds
    have lost :
        (mergeLayers [first, second, third]).at? [['a'], ['x']] = none := rfl
    rw [lost] at holds
    contradiction

end Merging

end Json

end ConfigEdit
