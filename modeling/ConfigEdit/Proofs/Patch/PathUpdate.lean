import ConfigEdit.Patch.Source
import ConfigEdit.Proofs.Outcome
import ConfigEdit.Proofs.Scan.Paths
import ConfigEdit.Proofs.Text.Entries

/-!
# Insertions at paths

`Patch.insertDotted` writes a value at a path and nothing beside it.  What this
means is `Patch.Updated`: below the path stands the value, no path that leads
elsewhere is touched, and each object on the way keeps its names in their order
and takes at most the next key of the path, at its end.

A patch is a tree of patches: what stands under a key is the patch of that
object's entries, and the empty patch where there is no object
(`Patch.below`).  One key is `Patch.updated_insert` and
`Patch.Updated.below`; the insertion is an induction on the keys that lead to
the leaf, and a sequence of assignments one on the texts (`Patch.at?_foldlM`).
-/

namespace ConfigEdit

namespace PropertyPath

/-- Neither of two paths leads to the other. -/
def Apart (path other : PropertyPath) : Prop :=
  ¬ path <+: other ∧ ¬ other <+: path

theorem ne_root_of_parse {dotted : Text} {path : PropertyPath}
    (parsed : parse dotted = .ok path) : path ≠ root := by
  obtain ⟨piece, others, cut⟩ := Text.exists_pieces '.' dotted
  rw [parse, ofDotted?, cut] at parsed
  by_cases empty : (piece :: others).any List.isEmpty
  · rw [if_pos empty] at parsed
    cases parsed
  · rw [if_neg empty] at parsed
    cases parsed
    exact List.cons_ne_nil piece others

end PropertyPath

namespace Patch

/-- The value of a patch at a path. -/
def at? (patch : Patch) (path : PropertyPath) : Option PatchValue :=
  patch.toValue.at? path

/-- The patch of the object under a key; it is empty where there is no
object. -/
def below (patch : Patch) (key : Text) : Patch :=
  ⟨((patch.entries.get? key).bind PatchValue.entries?).getD []⟩

/-- The names of the object at a path, in order; there are none where there is
no object. -/
def namesAt (patch : Patch) (path : PropertyPath) : List Text :=
  Entries.names (((patch.at? path).bind PatchValue.entries?).getD [])

/-- The patch that stands after a change has been tried: one that fails leaves
the patch as it is. -/
def keeping (patch : Patch) : Except EditError Patch → Patch
  | .ok changed => changed
  | .error _ => patch

/-- The second patch is the first one with a value at a path, and differs from
it nowhere else. -/
structure Updated (before : Patch) (path : PropertyPath) (value : PatchValue)
    (after : Patch) :
    Prop where
  /-- At the path stands the value, and below the path what the value holds. -/
  reached : ∀ rest, after.at? (path ++ rest) = value.at? rest
  /-- Paths that neither lead to the given one nor go on from it lead where they
  led. -/
  elsewhere : ∀ other,
    PropertyPath.Apart other path → after.at? other = before.at? other
  /-- Each path that leads to the given one leads to an object.  Its names are
  those it had; the next key of the path is one of them or comes last. -/
  onTheWay : ∀ above key, above ++ [key] <+: path →
    ∃ inner : Entries PatchValue, after.at? above = some (.object inner) ∧
      inner.names =
        if key ∈ before.namesAt above then before.namesAt above
        else before.namesAt above ++ [key]

variable {patch inner after : Patch} {path : PropertyPath} {key : Text}
    {value : PatchValue}

@[simp] theorem at?_root (patch : Patch) :
    patch.at? [] = some (.object patch.entries) := rfl

theorem at?_cons (patch : Patch) (key : Text) (path : PropertyPath) :
    patch.at? (key :: path) =
      (patch.entries.get? key).bind fun value => value.at? path := by
  rw [at?, toValue, PatchValue.at?]
  cases Entries.get? patch.entries key with
  | none => rfl
  | some value => rfl

/-- Below a key stands what stands in the patch of its object. -/
theorem at?_cons_cons (patch : Patch) (key next : Text) (path : PropertyPath) :
    patch.at? (key :: next :: path) = (patch.below key).at? (next :: path) := by
  rw [at?_cons, below, at?, toValue]
  cases Entries.get? patch.entries key with
  | none => rfl
  | some value => cases value <;> rfl

theorem namesAt_cons (patch : Patch) (key : Text) (path : PropertyPath) :
    patch.namesAt (key :: path) = (patch.below key).namesAt path := by
  cases path with
  | nil =>
      rw [namesAt, namesAt, at?_cons, at?_root, below]
      cases Entries.get? patch.entries key with
      | none => rfl
      | some value => cases value <;> rfl
  | cons next path => rw [namesAt, namesAt, at?_cons_cons]

theorem at?_insert_self
    (patch : Patch) (key : Text) (value : PatchValue) (path : PropertyPath) :
    (patch.insert key value).at? (key :: path) = value.at? path := by
  rw [at?_cons, insert, Entries.get?_insert_self]
  rfl

theorem at?_insert_of_ne (patch : Patch) {other : Text} (value : PatchValue)
    (path : PropertyPath) (different : key ≠ other) :
    (patch.insert key value).at? (other :: path) =
      patch.at? (other :: path) := by
  rw [at?_cons, at?_cons, insert, Entries.get?_insert_of_ne _ value different]

theorem names_insert_root (patch : Patch) (key : Text) (value : PatchValue) :
    Entries.names (patch.insert key value).entries =
      if key ∈ patch.namesAt [] then patch.namesAt []
      else patch.namesAt [] ++ [key] :=
  Entries.names_insert patch.entries key value

theorem updated_insert (patch : Patch) (key : Text) (value : PatchValue) :
    patch.Updated [key] value (patch.insert key value) where
  reached := patch.at?_insert_self key value
  elsewhere := by
    rintro other ⟨notAbove, notBelow⟩
    cases other with
    | nil => exact absurd List.nil_prefix notAbove
    | cons name rest =>
        apply at?_insert_of_ne
        rintro rfl
        exact notBelow (List.cons_prefix_cons.2 ⟨rfl, List.nil_prefix⟩)
  onTheWay := by
    intro above next onWay
    cases above with
    | nil =>
        obtain ⟨rfl, -⟩ := List.cons_prefix_cons.1 onWay
        exact ⟨_, rfl, patch.names_insert_root next value⟩
    | cons name rest =>
        have short := onWay.length_le
        simp at short

/-- An update of the object under a key is one of the whole patch, below the
key.  The path below the key is not empty: at the key itself there need not have
been an object. -/
theorem Updated.below {leaf : Text}
    (within : (patch.below key).Updated (path ++ [leaf]) value inner) :
    patch.Updated (key :: path ++ [leaf]) value
      (patch.insert key inner.toValue) where
  reached := by
    intro rest
    rw [List.cons_append, List.cons_append, at?_insert_self]
    exact within.reached rest
  elsewhere := by
    rintro other ⟨notAbove, notBelow⟩
    cases other with
    | nil => exact absurd List.nil_prefix notAbove
    | cons name rest =>
        by_cases same : key = name
        · subst same
          have apart : PropertyPath.Apart rest (path ++ [leaf]) := by
            constructor
            · intro above
              exact notAbove (List.cons_prefix_cons.2 ⟨rfl, above⟩)
            · intro behind
              exact notBelow (List.cons_prefix_cons.2 ⟨rfl, behind⟩)
          rw [at?_insert_self]
          cases rest with
          | nil => exact absurd List.nil_prefix apart.1
          | cons next rest =>
              rw [at?_cons_cons]
              exact within.elsewhere (next :: rest) apart
        · exact patch.at?_insert_of_ne _ rest same
  onTheWay := by
    intro above next onWay
    cases above with
    | nil =>
        obtain ⟨rfl, -⟩ := List.cons_prefix_cons.1 onWay
        exact ⟨_, rfl, patch.names_insert_root next _⟩
    | cons name rest =>
        obtain ⟨rfl, further⟩ := List.cons_prefix_cons.1 onWay
        rw [at?_insert_self, namesAt_cons]
        exact within.onTheWay rest next further

theorem insertBelow_cons (patch : Patch) (leaf : Text) (value : PatchValue)
    (parents : PropertyPath) :
    (⟨insertBelow leaf value (key :: parents) patch.entries⟩ : Patch) =
      patch.insert key (.object (insertBelow leaf value parents
        (patch.below key).entries)) := rfl

theorem updated_insertBelow (leaf : Text) (value : PatchValue)
    (parents : PropertyPath) (patch : Patch) :
    patch.Updated (parents ++ [leaf]) value
      ⟨insertBelow leaf value parents patch.entries⟩ := by
  induction parents generalizing patch with
  | nil => exact patch.updated_insert leaf value
  | cons key parents induction =>
      rw [insertBelow_cons]
      exact (induction (patch.below key)).below

theorem insertBelow_insertBelow (leaf : Text) (first second : PatchValue)
    (parents : PropertyPath) (entries : Entries PatchValue) :
    insertBelow leaf second parents (insertBelow leaf first parents entries) =
      insertBelow leaf second parents entries := by
  induction parents generalizing entries with
  | nil => exact entries.insert_insert leaf first second
  | cons key parents induction =>
      simp only [insertBelow, Entries.get?_insert_self, Entries.insert_insert,
        Option.bind_some, PatchValue.entries?, Option.getD_some]
      rw [induction]

theorem insertAt_eq (patch : Patch) (value : PatchValue) (notRoot : path ≠ []) :
    patch.insertAt path value =
      ⟨insertBelow (path.getLast notRoot) value path.dropLast
        patch.entries⟩ := by
  rw [insertAt, List.getLast?_eq_some_getLast notRoot]

theorem updated_insertAt
    (patch : Patch) (value : PatchValue) (notRoot : path ≠ []) :
    patch.Updated path value (patch.insertAt path value) := by
  have updated :=
    updated_insertBelow (path.getLast notRoot) value path.dropLast patch
  rwa [List.dropLast_concat_getLast, ← insertAt_eq patch value notRoot]
    at updated

@[simp] theorem insertAt_insertAt (patch : Patch) (path : PropertyPath)
    (first second : PatchValue) :
    (patch.insertAt path first).insertAt path second =
      patch.insertAt path second := by
  by_cases root : path = []
  · subst root
    rfl
  · rw [insertAt_eq _ _ root, insertAt_eq _ _ root, insertAt_eq _ _ root,
      insertBelow_insertBelow]

theorem insertDotted_eq_error {dotted : Text} {error : EditError}
    (failed : PropertyPath.parse dotted = .error error) (patch : Patch)
    (value : PatchValue) :
    patch.insertDotted dotted value = .error error := by
  rw [insertDotted, failed]
  rfl

theorem insertDotted_eq_ok
    {dotted : Text} (parsed : PropertyPath.parse dotted = .ok path)
    (patch : Patch) (value : PatchValue) :
    patch.insertDotted dotted value = .ok (patch.insertAt path value) := by
  rw [insertDotted, parsed]
  rfl

/-- An insertion at a text that names no path fails and leaves the patch as it
is.  At a text that names one it succeeds, writes the value at the path and
nothing elsewhere, and nothing of it is left after a second insertion at the
same text. -/
theorem insertDotted_updates (patch : Patch) (dotted : Text)
    (value : PatchValue) :
    match PropertyPath.parse dotted with
    | .error error =>
        patch.insertDotted dotted value = .error error ∧
          patch.keeping (patch.insertDotted dotted value) = patch
    | .ok path =>
        ∃ updated, patch.insertDotted dotted value = .ok updated ∧
          patch.Updated path value updated ∧
          ∀ second, updated.insertDotted dotted second =
            patch.insertDotted dotted second := by
  cases parsed : PropertyPath.parse dotted with
  | error error =>
      have failed := insertDotted_eq_error parsed patch value
      rw [failed]
      exact ⟨rfl, rfl⟩
  | ok path =>
      have notRoot := PropertyPath.ne_root_of_parse parsed
      refine ⟨patch.insertAt path value, insertDotted_eq_ok parsed patch value,
        patch.updated_insertAt value notRoot, ?_⟩
      intro second
      rw [insertDotted_eq_ok parsed, insertDotted_eq_ok parsed,
        insertAt_insertAt]

-- A value that is in the way gives way to an object, and the key keeps its
-- place.
example :
    insertDotted ⟨[(['a'], .string ['x']), (['c'], .boolean true)]⟩ "a.b".toList
      (.boolean false) = .ok ⟨[(['a'], .object [(['b'], .boolean false)]),
      (['c'], .boolean true)]⟩ := rfl

/-- An assignment of a value writes at the path that its key names. -/
theorem exists_updated_of_assign {assignment : Assignment}
    (assigned : patch.assign assignment = .ok after) :
    ∃ path value, PropertyPath.parse assignment.key = .ok path ∧
      patch.Updated path value after := by
  obtain ⟨path, parsed, assigned⟩ := bind_eq_ok.1 assigned
  obtain ⟨value, -, same⟩ := bind_eq_ok.1 assigned
  cases same
  exact ⟨path, value, parsed,
    patch.updated_insertAt value (PropertyPath.ne_root_of_parse parsed)⟩

theorem exists_updated_of_assignCall {assignment : Assignment}
    (assigned : patch.assignCall assignment = .ok after) :
    ∃ path value, PropertyPath.parse assignment.key = .ok path ∧
      patch.Updated path value after := by
  obtain ⟨path, parsed, same⟩ := map_eq_ok.1 assigned
  subst same
  exact ⟨path, _, parsed,
    patch.updated_insertAt _ (PropertyPath.ne_root_of_parse parsed)⟩

end Patch

theorem Assignment.parse_eq_ok {text : Text} {assignment : Assignment} :
    Assignment.parse text = .ok assignment ↔
      Assignment.ofText? text = some assignment := by
  rw [Assignment.parse]
  cases Assignment.ofText? text <;> simp

/-- The path that the text of an assignment names is apart from the given
one. -/
def Assignment.Spares (other : PropertyPath) (text : Text) : Prop :=
  ∀ assignment path, Assignment.ofText? text = some assignment →
    PropertyPath.parse assignment.key = .ok path → PropertyPath.Apart other path

namespace Patch

/-- One assignment after the other leaves what is apart from all of them. -/
theorem at?_foldlM {assign : Patch → Assignment → Except EditError Patch}
    (updates : ∀ {patch after assignment}, assign patch assignment = .ok after →
      ∃ path value, PropertyPath.parse assignment.key = .ok path ∧
        patch.Updated path value after)
    {other : PropertyPath} {texts : List Text}
    (spared : ∀ text ∈ texts, Assignment.Spares other text)
    {patch after : Patch}
    (assigned : texts.foldlM
      (fun patch text => do
        let assignment ← Assignment.parse text
        (assign patch assignment).mapError .edit) patch = .ok after) :
    after.at? other = patch.at? other := by
  induction texts generalizing patch with
  | nil =>
      cases assigned
      rfl
  | cons text texts induction =>
      rw [List.foldlM_cons] at assigned
      obtain ⟨next, changed, assigned⟩ := bind_eq_ok.1 assigned
      obtain ⟨assignment, spelled, changed⟩ := bind_eq_ok.1 changed
      obtain ⟨path, value, parsed, updated⟩ :=
        updates (mapError_eq_ok.1 changed)
      have apart : PropertyPath.Apart other path :=
        spared text List.mem_cons_self assignment path
          (Assignment.parse_eq_ok.1 spelled) parsed
      have others : ∀ text ∈ texts, Assignment.Spares other text :=
        fun text inside => spared text (List.mem_cons_of_mem _ inside)
      calc after.at? other
          = next.at? other := induction others assigned
        _ = patch.at? other := updated.elsewhere other apart

end Patch

/-- What is apart from all assignments of a patch is what the patch file
holds. -/
theorem PatchSource.at?_assemble
    {source : PatchSource} {disk : Disk} {base patch : Patch}
    {other : PropertyPath} (started : source.base disk = .ok base)
    (assembled : source.assemble disk = .ok patch)
    (spared : ∀ text ∈ source.sets ++ source.calls,
      Assignment.Spares other text) :
    patch.at? other = base.at? other := by
  obtain ⟨start, same, assembled⟩ := bind_eq_ok.1 assembled
  cases started.symm.trans same
  obtain ⟨withValues, set, called⟩ := bind_eq_ok.1 assembled
  have sparedBySets : ∀ text ∈ source.sets, Assignment.Spares other text :=
    fun text inside => spared text (List.mem_append_left _ inside)
  have sparedByCalls : ∀ text ∈ source.calls, Assignment.Spares other text :=
    fun text inside => spared text (List.mem_append_right _ inside)
  calc patch.at? other
      = withValues.at? other :=
        Patch.at?_foldlM Patch.exists_updated_of_assignCall sparedByCalls called
    _ = base.at? other :=
      Patch.at?_foldlM Patch.exists_updated_of_assign sparedBySets set

end ConfigEdit
