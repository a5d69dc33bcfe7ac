import ConfigEdit.Edit.Document
import ConfigEdit.Proofs.Edit.CallParts
import ConfigEdit.Proofs.Edit.MergeEquations

/-!
# Rejected patches

A patch is rejected for its calls alone.  Whatever document it is merged into,
and also when it takes the place of the configuration, each call in it is built
at the path from the root to the call, and the error of an update is the error
of such a call.
-/

namespace ConfigEdit

/-- The value at a path holds the call of the given text at the path `below`. -/
def PatchValue.HoldsCall (value : PatchValue) (path below : PropertyPath)
    (text : Text) : Prop :=
  ∃ names, below = path ++ names ∧ value.at? names = some (.call text)

/-- The entries of the given names hold the call. -/
def Entries.HoldCall (entries : Entries PatchValue) (chosen : Text → Prop)
    (path below : PropertyPath) (text : Text) : Prop :=
  ∃ name value, chosen name ∧ entries.get? name = some value ∧
    value.HoldsCall (path.child name) below text

/-- An outcome that is a success when all of the given calls can be built, and
else the error of one of them. -/
def DecidedBy {kind : Type} (calls : PropertyPath → Text → Prop) :
    Except EditError kind → Prop
  | .ok _ =>
      ∀ path text, calls path text → ∃ built, buildCall path text = .ok built
  | .error error =>
      ∃ path text, calls path text ∧ buildCall path text = .error error

namespace DecidedBy

variable {first second : Type} {calls others : PropertyPath → Text → Prop}

theorem congr {outcome : Except EditError first}
    (decided : DecidedBy calls outcome)
    (same : ∀ path text, others path text ↔ calls path text) :
    DecidedBy others outcome := by
  cases outcome with
  | ok value =>
      exact fun path text holds => decided path text ((same path text).1 holds)
  | error error =>
      obtain ⟨path, text, holds, failed⟩ := decided
      exact ⟨path, text, (same path text).2 holds, failed⟩

theorem ok {value : first} (none' : ∀ path text, ¬ calls path text) :
    DecidedBy calls (.ok value) :=
  fun path text holds => absurd holds (none' path text)

theorem map
    {outcome : Except EditError first} (decided : DecidedBy calls outcome)
    (change : first → second) : DecidedBy calls (outcome.map change) := by
  cases outcome with
  | ok value => exact decided
  | error error => exact decided

theorem bind {outcome : Except EditError first}
    {next : first → Except EditError second} (decided : DecidedBy calls outcome)
    (further : ∀ value, DecidedBy others (next value)) :
    DecidedBy (fun path text => calls path text ∨ others path text)
      (outcome >>= next) := by
  cases outcome with
  | error error =>
      obtain ⟨path, text, holds, failed⟩ := decided
      exact ⟨path, text, .inl holds, failed⟩
  | ok value =>
      have rest := further value
      change DecidedBy _ (next value)
      cases reached : next value with
      | ok result =>
          rw [reached] at rest
          exact fun path text holds =>
            holds.elim (decided path text) (rest path text)
      | error error =>
          rw [reached] at rest
          obtain ⟨path, text, holds, failed⟩ := rest
          exact ⟨path, text, .inr holds, failed⟩

theorem isOk_iff
    {outcome : Except EditError first} (decided : DecidedBy calls outcome) :
    (∃ value, outcome = .ok value) ↔
      ∀ path text,
        calls path text → ∃ built, buildCall path text = .ok built := by
  cases outcome with
  | ok value => exact iff_of_true ⟨value, rfl⟩ decided
  | error error =>
      obtain ⟨path, text, holds, failed⟩ := decided
      refine iff_of_false (by simp) fun all => ?_
      obtain ⟨built, done⟩ := all path text holds
      rw [failed] at done
      contradiction

end DecidedBy

namespace PatchValue

variable {path below : PropertyPath} {text : Text}

theorem holdsCall_call {marker : Text} :
    (PatchValue.call marker).HoldsCall path below text ↔
      below = path ∧ text = marker := by
  constructor
  · rintro ⟨names, rfl, found⟩
    cases names with
    | nil =>
        cases found
        exact ⟨List.append_nil path, rfl⟩
    | cons name names => contradiction
  · rintro ⟨rfl, rfl⟩
    exact ⟨[], (List.append_nil _).symm, rfl⟩

theorem holdsCall_object {entries : Entries PatchValue} :
    (PatchValue.object entries).HoldsCall path below text ↔
      entries.HoldCall (fun _ => True) path below text := by
  constructor
  · rintro ⟨names, rfl, found⟩
    cases names with
    | nil => cases found
    | cons name names =>
        rw [at?] at found
        cases wanted : entries.get? name with
        | none => simp [wanted] at found
        | some value =>
            rw [wanted] at found
            exact ⟨name, value, trivial, wanted, names,
              by simp [PropertyPath.child], found⟩
  · rintro ⟨name, value, -, wanted, names, rfl, found⟩
    refine ⟨name :: names, by simp [PropertyPath.child], ?_⟩
    rw [at?, wanted]
    exact found

theorem holdCall_cons {key : Text} {value : PatchValue}
    {others : Entries PatchValue} (new : key ∉ others.names) :
    Entries.HoldCall ((key, value) :: others) (fun _ => True) path below text ↔
      value.HoldsCall (path.child key) below text ∨
        others.HoldCall (fun _ => True) path below text := by
  constructor
  · rintro ⟨name, found, -, wanted, holds⟩
    rw [Entries.get?] at wanted
    split at wanted
    · next same =>
        cases wanted
        subst same
        exact .inl holds
    · exact .inr ⟨name, found, trivial, wanted, holds⟩
  · rintro (holds | ⟨name, found, -, wanted, holds⟩)
    · exact ⟨key, value, trivial, by rw [Entries.get?, if_pos rfl], holds⟩
    · refine ⟨name, found, trivial, ?_, holds⟩
      rw [Entries.get?, if_neg, wanted]
      rintro rfl
      exact new (Entries.mem_names_of_get? wanted)

mutual

theorem decidedBy_build (value : KeyedValue) (path : PropertyPath) :
    DecidedBy (value.tree.HoldsCall path) (value.tree.build path) := by
  match value with
  | ⟨.number _, _⟩ | ⟨.string _, _⟩ | ⟨.boolean _, _⟩ =>
      refine .ok fun below text ⟨names, _, found⟩ => ?_
      cases names <;> cases found
  | ⟨.call marker, _⟩ =>
      rw [build]
      cases built : buildCall path marker with
      | ok expr =>
          intro below text holds
          obtain ⟨rfl, rfl⟩ := holdsCall_call.1 holds
          exact ⟨expr, built⟩
      | error error => exact ⟨path, marker, holdsCall_call.2 ⟨rfl, rfl⟩, built⟩
  | ⟨.object entries, distinct⟩ =>
      have built := decidedBy_buildProperties (.ofObject distinct) path
      rw [build_object]
      exact (built.map _).congr fun _ _ => holdsCall_object
termination_by sizeOf value.tree

theorem decidedBy_buildProperties (patch : KeyedPatch) (path : PropertyPath) :
    DecidedBy (patch.entries.HoldCall (fun _ => True) path)
      (buildProperties path patch.entries) := by
  match patch with
  | ⟨⟨[]⟩, _⟩ =>
      exact .ok fun below text ⟨name, value, _, found, _⟩ => nomatch found
  | ⟨⟨(key, value) :: others⟩, distinct⟩ =>
      have new : key ∉ Entries.names others := (List.nodup_cons.1 distinct.1).1
      have first := decidedBy_build ⟨value, distinct.2.1⟩ (path.child key)
      have rest := decidedBy_buildProperties (.ofObject distinct.tail) path
      rw [buildProperties_cons]
      exact (first.bind fun expr =>
        rest.map (Property.ofValue key expr :: ·)).congr
        fun _ _ => holdCall_cons new
termination_by sizeOf patch.entries

end

end PatchValue

namespace Entries

variable {path below : PropertyPath} {text : Text}

theorem holdCall_newTo (entries : Entries PatchValue) (names : List Text) :
    (entries.newTo names).HoldCall (fun _ => True) path below text ↔
      entries.HoldCall (fun name => name ∉ names) path below text := by
  constructor
  · rintro ⟨name, value, -, found, holds⟩
    have new : name ∉ names := (mem_newTo.1 (mem_of_get? found)).2
    exact ⟨name, value, new, (get?_newTo entries new).symm.trans found, holds⟩
  · rintro ⟨name, value, new, found, holds⟩
    exact ⟨name, value, trivial, (get?_newTo entries new).trans found, holds⟩

theorem holdCall_split
    {entries : Entries PatchValue} {chosen first second : Text → Prop}
    (same : ∀ name, chosen name ↔ first name ∨ second name) :
    entries.HoldCall chosen path below text ↔
      entries.HoldCall first path below text ∨
      entries.HoldCall second path below text := by
  constructor
  · rintro ⟨name, value, choice, found, holds⟩
    exact ((same name).1 choice).imp
      (fun here => ⟨name, value, here, found, holds⟩)
      (fun here => ⟨name, value, here, found, holds⟩)
  · rintro (⟨name, value, here, found, holds⟩ |
      ⟨name, value, here, found, holds⟩)
    · exact ⟨name, value, (same name).2 (.inl here), found, holds⟩
    · exact ⟨name, value, (same name).2 (.inr here), found, holds⟩

end Entries

open PatchValue in
mutual

/-- A patch is merged into a literal if its calls can be built: those of a
member at the member, and all others behind the members. -/
theorem decidedBy_mergeObject (patch : KeyedPatch) (path : PropertyPath)
    (literal : ObjectLiteral) :
    DecidedBy (patch.toValue.HoldsCall path)
      (mergeObject path patch.entries literal) := by
  match literal with
  | ⟨members, close, trailingComma⟩ =>
      have merged := decidedBy_mergeMembers patch path [] members
      have appended :=
        decidedBy_buildProperties
          (patch.newTo (members.filterMap Member.name?)) path
      rw [mergeObject_eq]
      refine (merged.bind fun kept => appended.map fun properties =>
        ObjectLiteral.mk (kept ++ properties.map .property) close
          trailingComma).congr ?_
      intro below text
      rw [Patch.toValue, holdsCall_object, KeyedPatch.entries_newTo,
        Entries.holdCall_newTo]
      apply Entries.holdCall_split
      intro name
      have either := Classical.em (name ∈ members.filterMap Member.name?)
      simp only [List.not_mem_nil, not_false_eq_true, and_true, either]

theorem decidedBy_mergeMembers (patch : KeyedPatch) (path : PropertyPath)
    (seen : List Text) (members : List Member) :
    DecidedBy
      (patch.entries.HoldCall
        (fun name => name ∈ members.filterMap Member.name? ∧ name ∉ seen) path)
      (mergeMembers path patch.entries seen members) := by
  match members with
  | [] =>
      rw [mergeMembers]
      exact .ok fun below text ⟨name, value, inside, _⟩ =>
        absurd inside.1 List.not_mem_nil
  | member :: others =>
      have rest :=
        decidedBy_mergeMembers patch path (member.name?.toList ++ seen) others
      have first : DecidedBy
          (patch.entries.HoldCall
            (fun name => name ∈ member.name?.toList ∧ name ∉ seen) path)
          (mergeNext path patch.entries seen member) := by
        cases named : member.name? with
        | none =>
            rw [mergeNext_of_seen (by simp [named])]
            exact .ok fun below text ⟨name, value, inside, _⟩ =>
              absurd inside.1 List.not_mem_nil
        | some own =>
            by_cases old : own ∈ seen
            · rw [mergeNext_of_seen (by simpa [named] using old)]
              refine .ok fun below text ⟨name, value, ⟨same, new⟩, _⟩ => new ?_
              rwa [List.mem_singleton.1 same]
            · rw [mergeNext_of_unseen named old]
              cases wanted : patch.entries.get? own with
              | none =>
                  refine .ok
                    fun below text ⟨name, value, ⟨same, _⟩, found, _⟩ => ?_
                  rw [List.mem_singleton.1 same, wanted] at found
                  contradiction
              | some value =>
                  have merged :=
                    decidedBy_mergeMember ⟨value, patch.distinct.of_get? wanted⟩
                      (path.child own) own member
                  refine merged.congr fun below text => ⟨?_, fun holds => ?_⟩
                  · rintro ⟨name, found, ⟨same, -⟩, there, holds⟩
                    obtain rfl := List.mem_singleton.1 same
                    obtain rfl := Option.some.inj (wanted.symm.trans there)
                    exact holds
                  · exact ⟨own, value, ⟨List.mem_singleton_self own, old⟩,
                      wanted, holds⟩
      rw [mergeMembers_eq]
      refine (first.bind fun next => rest.map (next :: ·)).congr
        fun below text => ?_
      apply Entries.holdCall_split
      intro name
      cases named : member.name? with
      | none => simp [named]
      | some own => simp [named]; tauto

theorem decidedBy_mergeMember
    (value : KeyedValue) (path : PropertyPath) (name : Text) (member : Member) :
    DecidedBy (value.tree.HoldsCall path)
      (mergeMember path name value.tree member) := by
  have built := decidedBy_build value path
  obtain ⟨value, distinct⟩ := value
  match member with
  | .property ⟨key, .object literal, layout⟩ =>
      cases value with
      | object nested =>
          have merged := decidedBy_mergeObject (.ofObject distinct) path literal
          rw [mergeMember_object]
          exact merged.map _
      | number _ | string _ | boolean _ | call _ =>
          rw [mergeMember_property name (.inl (by simp))]
          exact built.map _
  | .property ⟨key, .call _, layout⟩ | .property ⟨key, .number _, layout⟩ |
    .property ⟨key, .string _ _, layout⟩ | .property ⟨key, .boolean _, layout⟩ |
    .property ⟨key, .verbatim _, layout⟩ =>
      rw [mergeMember_property name (.inr (by simp))]
      exact built.map _
  | .written written =>
      rw [mergeMember_written]
      exact built.map _

end

theorem decidedBy_updateText {options : PrintOptions} {patch : KeyedPatch}
    {overwrite : Bool} {text : Text} {root : ConfigRoot}
    (located : locateText text = .ok root) :
    DecidedBy (fun path call => patch.toValue.at? path = some (.call call))
      (updateText options patch overwrite text) := by
  have holds (path : PropertyPath) (call : Text) :
      patch.toValue.at? path = some (.call call) ↔
        patch.toValue.HoldsCall .root path call := by
    constructor
    · exact fun found => ⟨path, rfl, found⟩
    · rintro ⟨names, rfl, found⟩
      exact found
  cases overwrite with
  | true =>
      have built := PatchValue.decidedBy_buildProperties patch .root
      have outcome : updateText options patch true text =
          (PatchValue.buildProperties .root patch.entries).map fun properties =>
            (root.replace (.ofProperties properties)).document.print
                options := by
        rw [updateText, located]
        simp only [bind, Except.bind, if_true, buildObject]
        cases PatchValue.buildProperties .root patch.entries <;> rfl
      rw [outcome]
      exact (built.map _).congr fun path call => (holds path call).trans
        PatchValue.holdsCall_object
  | false =>
      have merged := decidedBy_mergeObject patch .root root.literal
      have outcome : updateText options patch false text =
          (mergeObject .root patch.entries root.literal).map fun literal =>
            (root.replace literal).document.print options := by
        rw [updateText, located]
        simp only [bind, Except.bind, Bool.false_eq_true, if_false]
        cases mergeObject .root patch.entries root.literal <;> rfl
      rw [outcome]
      exact (merged.map _).congr holds

/-- An update fails if and only if some call of the patch is rejected, and then
with the error of such a call; so all documents and both ways to update accept
the same patches. -/
theorem updateText_rejects_iff {options : PrintOptions} {patch : KeyedPatch}
    {overwrite : Bool} {text : Text} {root : ConfigRoot}
    (located : locateText text = .ok root) :
    ((∃ error, updateText options patch overwrite text = .error error) ↔
      ∃ path call error, patch.toValue.at? path = some (.call call) ∧
        buildCall path call = .error error) ∧
    (∀ error, updateText options patch overwrite text = .error error →
      ∃ path call reason, patch.toValue.at? path = some (.call call) ∧
        buildCall path call = .error (.unsupported path reason) ∧
        error = .unsupported path reason) ∧
    ∀ others replace other target, locateText other = .ok target →
      ((∃ out, updateText options patch overwrite text = .ok out) ↔
        ∃ out, updateText others patch replace other = .ok out) := by
  have decided :=
    @decidedBy_updateText options patch overwrite text root located
  refine ⟨⟨?_, ?_⟩, ?_, ?_⟩
  · rintro ⟨error, failed⟩
    rw [failed] at decided
    obtain ⟨path, call, found, rejected⟩ := decided
    exact ⟨path, call, error, found, rejected⟩
  · rintro ⟨path, call, error, found, rejected⟩
    cases updated : updateText options patch overwrite text with
    | error error => exact ⟨error, rfl⟩
    | ok out =>
        obtain ⟨built, accepted⟩ :=
          decided.isOk_iff.1 ⟨out, updated⟩ path call found
        rw [rejected] at accepted
        contradiction
  · intro error failed
    rw [failed] at decided
    obtain ⟨path, call, found, rejected⟩ := decided
    obtain ⟨reason, rfl⟩ := unsupported_of_buildCall rejected
    exact ⟨path, call, reason, found, rejected, rfl⟩
  · intro others replace other target there
    rw [decided.isOk_iff, (decidedBy_updateText there).isOk_iff]

/-- A patch with a rejected call in an object and an accepted one before it. -/
def rejectedPatch : KeyedPatch where
  entries :=
    [(['b'], .call "g()".toList), (['a'], .object [(['x'], .call "g".toList)])]
  distinct := by decide

/-- A configuration with an object that `rejectedPatch` is merged into. -/
def mergedRoot : ConfigRoot :=
  { before := []
    head := "export default ".toList
    callee := ['f']
    leading := []
    literal := ⟨[.property ⟨⟨['a'], some ['a']⟩,
      .object ⟨[.property ⟨⟨['x'], some ['x']⟩, .number ['1'],
        some ⟨[], [':', ' '], []⟩⟩], some [], some false⟩,
      some ⟨[' '], [':', ' '], []⟩⟩], some [' '], some false⟩
    trailing := []
    otherArgs := []
    close := []
    trailingComma := false
    after := [] }

/-- A merge into an object of the document reports the path of the rejected
call. -/
theorem updateText_rejects_merged :
    ∃ path call reason, rejectedPatch.toValue.at? path = some (.call call) ∧
      updateText .standard rejectedPatch false
        "export default f({ a: {x: 1} })".toList =
        .error (.unsupported path reason) := by
  have located :
      locateText "export default f({ a: {x: 1} })".toList = .ok mergedRoot := by
    with_unfolding_all rfl
  have rejected : buildCall [['a'], ['x']] ['g'] =
      .error (.unsupported [['a'], ['x']] (.notACall ['g'])) := by
    with_unfolding_all rfl
  obtain ⟨fails, reports, -⟩ :=
    @updateText_rejects_iff .standard rejectedPatch false _ _ located
  obtain ⟨error, failed⟩ := fails.2 ⟨[['a'], ['x']], ['g'], _, rfl, rejected⟩
  obtain ⟨path, call, reason, found, -, rfl⟩ := reports error failed
  exact ⟨path, call, reason, found, failed⟩

end ConfigEdit
