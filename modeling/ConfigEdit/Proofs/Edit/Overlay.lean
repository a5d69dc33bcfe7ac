import ConfigEdit.Proofs.Document.Reprint
import ConfigEdit.Proofs.Edit.Canonical
import ConfigEdit.Proofs.Edit.Replacement

/-!
# An update is in the document

`PatchValue.overlay` lays a patch over values: objects are overlaid entry by
entry, other values are replaced by the canonical value, and new entries follow
behind.  The values of an updated document are the values that were there with
the patch laid over them, when the patch fits (`Patch.FitsInto`): new members
follow a comment that ends on its line, and each angled value is read as itself
in front of what follows it now.  A comment over several lines behind the last
member takes the new members in.
-/

namespace ConfigEdit

namespace PatchValue

mutual

/-- The value at a path with a value of a patch laid over it. -/
def overlay (options : PrintOptions) :
    PatchValue → PropertyPath → PatchValue → PatchValue
  | .object entries, path, patch =>
      match patch.entries? with
      | some nested =>
          .object (overlayEntries options entries path nested ++
            canonicalEntries options path
              (nested.filter fun entry =>
                !(Entries.names entries).contains entry.1))
      | none => patch.canonical options path
  | .number _, path, patch => patch.canonical options path
  | .string _, path, patch => patch.canonical options path
  | .boolean _, path, patch => patch.canonical options path
  | .call _, path, patch => patch.canonical options path

/-- The entries of an object at a path with the values of a patch laid over
them. -/
def overlayEntries (options : PrintOptions) :
    List (Text × PatchValue) → PropertyPath → Entries PatchValue →
    List (Text × PatchValue)
  | [], _, _ => []
  | (key, value) :: others, path, patch =>
      (key, (patch.get? key).elim value
        fun new => overlay options value (path.child key) new) ::
        overlayEntries options others path patch

end

end PatchValue

/-- What a merge leaves of a member. -/
structure Member.MergesTo (options : PrintOptions) (member merged : Member) :
    Prop where
  leading : merged.leading? = member.leading?
  trailing : merged.trailing = member.trailing
  sound : member.Sound options → merged.Sound options
  joins : ∀ behind,
    member.JoinsTo options behind → merged.JoinsTo options behind

theorem Member.MergesTo.refl {options : PrintOptions} (member : Member) :
    member.MergesTo options member :=
  ⟨rfl, rfl, id, fun _ => id⟩

theorem ObjectLiteral.leadings_congr {literal merged : ObjectLiteral}
    (leadings : merged.members.map Member.leading? =
      literal.members.map Member.leading?) :
    merged.leadings = literal.leadings := by
  have both := congrArg (List.filterMap id) leadings
  simpa [ObjectLiteral.leadings, List.filterMap_map, Function.comp_def]
    using both

/-- Whether new members follow depends on the texts before the members only. -/
theorem ObjectLiteral.keptClose_congr {literal merged : ObjectLiteral}
    (leadings : merged.members.map Member.leading? =
      literal.members.map Member.leading?)
    (close : merged.close = literal.close) :
    merged.keptClose = literal.keptClose := by
  have source : merged.leadings = literal.leadings := leadings_congr leadings
  have last :
      (merged.members.getLast?.any fun member => member.leading?.isNone) =
        literal.members.getLast?.any fun member => member.leading?.isNone := by
    have both := congrArg (fun list => list.getLast?.any Option.isNone) leadings
    simpa [List.getLast?_map, Option.any_map] using both
  rw [keptClose, keptClose, hasAppended, hasAppended, source, last, close]

theorem exists_of_getLast?_right {kind : Type} {related : kind → kind → Prop}
    {left right : List kind} (all : List.Forall₂ related left right)
    {second : kind} (last : right.getLast? = some second) :
    ∃ first ∈ left.getLast?, related first second := by
  induction all with
  | nil => simp at last
  | cons head rest induction =>
      cases rest with
      | nil =>
          cases last
          exact ⟨_, rfl, head⟩
      | cons next further =>
          rw [List.getLast?_cons_cons] at last ⊢
          exact induction last

theorem spaced_of_merges
    {options : PrintOptions} {members kept appended : List Member}
    {close : Option Text} {trailingComma : Option Bool}
    (sound : ObjectLiteral.Sound options ⟨members, close, trailingComma⟩)
    (spaced : ObjectLiteral.Spaced options ⟨members, close, trailingComma⟩)
    (merges : List.Forall₂ (Member.MergesTo options) members kept)
    (newSound : ∀ member ∈ appended,
      member.Sound options ∧ member.trailing = [] ∧
      ∀ behind, member.JoinsTo options behind)
    (new : ∀ member ∈ appended, member.leading? = none) :
    ObjectLiteral.Sourced options ⟨kept ++ appended, close, trailingComma⟩ := by
  have leadings : kept.map Member.leading? = members.map Member.leading? := by
    clear sound spaced
    induction merges with
    | nil => rfl
    | cons first rest induction =>
        rw [List.map_cons, List.map_cons, first.leading, induction]
  constructor
  · intro member inside
    rcases List.mem_append.1 inside with inside | inside
    · obtain ⟨source, among, merges⟩ := exists_mem_of_forall₂ merges _ inside
      exact merges.sound (sound source among)
    · exact (newSound member inside).1
  · constructor
    · intro leading inside
      have source :
          ObjectLiteral.leadings ⟨kept ++ appended, close, trailingComma⟩ =
            ObjectLiteral.leadings ⟨members, close, trailingComma⟩ := by
        rw [← @ObjectLiteral.leadings_congr ⟨members, close, trailingComma⟩
          ⟨kept, close, trailingComma⟩ leadings]
        simp [ObjectLiteral.leadings, List.filterMap_append,
          List.filterMap_eq_nil_iff.2 new]
      exact spaced.leadings leading (source ▸ inside)
    · intro member inside
      rcases List.mem_append.1 inside with inside | inside
      · obtain ⟨source, among, merges⟩ := exists_mem_of_forall₂ merges _ inside
        obtain ⟨complete, joins⟩ := spaced.trailings source among
        rw [merges.trailing]
        exact ⟨complete, merges.joins _ joins⟩
      · obtain ⟨-, trailing, joins⟩ := newSound member inside
        exact ⟨trailing ▸ Trivia.nil, joins _⟩
    · exact spaced.close
    · intro comma member inside
      cases appended with
      | nil =>
          rw [List.append_nil] at inside ⊢
          rw [@ObjectLiteral.keptClose_congr ⟨members, close, trailingComma⟩
            ⟨kept, close, trailingComma⟩ leadings rfl]
          obtain ⟨source, last, merges⟩ :=
            exists_of_getLast?_right merges inside
          rw [merges.trailing]
          exact merges.joins _ (spaced.last comma source last)
      | cons first others =>
          have among : member ∈ first :: others := by
            rw [List.getLast?_append_of_ne_nil _ (List.cons_ne_nil _ _)]
              at inside
            exact List.mem_of_getLast? inside
          exact (newSound member among).2.2 _

theorem mergesTo_withValue
    {options : PrintOptions} {path : PropertyPath} {value : PatchValue}
    {expr : Expr} (entry : Property) (built : value.build path = .ok expr) :
    Member.AllEvery (ObjectLiteral.Sourced options)
      [.property (entry.withValue expr)] ∧
      (Member.property entry).MergesTo options
        (.property (entry.withValue expr)) := by
  obtain ⟨new, -⟩ := @isNew_of_build options _ _ _ built
  obtain ⟨key, old, layout⟩ := entry
  exact ⟨⟨new.every, trivial⟩, rfl, rfl,
    fun ⟨key, _⟩ => ⟨key, new.leaf.imp_right And.left⟩,
    fun behind _ => new.joins behind⟩

mutual

theorem mergeObject_every {options : PrintOptions} {path : PropertyPath}
    {patch : Entries PatchValue} {literal merged : ObjectLiteral}
    (every : (Expr.object literal).Every (ObjectLiteral.Sourced options))
    (found : mergeObject path patch literal = .ok merged) :
    (Expr.object merged).Every (ObjectLiteral.Sourced options) := by
  match literal with
  | ⟨members, close, trailingComma⟩ =>
      obtain ⟨⟨sound, spaced⟩, all⟩ := every
      obtain ⟨kept, appended, keeping, appending, rfl⟩ :=
        mergeObject_eq_ok found
      obtain ⟨all', merges⟩ := mergeMembers_every all keeping
      obtain ⟨new, newSound, -⟩ :=
        @sourced_of_buildProperties options _ _ _ appending
      exact Expr.every_object.2 ⟨spaced_of_merges sound spaced merges newSound
        (buildProperties_leading? appending),
        Member.allEvery_append.2 ⟨all', new⟩⟩
termination_by sizeOf literal

theorem mergeMembers_every {options : PrintOptions} {path : PropertyPath}
    {patch : Entries PatchValue} {seen : List Text}
    {members merged : List Member}
    (all : Member.AllEvery (ObjectLiteral.Sourced options) members)
    (found : mergeMembers path patch seen members = .ok merged) :
    Member.AllEvery (ObjectLiteral.Sourced options) merged ∧
      List.Forall₂ (Member.MergesTo options) members merged := by
  match members with
  | [] =>
      rw [mergeMembers] at found
      cases found
      exact ⟨trivial, .nil⟩
  | member :: others =>
      obtain ⟨first, further, rfl, rest, merging⟩ := mergeMembers_cons found
      obtain ⟨every, every'⟩ := Member.allEvery_cons.1 all
      obtain ⟨all', merges⟩ := mergeMembers_every every' rest
      rw [Member.allEvery_cons]
      rcases merging with ⟨rfl, -⟩ | ⟨name, value, named, -, -, merging⟩
      · exact ⟨⟨every, all'⟩, .cons (.refl _) merges⟩
      · obtain ⟨every, merges'⟩ := mergeMember_every every merging
        exact ⟨⟨every, all'⟩, .cons merges' merges⟩
termination_by sizeOf members

theorem mergeMember_every {options : PrintOptions} {path : PropertyPath}
    {name : Text} {value : PatchValue} {member merged : Member}
    (every : Member.AllEvery (ObjectLiteral.Sourced options) [member])
    (found : mergeMember path name value member = .ok merged) :
    Member.AllEvery (ObjectLiteral.Sourced options) [merged] ∧
      member.MergesTo options merged := by
  rcases mergeMember_eq_ok found with
    ⟨key, literal, layout, nested, below, rfl, -, merging, rfl⟩ |
    ⟨entry, expr, rfl, -, built, rfl⟩ | ⟨written, expr, rfl, built, rfl⟩
  · have below := mergeObject_every every.1 merging
    exact ⟨⟨below, trivial⟩, rfl, rfl, fun ⟨key, _⟩ => ⟨key, .inl ⟨_, rfl⟩⟩,
      fun _ _ => .inl ⟨_, rfl⟩⟩
  · exact mergesTo_withValue entry built
  · obtain ⟨new, -⟩ := @isNew_of_build options _ _ _ built
    exact ⟨⟨new.every, trivial⟩, rfl, rfl,
      fun _ => ⟨Key.sound_ofName options name, new.leaf.imp_right And.left⟩,
      fun behind _ => new.joins behind⟩
termination_by sizeOf member

end

namespace PatchValue

theorem names_overlayEntries
    (options : PrintOptions) (entries : Entries PatchValue)
    (path : PropertyPath) (patch : Entries PatchValue) :
    Entries.names (overlayEntries options entries path patch) =
      entries.names := by
  induction entries with
  | nil => rfl
  | cons entry others induction =>
      obtain ⟨key, value⟩ := entry
      simpa [overlayEntries, Entries.names] using induction

/-- Where not both are objects, the new value takes the place of the old one. -/
theorem overlay_eq_canonical {options : PrintOptions} {value patch : PatchValue}
    {path : PropertyPath}
    (different :
      (∀ entries, value ≠ .object entries) ∨ ∀ nested, patch ≠ .object nested) :
    overlay options value path patch = patch.canonical options path := by
  cases value with
  | object entries =>
      rcases different with no | no
      · exact absurd rfl (no entries)
      · rw [overlay]
        cases patch with
        | object nested => exact absurd rfl (no nested)
        | number _ | string _ | boolean _ | call _ => rfl
  | number _ | string _ | boolean _ | call _ => rw [overlay]

mutual

theorem Distinct.overlay {value patch : PatchValue} (distinct : value.Distinct)
    (new : patch.Distinct) (options : PrintOptions) (path : PropertyPath) :
    (overlay options value path patch).Distinct := by
  match value with
  | .object entries =>
      rw [PatchValue.overlay]
      cases patch with
      | object nested =>
          refine ⟨?_, ?_⟩
          · rw [Entries.names, List.map_append, List.nodup_append]
            have kept : List.Sublist
                ((nested.filter fun entry =>
                  !(Entries.names entries).contains entry.1).map Prod.fst)
                (nested.map Prod.fst) := List.filter_sublist.map _
            have behind := names_canonicalEntries options path
              (nested.filter fun entry =>
                !(Entries.names entries).contains entry.1)
            have front := names_overlayEntries options entries path nested
            rw [Entries.names] at behind front
            rw [behind, front]
            refine ⟨distinct.1, new.1.sublist kept, ?_⟩
            rintro name old other inside rfl
            obtain ⟨entry, member, rfl⟩ := List.mem_map.1 inside
            have absent := (List.mem_filter.1 member).2
            simp only [Entries.names, Bool.not_eq_true', List.contains_eq_mem,
              decide_eq_false_iff_not] at absent
            exact absent old
          · have kept := AllDistinct.overlay distinct.2 new.2 options path
            have added : AllDistinct
                (nested.filter fun entry =>
                  !(Entries.names entries).contains entry.1) :=
              allDistinct_iff.2 fun entry inside =>
                allDistinct_iff.1 new.2 entry (List.mem_filter.1 inside).1
            have both := added.canonical options path
            rw [allDistinct_iff] at kept both ⊢
            intro entry inside
            exact (List.mem_append.1 inside).elim (kept entry) (both entry)
      | number _ | string _ | boolean _ | call _ =>
          exact new.canonical options path
  | .number _ | .string _ | .boolean _ | .call _ =>
      rw [PatchValue.overlay]
      exact new.canonical options path

theorem AllDistinct.overlay
    {entries patch : Entries PatchValue} (distinct : AllDistinct entries)
    (new : AllDistinct patch) (options : PrintOptions) (path : PropertyPath) :
    AllDistinct (overlayEntries options entries path patch) := by
  match entries with
  | [] => trivial
  | (key, value) :: others =>
      refine ⟨?_, AllDistinct.overlay distinct.2 new options path⟩
      cases found : patch.get? key with
      | none => exact distinct.1
      | some wanted =>
          exact Distinct.overlay distinct.1
            (allDistinct_iff.1 new _ (Entries.mem_of_get? found)) options
            (path.child key)

end

end PatchValue

theorem Member.entriesIn_of_unnamed
    {member : Member} (unnamed : member.name? = none)
    (options : PrintOptions) : Member.entriesIn options [member] = [] := by
  cases member with
  | property entry => cases unnamed
  | written member =>
      simp only [name?] at unnamed
      simp [entriesIn, unnamed]

theorem Member.exists_entriesIn {member : Member} {name : Text}
    (named : member.name? = some name) (options : PrintOptions) :
    ∃ value, Member.entriesIn options [member] = [(name, value)] := by
  cases member with
  | property entry =>
      cases entry
      cases named
      exact ⟨_, rfl⟩
  | written member =>
      simp only [name?] at named
      exact ⟨.call member.text, by simp [entriesIn, named]⟩

theorem PatchValue.overlayEntries_append (options : PrintOptions)
    (left right : Entries PatchValue) (path : PropertyPath)
    (patch : Entries PatchValue) :
    overlayEntries options (left ++ right) path patch =
      overlayEntries options left path patch ++
        overlayEntries options right path patch := by
  induction left with
  | nil => rfl
  | cons entry others induction =>
      obtain ⟨key, value⟩ := entry
      rw [List.cons_append, overlayEntries, overlayEntries, induction,
        List.cons_append]

theorem entriesIn_withValue {options : PrintOptions} {path : PropertyPath}
    {value : PatchValue} {entry : Property} {expr : Expr}
    (different : (∀ nested, value ≠ .object nested) ∨
      ∀ literal, entry.value ≠ .object literal)
    (built : value.build path = .ok expr) :
    Member.entriesIn options [.property (entry.withValue expr)] =
      [(entry.key.name, PatchValue.overlay options
        (entry.value.valueIn options) path value)] := by
  obtain ⟨-, new⟩ := @isNew_of_build options _ _ _ built
  obtain ⟨key, old, layout⟩ := entry
  have canonical : PatchValue.overlay options (old.valueIn options) path value =
      value.canonical options path := by
    apply PatchValue.overlay_eq_canonical
    rcases different with no | no
    · exact .inr no
    · exact .inl (Expr.valueIn_ne_object no options)
  simp only [canonical, ← new]
  rfl

mutual

theorem valueIn_mergeObject {options : PrintOptions} {path : PropertyPath}
    {patch : Entries PatchValue} {literal merged : ObjectLiteral}
    (unique : (Expr.object literal).Every fun literal => literal.names.Nodup)
    (found : mergeObject path patch literal = .ok merged) :
    (Expr.object merged).valueIn options =
      PatchValue.overlay options ((Expr.object literal).valueIn options) path
        (.object patch) := by
  match literal with
  | ⟨members, close, trailingComma⟩ =>
      obtain ⟨kept, appended, keeping, appending, rfl⟩ :=
        mergeObject_eq_ok found
      obtain ⟨-, -, new⟩ := @sourced_of_buildProperties options _ _ _ appending
      have old : Member.entriesIn options kept = _ :=
        entriesIn_mergeMembers unique.2 unique.1 (by simp) keeping
      rw [Expr.valueIn_object, Expr.valueIn_object, PatchValue.overlay]
      simp only [PatchValue.entries?]
      rw [Member.entriesIn_append, old, new, Member.names_entriesIn]
      rfl
termination_by sizeOf literal

theorem entriesIn_mergeMembers {options : PrintOptions} {path : PropertyPath}
    {patch : Entries PatchValue} {seen : List Text}
    {members merged : List Member}
    (unique : Member.AllEvery (fun literal => literal.names.Nodup) members)
    (nodup : (members.filterMap Member.name?).Nodup)
    (apart : ∀ name ∈ members.filterMap Member.name?, name ∉ seen)
    (found : mergeMembers path patch seen members = .ok merged) :
    Member.entriesIn options merged =
      PatchValue.overlayEntries options (Member.entriesIn options members) path
        patch := by
  match members with
  | [] =>
      rw [mergeMembers] at found
      cases found
      rfl
  | member :: others =>
      obtain ⟨first, further, rfl, rest, merging⟩ := mergeMembers_cons found
      obtain ⟨unique, unique'⟩ := Member.allEvery_cons.1 unique
      have names : (member :: others).filterMap Member.name? =
          member.name?.toList ++ others.filterMap Member.name? := by
        cases named : member.name? <;> simp [named]
      rw [names] at nodup apart
      obtain ⟨-, nodup', different⟩ := List.nodup_append.1 nodup
      have behind : ∀ name ∈ others.filterMap Member.name?,
          name ∉ member.name?.toList ++ seen := by
        intro name inside among
        rcases List.mem_append.1 among with this | old
        · exact different name this name inside rfl
        · exact apart name (List.mem_append_right _ inside) old
      have later : Member.entriesIn options further = _ :=
        entriesIn_mergeMembers unique' nodup' behind rest
      rw [Member.entriesIn_cons, Member.entriesIn_cons options member, later,
        PatchValue.overlayEntries_append]
      apply congrArg (· ++ _)
      rcases merging with
        ⟨rfl, untouched⟩ | ⟨name, value, named, -, wanted, merging⟩
      · cases named : first.name? with
        | none =>
            rw [Member.entriesIn_of_unnamed named, PatchValue.overlayEntries]
        | some name =>
            have unwanted : patch.get? name = none := by
              refine (untouched name named).resolve_left (apart name ?_)
              simp [named]
            obtain ⟨old, same⟩ := Member.exists_entriesIn named options
            rw [same, PatchValue.overlayEntries, unwanted]
            rfl
      · obtain ⟨old, before, after⟩ :=
          @entriesIn_mergeMember options _ _ _ _ _ unique named merging
        rw [before, after, PatchValue.overlayEntries, wanted]
        rfl
termination_by sizeOf members

theorem entriesIn_mergeMember {options : PrintOptions} {path : PropertyPath}
    {name : Text} {value : PatchValue} {member merged : Member}
    (unique : Member.AllEvery (fun literal => literal.names.Nodup) [member])
    (named : member.name? = some name)
    (found : mergeMember path name value member = .ok merged) :
    ∃ old, Member.entriesIn options [member] = [(name, old)] ∧
      Member.entriesIn options [merged] =
        [(name, PatchValue.overlay options old path value)] := by
  rcases mergeMember_eq_ok found with
    ⟨key, literal, layout, nested, below, rfl, rfl, merging, rfl⟩ |
      ⟨⟨key, old, layout⟩, expr, rfl, different, built, rfl⟩ |
      ⟨written, expr, rfl, built, rfl⟩
  · cases named
    refine ⟨_, rfl, ?_⟩
    rw [Member.entriesIn, valueIn_mergeObject unique.1 merging]
    rfl
  · cases named
    exact ⟨_, rfl, entriesIn_withValue different built⟩
  · obtain ⟨-, new⟩ := @isNew_of_build options _ _ _ built
    refine ⟨.call written.text, ?_, ?_⟩
    · simp only [Member.name?] at named
      simp [Member.entriesIn, named]
    · rw [PatchValue.overlay, ← new]
      rfl
termination_by sizeOf member

end

/-- The literal that the patch makes of the configuration can be read: new
members follow a comment that ends on its line and are indented with trivia, and
each angled value is read as itself. -/
def Patch.FitsInto (options : PrintOptions) (root : ConfigRoot)
    (patch : Patch) : Prop :=
  ∀ merged, mergeObject .root patch.entries root.literal = .ok merged →
    (Expr.object merged).Every ObjectLiteral.Appends ∧
    root.Settles options merged

/-- An update with a patch that fits is in the document. -/
theorem readText_updateText {options : PrintOptions} {patch : KeyedPatch}
    {text out : Text} {root : ConfigRoot}
    (updated : updateText options patch false text = .ok out)
    (located : locateText text = .ok root)
    (unique :
      (Expr.object root.literal).Every fun literal => literal.names.Nodup)
    (indent : ∀ character ∈ options.indent, character = ' ' ∨ character = '\t')
    (fits : patch.FitsInto options root) :
    ∃ value, readText text = .ok value ∧
      readText out =
        .ok (PatchValue.overlay options value .root patch.toValue) := by
  obtain ⟨found, merged, located', merging, rfl⟩ := updateText_eq_ok updated
  obtain rfl : root = found := by
    rw [located] at located'
    exact Except.ok.inj located'
  obtain ⟨appends, settled⟩ := fits merged merging
  obtain ⟨inner, rest, reads, -⟩ := exists_readsNode_of_locateText located
  -- What holds of the literal that is read holds of the one made of it.
  have sourced := mergeObject_every (reads.every options) merging
  have gaps : Trivia options.indent := .of_gaps fun character inside => by
    rcases indent character inside with rfl | rfl <;> decide
  have printable :
      (Expr.object merged).Every (ObjectLiteral.Printable options) :=
    (sourced.and appends).imp fun literal ⟨⟨sound, spaced⟩, appends⟩ =>
      ⟨sound, spaced, appends, fun _ => gaps⟩
  have same : (Expr.object root.literal).valueIn .standard =
      (Expr.object root.literal).valueIn options := reads.split.1.valueIn_eq _ _
  have values : (Expr.object merged).valueIn options = _ :=
    valueIn_mergeObject unique merging
  refine ⟨_, readText_eq located (unique.distinct _), ?_⟩
  rw [same, Patch.toValue, ← values]
  refine readText_replace located printable settled ?_
  rw [values]
  exact (unique.distinct options).overlay patch.distinct options .root

/-- A configuration of one member with a comment behind it. -/
def commentedRoot : ConfigRoot :=
  { before := []
    head := "export default ".toList
    callee := ['f']
    leading := []
    literal := ⟨[.property ⟨⟨['a'], some ['a']⟩, .number ['1'],
      some ⟨['\n', ' ', ' '], [':', ' '], []⟩⟩],
      some " // one\n".toList, some false⟩
    trailing := []
    otherArgs := []
    close := []
    trailingComma := false
    after := [] }

/-- A patch with an object under a new name. -/
def nestedPatch : KeyedPatch where
  entries := [(['b'], .object [(['c'], .string ['x'])])]
  distinct := by decide

/-- An update of a literal that goes on behind a line comment. -/
theorem readText_updateText_commented :
    ∃ value,
      readText "export default f(\x7b\n  a: 1 // one\n\x7d)".toList =
        .ok value ∧
      readText
        "export default f(\x7b\n  a: 1, // one\n  b: \x7b\n    c: 'x',\n  \x7d\n\x7d)".toList =
        .ok (PatchValue.overlay .standard value .root nestedPatch.toValue) := by
  have located :
      locateText "export default f(\x7b\n  a: 1 // one\n\x7d)".toList =
        .ok commentedRoot := by with_unfolding_all rfl
  refine readText_updateText (by decide +kernel) located ?_ ?_ ?_
  · simp [commentedRoot, Expr.Every, Member.AllEvery, ObjectLiteral.names,
      Member.name?]
  · simp [PrintOptions.standard]
  · intro merged merging
    have same : mergeObject .root nestedPatch.entries commentedRoot.literal =
          .ok ⟨commentedRoot.literal.members ++
            [.property (.ofValue ['b'] (.object (.ofProperties
              [.ofValue ['c'] (.string ['x'] none)])))],
            some " // one\n".toList, some false⟩ := by
      with_unfolding_all rfl
    obtain rfl := Except.ok.inj (same.symm.trans merging)
    refine ⟨Expr.every_object.2 ⟨fun _ _ _ _ => ⟨fun lineBreak => ?_, ?_⟩, ?_⟩,
      ConfigRoot.settles_of_plain rfl _ _⟩
    · cases lineBreak <;>
        exact @Trivia.of_skipTrivia _ ['}'] (by decide +kernel) (by simp)
    · intro indent found
      obtain rfl : [' ', ' '] = indent := Option.some.inj found
      exact .of_all rfl
    · exact ⟨trivial, ⟨fun some => absurd rfl some, trivial, trivial⟩, trivial⟩

/-- A comment over several lines behind the last member takes the new member in,
and one in front of a member hands its last line on as the indentation of the
new member, which no longer parses. -/
theorem readText_updateText_takenIn :
    (updateText .standard ⟨[(['b'], .boolean true)]⟩ false
        "export default f(\x7b\n  a: true /* x\n  y */\n\x7d)".toList =
        .ok
          "export default f(\x7b\n  a: true, /* x\n  b: true\n  y */\n\x7d)".toList ∧
      readText "export default f(\x7b\n  a: true /* x\n  y */\n\x7d)".toList =
        .ok (.object [(['a'], .boolean true)]) ∧
      readText
        "export default f(\x7b\n  a: true, /* x\n  b: true\n  y */\n\x7d)".toList ≠
        .ok (PatchValue.overlay .standard (.object [(['a'], .boolean true)])
          .root (Patch.toValue ⟨[(['b'], .boolean true)]⟩))) ∧
    updateText .standard ⟨[(['b'], .boolean true)]⟩ false
        "export default f(\x7b /* x\n y */ a: 1 \x7d)".toList =
      .ok
        "export default f(\x7b /* x\n y */ a: 1,\n y */ b: true \x7d)".toList ∧
    readText "export default f(\x7b /* x\n y */ a: 1 \x7d)".toList =
      .ok (.object [(['a'], .number (.integer 1 (by decide)))]) ∧
    readText
      "export default f(\x7b /* x\n y */ a: 1,\n y */ b: true \x7d)".toList =
      .error (.malformed
        { cause := .expectedColon
          offset := 39
          position := { line := 3, column := 4 } }) := by
  refine ⟨⟨by decide +kernel, by decide +kernel, ?_⟩,
    by decide +kernel, by decide +kernel, by decide +kernel⟩
  have left : readText
      "export default f(\x7b\n  a: true, /* x\n  b: true\n  y */\n\x7d)".toList =
      .ok (.object [(['a'], .boolean true)]) := by decide +kernel
  rw [left]
  simp [PatchValue.overlay, PatchValue.entries?, PatchValue.overlayEntries,
    PatchValue.canonicalEntries, Patch.toValue, Entries.names]

end ConfigEdit
