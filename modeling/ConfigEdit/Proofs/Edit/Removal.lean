import ConfigEdit.Proofs.Document.Sourced
import ConfigEdit.Proofs.Edit.Replacement

/-!
# A removal removes what it names

`PatchValue.without` leaves out the entries at the listed paths that are no
objects.  The values of a document after a removal are the values that were
there without them, when the removal cuts cleanly
(`RemovalSet.CutsCleanly`): what is left between the members is trivia, and
each angled value is read as itself in front of what follows it now.  A line
comment that is carried to a member on the line of the removed one takes that
member in.
-/

namespace ConfigEdit

namespace PatchValue

/-- The value is an object. -/
def isObject : PatchValue → Bool
  | .object _ => true
  | .number _ | .string _ | .boolean _ | .call _ => false

mutual

/-- The value at a path without the entries at listed paths; objects stay. -/
def without (listed : PropertyPath → Bool) :
    PatchValue → PropertyPath → PatchValue
  | .object entries, path => .object (withoutEntries listed entries path)
  | .number value, _ => .number value
  | .string text, _ => .string text
  | .boolean value, _ => .boolean value
  | .call text, _ => .call text

/-- The entries of an object at a path without those at listed paths. -/
def withoutEntries (listed : PropertyPath → Bool) :
    List (Text × PatchValue) → PropertyPath → List (Text × PatchValue)
  | [], _ => []
  | (key, value) :: others, path =>
      if listed (path.child key) && !value.isObject then
        withoutEntries listed others path
      else (key, without listed value (path.child key)) ::
        withoutEntries listed others path

end

theorem without_of_isObject_eq_false {listed : PropertyPath → Bool}
    {value : PatchValue} {path : PropertyPath} (no : value.isObject = false) :
    value.without listed path = value := by
  cases value with
  | object entries => contradiction
  | number _ | string _ | boolean _ | call _ => rfl

theorem withoutEntries_append (listed : PropertyPath → Bool)
    (left right : Entries PatchValue) (path : PropertyPath) :
    withoutEntries listed (left ++ right) path =
      withoutEntries listed left path ++ withoutEntries listed right path := by
  induction left with
  | nil => rfl
  | cons entry others induction =>
      obtain ⟨key, value⟩ := entry
      rw [List.cons_append, withoutEntries, withoutEntries, induction]
      split <;> rfl

theorem names_withoutEntries (listed : PropertyPath → Bool)
    (entries : Entries PatchValue) (path : PropertyPath) :
    List.Sublist (Entries.names (withoutEntries listed entries path))
      entries.names := by
  induction entries with
  | nil => exact List.Sublist.slnil
  | cons entry others induction =>
      obtain ⟨key, value⟩ := entry
      rw [withoutEntries]
      split
      · exact induction.cons key
      · exact induction.cons_cons key

mutual

theorem Distinct.without {value : PatchValue} (distinct : value.Distinct)
    (listed : PropertyPath → Bool) (path : PropertyPath) :
    (value.without listed path).Distinct := by
  match value with
  | .object entries =>
      exact ⟨distinct.1.sublist (names_withoutEntries listed entries path),
        AllDistinct.without distinct.2 listed path⟩
  | .number _ | .string _ | .boolean _ | .call _ => trivial

theorem AllDistinct.without
    {entries : Entries PatchValue} (distinct : AllDistinct entries)
    (listed : PropertyPath → Bool) (path : PropertyPath) :
    AllDistinct (withoutEntries listed entries path) := by
  match entries with
  | [] => trivial
  | (key, value) :: others =>
      rw [withoutEntries]
      split
      · exact AllDistinct.without distinct.2 listed path
      · exact ⟨Distinct.without distinct.1 listed (path.child key),
          AllDistinct.without distinct.2 listed path⟩

end

mutual

theorem without_eq_self
    {listed : PropertyPath → Bool} {path : PropertyPath} (value : PatchValue)
    (none' : ∀ other,
      path <+: other → path.length < other.length → listed other = false) :
    value.without listed path = value := by
  match value with
  | .object entries => rw [without, withoutEntries_eq_self entries none']
  | .number _ | .string _ | .boolean _ | .call _ => rfl

theorem withoutEntries_eq_self {listed : PropertyPath → Bool}
    {path : PropertyPath} (entries : Entries PatchValue)
    (none' : ∀ other,
      path <+: other → path.length < other.length → listed other = false) :
    withoutEntries listed entries path = entries := by
  match entries with
  | [] => rfl
  | (key, value) :: others =>
      have child : path <+: path.child key := List.prefix_append path [key]
      have longer : path.length < (path.child key).length := by
        simp [PropertyPath.child]
      have kept := without_eq_self value fun other below long =>
        none' other (child.trans below) (Nat.lt_trans longer long)
      rw [withoutEntries, none' _ child longer, Bool.false_and,
        if_neg (by decide), kept, withoutEntries_eq_self others none']

end

end PatchValue

namespace Member

variable {options : PrintOptions} {change : Text → Text} {member : Member}

@[simp] theorem entriesIn_mapLeading :
    entriesIn options [member.mapLeading change] =
      entriesIn options [member] := by
  cases member with
  | property entry => cases entry; rfl
  | written member => rfl

@[simp] theorem allEvery_mapLeading {property : ObjectLiteral → Prop} :
    AllEvery property [member.mapLeading change] ↔
      AllEvery property [member] := by
  cases member with
  | property entry => cases entry; rfl
  | written member => rfl

@[simp] theorem sound_mapLeading :
    (member.mapLeading change).Sound options ↔ member.Sound options := by
  cases member with
  | property entry =>
      cases entry with
      | mk key value layout => cases layout <;> rfl
  | written member => rfl

@[simp] theorem leading?_mapLeading :
    (member.mapLeading change).leading? = member.leading?.map change := by
  cases member with
  | property entry =>
      cases entry with
      | mk key value layout => cases layout <;> rfl
  | written member => rfl

end Member

section Removal

variable {paths : RemovalSet} {path : PropertyPath}

theorem members_removeFrom (literal : ObjectLiteral) :
    (removeFrom paths path literal).members =
      (removeMembers paths path none literal.members).1 := by
  obtain ⟨members, close, trailingComma⟩ := literal
  rw [removeFrom]
  simp only
  split
  · next empty =>
      rw [Bool.and_eq_true, List.isEmpty_iff] at empty
      exact empty.1.symm
  · rfl

theorem removeMembers_removed {member : Member} (others : List Member)
    (carried : Option Text) (removed : removeMember paths path member = none) :
    ∃ comment, removeMembers paths path carried (member :: others) =
      removeMembers paths path (some comment) others := by
  rw [removeMembers, removed]
  exact ⟨_, rfl⟩

theorem removeMembers_kept
    {member kept : Member} (others : List Member) (carried : Option Text)
    (found : removeMember paths path member = some kept) :
    ∃ change, (removeMembers paths path carried (member :: others)).1 =
      kept.mapLeading change :: (removeMembers paths path none others).1 := by
  rw [removeMembers, found]
  cases carried with
  | none =>
      refine ⟨id, ?_⟩
      have same : kept.mapLeading id = kept := by
        cases kept with
        | property entry =>
            cases entry with
            | mk key value layout => cases layout <;> rfl
        | written member => rfl
      rw [same]
  | some comment => exact ⟨_, rfl⟩

/-- Below a path that no path of the set lies below, nothing is listed. -/
theorem contains_eq_false_of_reachesBelow
    (none' : paths.reachesBelow path = false) (other : PropertyPath)
    (below : path <+: other) (longer : path.length < other.length) :
    paths.contains other = false := by
  rw [RemovalSet.reachesBelow, List.any_eq_false] at none'
  cases listed : paths.contains other with
  | false => rfl
  | true =>
      have inside : other ∈ paths := by simpa using listed
      have reaches := none' other inside
      simp [longer, PropertyPath.leadsTo, below] at reaches

theorem entriesIn_removeProperty {options : PrintOptions} {entry : Property}
    (different : ∀ literal, entry.value ≠ .object literal)
    (removes : removeMember paths path (.property entry) =
      if paths.contains (path.child entry.key.name) then none
        else some (.property entry)) :
    Member.entriesIn options
      (removeMember paths path (.property entry)).toList =
      PatchValue.withoutEntries paths.contains
        (Member.entriesIn options [.property entry]) path := by
  obtain ⟨key, value, layout⟩ := entry
  have goes : (value.valueIn options).isObject = false := by
    cases shape : value.valueIn options with
    | object entries =>
        exact absurd shape (Expr.valueIn_ne_object different options entries)
    | number _ | string _ | boolean _ | call _ => rfl
  rw [removes, Member.entriesIn, PatchValue.withoutEntries, goes,
    Bool.not_false, Bool.and_true, PatchValue.without_of_isObject_eq_false goes]
  split <;> rfl

mutual

theorem valueIn_removeFrom (options : PrintOptions) (paths : RemovalSet)
    (path : PropertyPath) (literal : ObjectLiteral) :
    (Expr.object (removeFrom paths path literal)).valueIn options =
      ((Expr.object literal).valueIn options).without paths.contains path := by
  match literal with
  | ⟨members, close, trailingComma⟩ =>
      rw [Expr.valueIn_object, Expr.valueIn_object, members_removeFrom,
        PatchValue.without,
        entriesIn_removeMembers options paths path none members]

theorem entriesIn_removeMembers (options : PrintOptions) (paths : RemovalSet)
    (path : PropertyPath) (carried : Option Text) (members : List Member) :
    Member.entriesIn options (removeMembers paths path carried members).1 =
      PatchValue.withoutEntries paths.contains
        (Member.entriesIn options members) path := by
  match members with
  | [] => rfl
  | member :: others =>
      have left := entriesIn_removeMember options paths path member
      rw [Member.entriesIn_cons options member,
        PatchValue.withoutEntries_append, ← left]
      cases found : removeMember paths path member with
      | none =>
          obtain ⟨comment, same⟩ := removeMembers_removed others carried found
          rw [same, entriesIn_removeMembers options paths path
            (some comment) others]
          rfl
      | some kept =>
          obtain ⟨change, same⟩ := removeMembers_kept others carried found
          rw [same, Member.entriesIn_cons,
            entriesIn_removeMembers options paths path none others,
            Member.entriesIn_mapLeading]
          rfl

theorem entriesIn_removeMember (options : PrintOptions) (paths : RemovalSet)
    (path : PropertyPath) (member : Member) :
    Member.entriesIn options (removeMember paths path member).toList =
      PatchValue.withoutEntries paths.contains
        (Member.entriesIn options [member]) path := by
  match member with
  | .property ⟨key, .object literal, layout⟩ =>
      have stays :
          (PatchValue.isObject ((Expr.object literal).valueIn options)) =
            true := by
        rw [Expr.valueIn_object]
        rfl
      rw [Member.entriesIn, PatchValue.withoutEntries, stays, Bool.not_true,
        Bool.and_false, if_neg (by decide), removeMember]
      split
      · rw [← valueIn_removeFrom options paths (path.child key.name) literal]
        rfl
      · next none' =>
          have kept :=
            PatchValue.without_eq_self ((Expr.object literal).valueIn options)
              (contains_eq_false_of_reachesBelow (by simpa using none'))
          rw [kept]
          rfl
  | .property ⟨key, .call _, layout⟩ | .property ⟨key, .number _, layout⟩ |
    .property ⟨key, .string _ _, layout⟩ | .property ⟨key, .boolean _, layout⟩ |
    .property ⟨key, .verbatim _, layout⟩ =>
      exact entriesIn_removeProperty (by simp) rfl
  | .written member =>
      cases named : member.name with
      | none => simp [removeMember, Member.entriesIn, named,
          PatchValue.withoutEntries]
      | some name =>
          simp only [removeMember, Member.entriesIn, named,
            PatchValue.withoutEntries, PatchValue.isObject, Bool.not_false,
            Bool.and_true]
          split
          · rfl
          · simp [Member.entriesIn, named, PatchValue.without]

end

mutual

theorem Expr.FromText.every {value : Expr} (fromText : value.FromText) :
    value.Every fun literal => Member.AllFromText literal.members := by
  match value with
  | .object ⟨members, close, trailingComma⟩ =>
      exact ⟨fromText.1, Member.AllFromText.every fromText.1⟩
  | .call _ | .number _ | .string _ _ | .boolean _ | .verbatim _ => trivial

theorem Member.AllFromText.every
    {members : List Member} (fromText : Member.AllFromText members) :
    Member.AllEvery (fun literal => Member.AllFromText literal.members)
      members := by
  match members with
  | [] => trivial
  | .property ⟨key, value, layout⟩ :: others =>
      obtain ⟨⟨-, -, below⟩, further⟩ := fromText
      exact ⟨Expr.FromText.every below, Member.AllFromText.every further⟩
  | .written member :: others =>
      exact @Member.AllFromText.every others fromText.2

end

/-- A member that comes from a text and can be read. -/
structure Member.Kept (options : PrintOptions) (member : Member) : Prop where
  sound : member.Sound options
  leading : member.leading?.isSome = true

/-- All members come from a text and can be read. -/
def ObjectLiteral.Kept (options : PrintOptions)
    (literal : ObjectLiteral) : Prop :=
  ∀ member ∈ literal.members, member.Kept options

mutual

theorem removeFrom_every {options : PrintOptions} (paths : RemovalSet)
    (path : PropertyPath) {literal : ObjectLiteral}
    (every : (Expr.object literal).Every (ObjectLiteral.Kept options)) :
    (Expr.object (removeFrom paths path literal)).Every
      (ObjectLiteral.Kept options) := by
  match literal with
  | ⟨members, close, trailingComma⟩ =>
      rw [Expr.every_object, ObjectLiteral.Kept, members_removeFrom]
      exact removeMembers_every paths path none every.1 every.2

theorem removeMembers_every {options : PrintOptions} (paths : RemovalSet)
    (path : PropertyPath) (carried : Option Text) {members : List Member}
    (kept : ∀ member ∈ members, member.Kept options)
    (all : Member.AllEvery (ObjectLiteral.Kept options) members) :
    (∀ member ∈ (removeMembers paths path carried members).1,
      member.Kept options) ∧
      Member.AllEvery (ObjectLiteral.Kept options)
        (removeMembers paths path carried members).1 := by
  match members with
  | [] => exact ⟨by simp [removeMembers], trivial⟩
  | member :: others =>
      obtain ⟨first, second⟩ := Member.allEvery_cons.1 all
      have kept' : ∀ other ∈ others, other.Kept options :=
        fun other inside => kept other (List.mem_cons_of_mem _ inside)
      cases found : removeMember paths path member with
      | none =>
          obtain ⟨comment, same⟩ := removeMembers_removed others carried found
          rw [same]
          exact removeMembers_every paths path (some comment) kept' second
      | some left =>
          obtain ⟨change, same⟩ := removeMembers_kept others carried found
          obtain ⟨⟨sound, leading⟩, every⟩ :=
            removeMember_every paths path
              (kept member List.mem_cons_self) first found
          obtain ⟨others, further⟩ :=
            removeMembers_every paths path none kept' second
          rw [same, Member.allEvery_cons, Member.allEvery_mapLeading]
          refine ⟨?_, every, further⟩
          intro other inside
          rcases List.mem_cons.1 inside with rfl | inside
          · exact ⟨Member.sound_mapLeading.2 sound, by simpa using leading⟩
          · exact others other inside

theorem removeMember_every {options : PrintOptions} (paths : RemovalSet)
    (path : PropertyPath) {member left : Member} (kept : member.Kept options)
    (every : Member.AllEvery (ObjectLiteral.Kept options) [member])
    (found : removeMember paths path member = some left) :
    left.Kept options ∧
    Member.AllEvery (ObjectLiteral.Kept options) [left] := by
  match member with
  | .property ⟨key, .object literal, layout⟩ =>
      rw [removeMember] at found
      split at found
      · cases found
        have below := removeFrom_every paths (path.child key.name) every.1
        exact ⟨⟨⟨kept.sound.1, .inl ⟨_, rfl⟩⟩, kept.leading⟩, below, trivial⟩
      · cases found
        exact ⟨kept, every⟩
  | .property ⟨key, .call _, layout⟩ | .property ⟨key, .number _, layout⟩ |
    .property ⟨key, .string _ _, layout⟩ | .property ⟨key, .boolean _, layout⟩ |
    .property ⟨key, .verbatim _, layout⟩ =>
      simp only [removeMember, Option.ite_none_left_eq_some, Option.some.injEq]
        at found
      obtain ⟨-, rfl⟩ := found
      exact ⟨kept, every⟩
  | .written member =>
      rw [removeMember] at found
      split at found
      · simp only [Option.ite_none_left_eq_some, Option.some.injEq] at found
        obtain ⟨-, rfl⟩ := found
        exact ⟨kept, every⟩
      · cases found
        exact ⟨kept, every⟩

end

theorem RemovalSet.mem_insert {paths : RemovalSet} {path other : PropertyPath} :
    other ∈ paths.insert path ↔ other ∈ paths ∨ other = path := by
  rw [insert]
  split
  · next inside =>
      constructor
      · exact .inl
      · rintro (old | rfl)
        · exact old
        · simpa using inside
  · simp

theorem RemovalSet.mem_ofList {list : List PropertyPath} {path : PropertyPath} :
    path ∈ ofList list ↔ path ∈ list := by
  have from' (paths : RemovalSet) :
      path ∈ list.foldl insert paths ↔ path ∈ paths ∨ path ∈ list := by
    induction list generalizing paths with
    | nil => simp
    | cons first others induction =>
        rw [List.foldl_cons, induction, mem_insert, List.mem_cons, or_assoc]
  rw [ofList, from' []]
  simp

/-- Some text of the list names the path. -/
def PropertyPath.namedBy (dotted : List Text) (path : PropertyPath) : Bool :=
  dotted.any fun text => ofDotted? text = some path

theorem mem_of_mapM_parse {dotted : List Text} {list : List PropertyPath}
    (parsed : dotted.mapM PropertyPath.parse = .ok list) (path : PropertyPath) :
    path ∈ list ↔ ∃ text ∈ dotted, PropertyPath.ofDotted? text = some path := by
  induction dotted generalizing list with
  | nil =>
      cases parsed
      simp
  | cons text others induction =>
      rw [List.mapM_cons, PropertyPath.parse] at parsed
      cases first : PropertyPath.ofDotted? text with
      | none =>
          rw [first] at parsed
          contradiction
      | some named =>
          cases further : others.mapM PropertyPath.parse with
          | error error =>
              rw [first, further] at parsed
              contradiction
          | ok rest =>
              rw [first, further] at parsed
              cases parsed
              simp [first, induction further, eq_comm]

theorem RemovalSet.contains_of_parse {dotted : List Text} {paths : RemovalSet}
    (parsed : RemovalSet.parse dotted = .ok paths) (path : PropertyPath) :
    paths.contains path = path.namedBy dotted := by
  rw [parse] at parsed
  cases listed : dotted.mapM PropertyPath.parse with
  | error error =>
      rw [listed] at parsed
      contradiction
  | ok list =>
      rw [listed] at parsed
      cases parsed
      rw [Bool.eq_iff_iff, List.contains_iff_mem, mem_ofList,
        mem_of_mapM_parse listed]
      simp [PropertyPath.namedBy]

end Removal

/-- What a removal leaves of the configuration can be read: trivia is left
between the members, and each angled value is read as itself. -/
structure RemovalSet.CutsCleanly (options : PrintOptions) (root : ConfigRoot)
    (paths : RemovalSet) : Prop where
  spaced : (Expr.object (removeFrom paths .root root.literal)).Every
    (ObjectLiteral.Spaced options)
  settled : root.Settles options (removeFrom paths .root root.literal)

/-- A removal that cuts cleanly removes what is listed, and no objects. -/
theorem readText_removeText {options : PrintOptions} {dotted : List Text}
    {paths : RemovalSet} {text out : Text} {root : ConfigRoot}
    (parsed : RemovalSet.parse dotted = .ok paths)
    (removed : removeText options paths text = .ok out)
    (located : locateText text = .ok root) (unique :
      (Expr.object root.literal).Every fun literal => literal.names.Nodup)
    (clean : paths.CutsCleanly options root) :
    ∃ value, readText text = .ok value ∧
      readText out =
        .ok (value.without (PropertyPath.namedBy dotted) .root) := by
  obtain rfl :
      (root.replace (removeFrom paths .root root.literal)).document.print
        options = out := by
    rw [removeText, located] at removed
    exact Except.ok.inj removed
  obtain ⟨inner, rest, reads, -⟩ := exists_readsNode_of_locateText located
  have fromText := reads.split.1
  have kept : (Expr.object root.literal).Every (ObjectLiteral.Kept options) :=
    ((reads.every options).and fromText.every).imp
        fun literal ⟨⟨sound, _⟩, all⟩ member inside =>
      ⟨sound member inside,
        (Member.allFromText_iff.1 all member inside).leading?_isSome⟩
  have printable : (Expr.object (removeFrom paths .root root.literal)).Every
      (ObjectLiteral.Printable options) := by
    apply ((removeFrom_every paths .root kept).and clean.spaced).imp
    rintro literal ⟨kept, spaced⟩
    -- Without new members, the conditions on these ask for nothing.
    have old : ∀ member ∈ literal.members, member.leading? ≠ none :=
      fun member inside =>
        Option.isSome_iff_ne_none.1 (kept member inside).leading
    exact ⟨fun member inside => (kept member inside).sound, spaced,
      fun _ member inside new => absurd new (old member inside),
      fun ⟨member, inside, new⟩ => absurd new (old member inside)⟩
  have same : (Expr.object root.literal).valueIn .standard =
      (Expr.object root.literal).valueIn options := fromText.valueIn_eq _ _
  have values := valueIn_removeFrom options paths .root root.literal
  have listed : paths.contains = PropertyPath.namedBy dotted :=
    funext (RemovalSet.contains_of_parse parsed)
  refine ⟨_, readText_eq located (unique.distinct _), ?_⟩
  rw [same, ← listed, ← values]
  refine readText_replace located printable clean.settled ?_
  rw [values]
  exact (unique.distinct options).without _ _

/-- A configuration of two members with a comment between them. -/
def annotatedRoot : ConfigRoot :=
  { before := []
    head := "export default ".toList
    callee := ['f']
    leading := []
    literal := ⟨[.property ⟨⟨['a'], some ['a']⟩, .number ['1'],
        some ⟨['\n', ' ', ' '], [':', ' '], []⟩⟩,
      .property ⟨⟨['b'], some ['b']⟩, .number ['2'],
        some ⟨" // one\n  ".toList, [':', ' '], []⟩⟩], some ['\n'], some true⟩
    trailing := []
    otherArgs := []
    close := []
    trailingComma := false
    after := [] }

/-- A removal behind a line comment, which stays where it is. -/
theorem readText_removeText_commented :
    ∃ value,
      readText "export default f(\x7b\n  a: 1, // one\n  b: 2,\n\x7d)".toList =
        .ok value ∧
      readText "export default f(\x7b\n  a: 1, // one\n\x7d)".toList =
        .ok (value.without (PropertyPath.namedBy [['b']]) .root) := by
  have located : locateText
      "export default f(\x7b\n  a: 1, // one\n  b: 2,\n\x7d)".toList =
      .ok annotatedRoot := by with_unfolding_all rfl
  refine @readText_removeText .standard [['b']] [[['b']]] _ _ _ rfl
    (by decide +kernel) located ?_ ⟨?_, ?_⟩
  · simp [annotatedRoot, Expr.Every, Member.AllEvery, ObjectLiteral.names,
      Member.name?]
  · have left : removeFrom [[['b']]] .root annotatedRoot.literal =
        ⟨[.property ⟨⟨['a'], some ['a']⟩, .number ['1'],
          some ⟨['\n', ' ', ' '], [':', ' '], []⟩⟩],
          some " // one\n".toList, some true⟩ := by with_unfolding_all rfl
    rw [left]
    refine ⟨⟨?_, ?_, ?_, by simp⟩, trivial, trivial⟩
    · intro leading inside
      obtain rfl : leading = ['\n', ' ', ' '] := by
        simpa [ObjectLiteral.leadings, Member.leading?] using inside
      exact .of_all rfl
    · intro member inside
      obtain rfl := List.mem_singleton.1 inside
      exact ⟨Trivia.nil, .inr .nil_right⟩
    · exact @Trivia.of_skipTrivia _ ['}'] (by decide +kernel) (by simp)
  · exact ConfigRoot.settles_of_plain rfl _ _

/-- The line comment that is carried to the brace on the line of the removed
member takes the brace in. -/
theorem readText_removeText_takenIn :
    removeText .standard
      [[['b']]] "export default f(\x7b a: true, // x\n  b: true \x7d)".toList =
      .ok "export default f(\x7b a: true // x \x7d)".toList ∧
    readText "export default f(\x7b a: true, // x\n  b: true \x7d)".toList =
      .ok (.object [(['a'], .boolean true), (['b'], .boolean true)]) ∧
    readText "export default f(\x7b a: true // x \x7d)".toList ≠
      .ok (PatchValue.without (PropertyPath.namedBy [['b']])
        (.object [(['a'], .boolean true), (['b'], .boolean true)]) .root) := by
  refine ⟨by decide +kernel, by decide +kernel, ?_⟩
  have failed : (readText
      "export default f(\x7b a: true // x \x7d)".toList).toOption.isSome =
        false := by
    decide +kernel
  intro read
  rw [read] at failed
  contradiction

end ConfigEdit
