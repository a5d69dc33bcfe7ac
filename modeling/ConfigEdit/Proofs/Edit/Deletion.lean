import ConfigEdit.Proofs.Edit.Frame
import ConfigEdit.Proofs.Edit.Removal

/-!
# A removal only deletes

The text after a removal is the text before it with some of its characters left
out.  `Pruned` says which ones may be missing: the members that are listed, and
parts of the gaps in front of members and of the closing brace.  A member that
is kept survives with its key, its separator, its value and the text behind it,
in the place where it stood.
-/

namespace ConfigEdit

/-- The path of a member that goes if it is listed: one with a name, and without
an object literal as its value. -/
def Member.leafPath? (path : PropertyPath) : Member → Option PropertyPath
  | .property ⟨key, value, _⟩ =>
      if value.kind = .object then none else some (path.child key.name)
  | .written member => member.name.map path.child

mutual

/-- The paths of all members in the value at a path that are no object literals;
the path of the value itself if it is none. -/
def Expr.leafPaths : Expr → PropertyPath → List PropertyPath
  | .object ⟨members, _, _⟩, path => Member.leafPaths members path
  | .call _, path | .number _, path | .string _ _, path | .boolean _, path
  | .verbatim _, path => [path]

def Member.leafPaths : List Member → PropertyPath → List PropertyPath
  | [], _ => []
  | .property ⟨key, value, _⟩ :: others, path =>
      Expr.leafPaths value (path.child key.name) ++ Member.leafPaths others path
  | .written member :: others, path =>
      (member.name.map path.child).toList ++ Member.leafPaths others path

end

/-- What stands between the last member and the brace. -/
def ObjectLiteral.lastGap (literal : ObjectLiteral) : Text :=
  (if literal.trailingComma = some true then [','] else []) ++
    literal.close.getD []

mutual

/-- The text is an object literal at a path with listed members deleted, and
parts of the gaps between the members. -/
inductive Pruned (listed : PropertyPath → Bool) :
    PropertyPath → ObjectLiteral → Text → Prop where
  | braces {path : PropertyPath} {literal : ObjectLiteral} {inner gap : Text} :
      PrunedMembers listed path [] literal.members inner →
      gap.Sublist literal.lastGap →
      Pruned listed path literal ('{' :: (inner ++ (gap ++ ['}'])))

/-- The text is what is left of members, the first of which stands behind the
given text. -/
inductive PrunedMembers (listed : PropertyPath → Bool) :
    PropertyPath → Text → List Member → Text → Prop where
  | nil {path : PropertyPath} {between : Text} :
      PrunedMembers listed path between [] []
  | removed {path leaf : PropertyPath} {between gap text : Text}
      {member : Member}
      {others : List Member} :
      member.leafPath? path = some leaf → listed leaf = true →
      gap.Sublist (between ++ member.leading) →
      PrunedMembers listed path [','] others text →
      PrunedMembers listed path between (member :: others) (gap ++ text)
  | kept {path : PropertyPath} {between gap text : Text} {member : Member}
      {others : List Member} :
      (∀ leaf ∈ Member.leafPaths [member] path, listed leaf = false) →
      gap.Sublist (between ++ member.leading) →
      PrunedMembers listed path [','] others text →
      PrunedMembers listed path between (member :: others)
        (gap ++ (member.body ++ (member.trailing ++ text)))
  | object {path : PropertyPath} {between gap inner text : Text} {key : Key}
      {literal : ObjectLiteral} {layout : Layout} {others : List Member} :
      gap.Sublist (between ++ layout.leading) →
      Pruned listed (path.child key.name) literal inner →
      PrunedMembers listed path [','] others text →
      PrunedMembers listed path between
        (.property ⟨key, .object literal, some layout⟩ :: others)
        (gap ++ (key.raw.getD [] ++
          (layout.separator ++ (inner ++ (layout.trailing ++ text)))))

end

section Sublists

variable {listed : PropertyPath → Bool}

mutual

theorem Pruned.sublist {path : PropertyPath} {literal : ObjectLiteral}
    {text : Text} (pruned : Pruned listed path literal text) :
    text.Sublist (Expr.object literal).source := by
  match pruned with
  | .braces members gap =>
      rw [Expr.source_object_eq, ObjectLiteral.ending, List.cons_append]
      apply List.Sublist.cons_cons
      apply members.sublist.append
      rw [← List.append_assoc]
      exact gap.append_right _

theorem PrunedMembers.sublist
    {path : PropertyPath} {between text : Text} {members : List Member}
    (pruned : PrunedMembers listed path between members text) :
    text.Sublist (Member.sources between members) := by
  match pruned with
  | .nil => exact List.nil_sublist _
  | .removed _ _ gap others =>
      rw [Member.sources, ← List.append_assoc between]
      apply gap.append
      apply List.Sublist.trans others.sublist
      rw [← List.append_assoc]
      exact List.sublist_append_right _ _
  | .kept _ gap others =>
      rw [Member.sources, ← List.append_assoc between]
      exact gap.append (others.sublist.append_left _ |>.append_left _)
  | @PrunedMembers.object _ _ _ _ _ _ key literal layout _ gap below others =>
      rw [Member.sources, ← List.append_assoc between]
      apply gap.append
      simp only [Member.body, List.append_assoc, Option.map_some,
        Option.getD_some]
      apply List.Sublist.append_left
      apply List.Sublist.append_left
      exact below.sublist.append (others.sublist.append_left _)

end

end Sublists

section Leaves

mutual

theorem Expr.prefix_of_mem_leafPaths {path leaf : PropertyPath} {value : Expr}
    (inside : leaf ∈ value.leafPaths path) : path <+: leaf := by
  match value with
  | .object ⟨members, close, trailingComma⟩ =>
      exact (Member.prefix_of_mem_leafPaths inside).1
  | .call _ | .number _ | .string _ _ | .boolean _ | .verbatim _ =>
      exact List.mem_singleton.1 inside ▸ List.prefix_refl _

theorem Member.prefix_of_mem_leafPaths {path leaf : PropertyPath}
    {members : List Member} (inside : leaf ∈ Member.leafPaths members path) :
    path <+: leaf ∧ path.length < leaf.length := by
  have below (name : Text) (leads : path.child name <+: leaf) :
      path <+: leaf ∧ path.length < leaf.length := by
    constructor
    · exact (List.prefix_append path [name]).trans leads
    · have := leads.length_le
      simp only [PropertyPath.child, List.length_append, List.length_singleton]
        at this
      omega
  match members with
  | [] => contradiction
  | .property ⟨key, value, layout⟩ :: others =>
      rcases List.mem_append.1 inside with first | later
      · exact below key.name (Expr.prefix_of_mem_leafPaths first)
      · exact Member.prefix_of_mem_leafPaths later
  | .written member :: others =>
      rcases List.mem_append.1 inside with first | later
      · obtain ⟨name, -, rfl⟩ :=
          Option.map_eq_some_iff.1 (Option.mem_toList.1 first)
        exact below name (List.prefix_refl _)
      · exact Member.prefix_of_mem_leafPaths later

end

theorem Member.mem_leafPaths {path leaf : PropertyPath} {member : Member}
    (named : member.leafPath? path = some leaf) :
    leaf ∈ Member.leafPaths [member] path := by
  match member with
  | .property ⟨key, .object literal, layout⟩ => contradiction
  | .property ⟨key, .call _, layout⟩ | .property ⟨key, .number _, layout⟩ |
    .property ⟨key, .string _ _, layout⟩ | .property ⟨key, .boolean _, layout⟩ |
    .property ⟨key, .verbatim _, layout⟩ =>
      cases named
      exact List.mem_singleton.2 rfl
  | .written member =>
      exact List.mem_append_left _ (Option.mem_toList.2 named)

/-- What becomes of one member: it goes, it stays as it is, or it is an object
literal that members are removed from. -/
theorem removeMember_cases
    (paths : RemovalSet) (path : PropertyPath) (member : Member) :
    (∃ leaf, member.leafPath? path = some leaf ∧ paths.contains leaf = true ∧
      removeMember paths path member = none) ∨
    ((∀ leaf ∈ Member.leafPaths [member] path, paths.contains leaf = false) ∧
      removeMember paths path member = some member) ∨
    ∃ key literal layout, member = .property ⟨key, .object literal, layout⟩ ∧
      removeMember paths path member = some (.property
        ⟨key, .object (removeFrom paths (path.child key.name) literal),
          layout⟩) := by
  match member with
  | .property ⟨key, .object ⟨members, close, comma⟩, layout⟩ =>
      rw [removeMember]
      split
      · exact .inr (.inr ⟨key, _, layout, rfl, rfl⟩)
      · next none' =>
          refine .inr (.inl ⟨?_, rfl⟩)
          intro leaf inside
          simp only [Member.leafPaths, Expr.leafPaths, List.append_nil]
            at inside
          obtain ⟨leads, longer⟩ := Member.prefix_of_mem_leafPaths inside
          exact contains_eq_false_of_reachesBelow (by simpa using none') leaf
            leads longer
  | .property ⟨key, .call _, layout⟩ | .property ⟨key, .number _, layout⟩ |
    .property ⟨key, .string _ _, layout⟩ | .property ⟨key, .boolean _, layout⟩ |
    .property ⟨key, .verbatim _, layout⟩ =>
      cases listed : paths.contains (path.child key.name) with
      | true =>
          exact .inl ⟨_, rfl, listed, by simpa [removeMember] using listed⟩
      | false =>
          refine .inr (.inl ⟨?_, by simpa [removeMember] using listed⟩)
          intro leaf inside
          rw [List.mem_singleton.1 inside, listed]
  | .written member =>
      cases named : member.name with
      | none => exact .inr (.inl
          ⟨by simp [Member.leafPaths, named], by simp [removeMember, named]⟩)
      | some name =>
          cases listed : paths.contains (path.child name) with
          | true =>
              refine .inl ⟨path.child name,
                by simp [Member.leafPath?, named], listed, ?_⟩
              simpa [removeMember, named] using listed
          | false =>
              refine .inr (.inl ⟨?_,
                by simpa [removeMember, named] using listed⟩)
              intro leaf inside
              obtain rfl : leaf = path.child name := by
                simpa [Member.leafPaths, named] using inside
              exact listed

mutual

theorem removeFrom_eq_self
    {paths : RemovalSet} {path : PropertyPath} {literal : ObjectLiteral}
    (none' : ∀ leaf ∈ (Expr.object literal).leafPaths path,
      paths.contains leaf = false) :
    removeFrom paths path literal = literal := by
  match literal with
  | ⟨members, close, trailingComma⟩ =>
      rw [removeFrom, removeMembers_eq_self none']
      cases members <;> rfl

theorem removeMembers_eq_self
    {paths : RemovalSet} {path : PropertyPath} {members : List Member}
    (none' : ∀ leaf ∈ Member.leafPaths members path,
      paths.contains leaf = false) :
    removeMembers paths path none members = (members, none) := by
  match members with
  | [] => rfl
  | member :: others =>
      have split : Member.leafPaths (member :: others) path =
          Member.leafPaths [member] path ++ Member.leafPaths others path := by
        cases member with
        | property entry => cases entry; simp [Member.leafPaths]
        | written member => simp [Member.leafPaths]
      rw [split] at none'
      have first := removeMember_eq_self fun leaf inside =>
        none' leaf (List.mem_append_left _ inside)
      have further := removeMembers_eq_self fun leaf inside =>
        none' leaf (List.mem_append_right _ inside)
      simp [removeMembers, first, further]

theorem removeMember_eq_self
    {paths : RemovalSet} {path : PropertyPath} {member : Member}
    (none' : ∀ leaf ∈ Member.leafPaths [member] path,
      paths.contains leaf = false) :
    removeMember paths path member = some member := by
  rcases removeMember_cases paths path member with
    ⟨leaf, named, listed, -⟩ | ⟨-, same⟩ | ⟨key, literal, layout, rfl, left⟩
  · have absent := none' leaf (Member.mem_leafPaths named)
    rw [listed] at absent
    contradiction
  · exact same
  · rw [left, removeFrom_eq_self fun leaf inside =>
      none' leaf (List.mem_append_left _ inside)]

end

end Leaves

namespace Member

variable {change : Text → Text} {member : Member}

@[simp] theorem body_mapLeading :
    (member.mapLeading change).body = member.body := by
  cases member with
  | property entry =>
      cases entry with | mk key value layout => cases layout <;> rfl
  | written member => rfl

@[simp] theorem trailing_mapLeading :
    (member.mapLeading change).trailing = member.trailing := by
  cases member with
  | property entry =>
      cases entry with | mk key value layout => cases layout <;> rfl
  | written member => rfl

theorem leading_mapLeading (kept : member.leading?.isSome = true) :
    (member.mapLeading change).leading = change member.leading := by
  obtain ⟨front, found⟩ := Option.isSome_iff_exists.1 kept
  simp [Member.leading, found]

end Member

/-- What may stay in front of the brace of a run of removed members at the end:
the text in front of the run, and the comment that is carried over it. -/
def runEnd (front : Text) : Option Text → Text
  | none => []
  | some comment => front ++ comment

/-- What is left of one member, in front of others. -/
structure PrunesMember
    (paths : RemovalSet) (path : PropertyPath) (member left : Member) :
    Prop where
  some : left.leading?.isSome = true
  leading : left.leading = member.leading
  others : ∀ (between gap text : Text) (others : List Member),
    gap.Sublist (between ++ member.leading) →
    PrunedMembers paths.contains path [','] others text →
    PrunedMembers paths.contains path between (member :: others)
      (gap ++ (left.body ++ (left.trailing ++ text)))

section Runs

theorem lineComment_sublist (text : Text) : text.lineComment.Sublist text := by
  have whole :=
    List.sublist_append_left text.lineComment text.withoutLineComment
  rwa [Text.lineComment_append] at whole

theorem withoutLineComment_sublist (text : Text) :
    text.withoutLineComment.Sublist text := by
  have whole :=
    List.sublist_append_right text.lineComment text.withoutLineComment
  rwa [Text.lineComment_append] at whole

/-- What stands in front of the brace after a removal. -/
def closeAfter (carried : Option Text) (close : Text) : Text :=
  match carried with
  | none => close
  | some comment => afterRemoved comment close

/-- What is left of an object literal: the members that are left, or an object
literal without members that keeps at most the text in front of its brace. -/
theorem removeFrom_cases
    {paths : RemovalSet} {path : PropertyPath} {members kept : List Member}
    {carried : Option Text} {close : Text} {trailingComma : Option Bool}
    (found : removeMembers paths path none members = (kept, carried)) :
    (kept = [] ∧ members ≠ [] ∧
      (removeFrom paths path ⟨members, some close, trailingComma⟩ =
        ⟨[], none, none⟩ ∨
        removeFrom paths path ⟨members, some close, trailingComma⟩ =
          ⟨[], some (closeAfter carried close), none⟩)) ∨
    ((members = [] ∨ kept ≠ []) ∧
      removeFrom paths path ⟨members, some close, trailingComma⟩ =
        ⟨kept, some (closeAfter carried close), trailingComma⟩) := by
  have result : removeFrom paths path ⟨members, some close, trailingComma⟩ =
      if kept.isEmpty && !members.isEmpty then
        ⟨[], if (closeAfter carried close).blank then none
          else some (closeAfter carried close), none⟩
      else ⟨kept, some (closeAfter carried close), trailingComma⟩ := by
    rw [removeFrom, found]
    cases carried <;> rfl
  rw [result]
  split
  · next emptied =>
      simp only [Bool.and_eq_true, List.isEmpty_iff, Bool.not_eq_true',
        ← Bool.not_eq_true] at emptied
      refine .inl ⟨emptied.1, emptied.2, ?_⟩
      split
      · exact .inl rfl
      · exact .inr rfl
  · next emptied =>
      refine .inr ⟨?_, rfl⟩
      by_cases none' : members = [] <;> simp_all

mutual

theorem removeFrom_pruned {paths : RemovalSet} {path : PropertyPath}
    {literal : ObjectLiteral} (fromText : (Expr.object literal).FromText) :
    Pruned paths.contains path literal
      (Expr.object (removeFrom paths path literal)).source := by
  match literal with
  | ⟨members, close, trailingComma⟩ =>
      obtain ⟨fromText, closed, -⟩ := fromText
      obtain ⟨close, rfl⟩ := Option.isSome_iff_exists.1 closed
      have inner (ending : Text) :=
        @removeMembers_pruned paths path members [] ending fromText
      cases found : removeMembers paths path none members with
      | mk kept carried =>
          rw [found] at inner
          have braces {ending gap : Text} (pruned : ending.Sublist (runEnd
                (if kept = [] then [] else [',']) carried))
              (shorter : gap.Sublist
                ((if trailingComma = some true then [','] else []) ++ close)) :
              Pruned paths.contains path ⟨members, some close, trailingComma⟩
                ('{' :: ((Member.sources [] kept ++ ending) ++
                  (gap ++ ['}']))) :=
            .braces (inner ending pruned) shorter
          have behind : close.withoutLineComment.Sublist
              ((if trailingComma = some true then [','] else []) ++ close) :=
            (withoutLineComment_sublist close).trans
              (List.sublist_append_right _ _)
          rcases @removeFrom_cases paths path members kept carried close
            trailingComma found with ⟨rfl, -, same | same⟩ | ⟨left, same⟩
          · rw [same, Expr.source_object]
            exact braces (List.nil_sublist _) (List.nil_sublist _)
          · rw [same, Expr.source_object]
            cases carried with
            | none =>
                exact braces (List.nil_sublist _)
                  (List.sublist_append_right _ _)
            | some comment =>
                have whole := @braces comment _ (List.Sublist.refl _) behind
                simpa [closeAfter, afterRemoved, Member.sources] using whole
          · rw [same, Expr.source_object]
            cases carried with
            | none =>
                simpa [closeAfter]
                  using braces (List.nil_sublist _) (List.Sublist.refl _)
            | some comment =>
                have more : kept ≠ [] := by
                  rcases left with rfl | more
                  · cases found
                  · exact more
                -- The comma behind the members that are left is the one in
                -- front of the run.
                have comma :
                    (if trailingComma = some true then [','] else []).Sublist
                      [','] := by
                  split
                  · exact List.Sublist.refl _
                  · exact List.nil_sublist _
                have pruned := comma.append_right comment
                have whole :=
                  braces (by simpa [runEnd, more] using pruned) behind
                simpa [closeAfter, afterRemoved] using whole
termination_by sizeOf literal

/-- Members that stand behind a member that is left, and what stays of the gap
behind the last of them. -/
theorem removeMembers_pruned
    {paths : RemovalSet} {path : PropertyPath} {members : List Member}
    {between ending : Text} (fromText : Member.AllFromText members)
    (gap : ending.Sublist (runEnd
      (if (removeMembers paths path none members).1 = [] then between
        else [',']) (removeMembers paths path none members).2)) :
    PrunedMembers paths.contains path between members
      (Member.sources between (removeMembers paths path none members).1 ++
        ending) := by
  match members with
  | [] =>
      obtain rfl := List.sublist_nil.1 gap
      exact .nil
  | member :: others =>
      obtain ⟨memberText, othersText⟩ := fromText
      rcases removeMember_pruned paths path memberText with
        ⟨leaf, named, listed, gone⟩ | ⟨left, found, prunes⟩
      · have next : removeMembers paths path none (member :: others) =
            removeMembers paths path (some member.leading.lineComment)
              others := by
          rw [removeMembers, gone]
          rfl
        have comment := (lineComment_sublist member.leading).append_left between
        rw [next] at gap ⊢
        rcases removeMembers_carried member.leading.lineComment othersText with
          ⟨none', carried, pruned⟩ | ⟨more, pruned⟩
        · rw [none', carried] at gap
          have whole :=
            PrunedMembers.removed named listed (gap.trans comment) pruned
          rw [none']
          simpa [Member.sources] using whole
        · -- The comma in front of the run stays with the next member that is
          -- left.
          obtain ⟨text, pruned, same⟩ :=
            pruned ending (by simpa [more] using gap)
          have whole := PrunedMembers.removed named listed comment pruned
          rw [same]
          simpa using whole
      · have next : removeMembers paths path none (member :: others) =
            (left :: (removeMembers paths path none others).1,
              (removeMembers paths path none others).2) := by
          rw [removeMembers, found]
        rw [next] at gap ⊢
        have further :=
          @removeMembers_pruned paths path others [','] ending othersText
            (by simpa using gap)
        have whole :=
          prunes.others between _ _ others (List.Sublist.refl _) further
        simpa [Member.sources, prunes.leading] using whole
termination_by sizeOf members

/-- Members that stand behind a removed member, and the comment that is carried
over it: it stands in front of the next member that is left. -/
theorem removeMembers_carried
    {paths : RemovalSet} {path : PropertyPath} {members : List Member}
    (comment : Text) (fromText : Member.AllFromText members) :
    ((removeMembers paths path (some comment) members).1 = [] ∧
      (removeMembers paths path (some comment) members).2 = some comment ∧
      PrunedMembers paths.contains path [','] members []) ∨
    ((removeMembers paths path (some comment) members).1 ≠ [] ∧
      ∀ ending : Text,
        ending.Sublist
          (runEnd [','] (removeMembers paths path (some comment) members).2) →
        ∃ text, PrunedMembers paths.contains path [','] members text ∧
          ∀ between, Member.sources between
            (removeMembers paths path (some comment) members).1 ++
            ending = between ++ (comment ++ text)) := by
  match members with
  | [] => exact .inl ⟨rfl, rfl, .nil⟩
  | member :: others =>
      obtain ⟨memberText, othersText⟩ := fromText
      rcases removeMember_pruned paths path memberText with
        ⟨leaf, named, listed, gone⟩ | ⟨left, found, prunes⟩
      · have next : removeMembers paths path (some comment) (member :: others) =
            removeMembers paths path (some comment) others := by
          rw [removeMembers, gone]
          rfl
        rw [next]
        rcases removeMembers_carried comment othersText with
          ⟨none', carried, pruned⟩ | ⟨more, pruned⟩
        · exact .inl ⟨none', carried,
            .removed named listed (List.nil_sublist _) pruned⟩
        · refine .inr ⟨more, fun ending gap => ?_⟩
          obtain ⟨text, pruned, same⟩ := pruned ending gap
          exact ⟨text, .removed named listed (List.nil_sublist _) pruned, same⟩
      · have next : removeMembers paths path (some comment) (member :: others) =
            (left.mapLeading (afterRemoved comment) ::
                (removeMembers paths path none others).1,
              (removeMembers paths path none others).2) := by
          rw [removeMembers, found]
        rw [next]
        refine .inr ⟨List.cons_ne_nil _ _, fun ending gap => ?_⟩
        have further :=
          @removeMembers_pruned paths path others [','] ending othersText
            (by simpa using gap)
        have front : member.leading.withoutLineComment.Sublist
            ([','] ++ member.leading) :=
          (withoutLineComment_sublist _).trans (List.sublist_append_right _ _)
        refine ⟨_, prunes.others _ _ _ others front further, fun between => ?_⟩
        simp [Member.sources, Member.leading_mapLeading prunes.some,
          prunes.leading, afterRemoved]
termination_by sizeOf members

theorem removeMember_pruned (paths : RemovalSet) (path : PropertyPath)
    {member : Member} (fromText : member.FromText) :
    (∃ leaf, member.leafPath? path = some leaf ∧ paths.contains leaf = true ∧
      removeMember paths path member = none) ∨
    ∃ left, removeMember paths path member = some left ∧
      PrunesMember paths path member left := by
  rcases removeMember_cases paths path member with
    gone | ⟨none', same⟩ | ⟨key, literal, layout, rfl, left⟩
  · exact .inl gone
  · refine .inr ⟨member, same, fromText.leading?_isSome, rfl, ?_⟩
    intro between gap text others sublist pruned
    exact .kept none' sublist pruned
  · obtain ⟨-, kept, fromText⟩ := fromText
    obtain ⟨layout, rfl⟩ := Option.isSome_iff_exists.1 kept
    refine .inr ⟨_, left, rfl, rfl, ?_⟩
    intro between gap text others sublist pruned
    have below :=
      @removeFrom_pruned paths (path.child key.name) literal fromText
    have whole :=
      @PrunedMembers.object _ _ _ _ _ _ key _ _ _ sublist below pruned
    simpa [Member.body, Member.trailing] using whole
termination_by sizeOf member

end

end Runs

/-- Wherever the expression stands, it is printed as its source. -/
def Expr.Reprints (value : Expr) : Prop :=
  ∀ options lineBreak inline line,
    value.printFrom options lineBreak inline line = value.source

/-- The member is printed as its source. -/
def Member.Reprints : Member → Prop
  | .property ⟨key, value, layout⟩ =>
      key.raw.isSome = true ∧ layout.isSome = true ∧ value.Reprints
  | .written _ => True

namespace Member

variable {member : Member}

theorem FromText.reprints (fromText : member.FromText) : member.Reprints := by
  match member with
  | .property ⟨key, value, layout⟩ =>
      obtain ⟨raw, kept, fromText⟩ := fromText
      exact ⟨raw, kept, fun _ _ _ _ => fromText.printFrom_eq⟩
  | .written member => trivial

theorem Reprints.mapLeading
    (reprints : member.Reprints) (change : Text → Text) :
    (member.mapLeading change).Reprints := by
  match member with
  | .property ⟨key, value, layout⟩ =>
      obtain ⟨raw, kept, inner⟩ := reprints
      exact ⟨raw, by simpa using kept, inner⟩
  | .written member => trivial

theorem Reprints.leading?_isSome (reprints : member.Reprints) :
    member.leading?.isSome = true := by
  match member with
  | .property ⟨key, value, layout⟩ => simpa [leading?] using reprints.2.1
  | .written member => rfl

theorem Reprints.printFrom_eq (reprints : member.Reprints)
    (options : PrintOptions) (lineBreak : LineBreak) (inline : Bool)
    (style : MemberStyle) (line : Line) :
    Member.printFrom options lineBreak inline style line member =
      member.leading ++ (member.body ++ member.trailing) := by
  match member with
  | .property ⟨key, value, layout⟩ =>
      obtain ⟨raw, kept, inner⟩ := reprints
      obtain ⟨layout, rfl⟩ := Option.isSome_iff_exists.1 kept
      obtain ⟨start, printed⟩ :=
        Member.printFrom_property options lineBreak inline style line
          value layout raw
      rw [printed, inner, Member.source_property]
  | .written member =>
      simp [Member.printFrom, leading, leading?, body, trailing]

theorem printList_of_reprints
    {options : PrintOptions} {lineBreak : LineBreak} {inline : Bool}
    {style : MemberStyle} {line : Line} {between : Text} {members : List Member}
    (all : ∀ member ∈ members, member.Reprints) :
    Member.printList options lineBreak inline style line between members =
      Member.sources between members := by
  induction members generalizing line between with
  | nil => rfl
  | cons member others induction =>
      have further : ∀ other ∈ others, other.Reprints :=
        fun other inside => all other (List.mem_cons_of_mem _ inside)
      obtain ⟨start, next, printed⟩ :=
        Member.printList_cons options lineBreak inline style line between member
          fun other inside => (further other inside).leading?_isSome
      rw [printed, (all member List.mem_cons_self).printFrom_eq,
        induction further]
      simp [Member.sources]

end Member

theorem Expr.reprints_object
    {members : List Member} {close : Text} {comma : Bool}
    (more : members ≠ []) (all : ∀ member ∈ members, member.Reprints) :
    (Expr.object ⟨members, some close, some comma⟩).Reprints := by
  intro options lineBreak inline line
  have first := (all _ (List.head_mem more)).leading?_isSome
  have last :
      (members.getLast?.any fun last => last.leading?.isNone) = false := by
    rw [List.getLast?_eq_some_getLast more]
    simp [(all _ (List.getLast_mem more)).leading?_isSome]
  rw [Expr.printFrom_object more, Member.printList_of_reprints all,
    ObjectLiteral.lastComma_of_some rfl,
    ObjectLiteral.printedClose_of_kept (List.head_mem more) first rfl, last]
  cases comma <;> simp [Expr.source_object]

mutual

theorem removeFrom_reprints (paths : RemovalSet) (path : PropertyPath)
    {literal : ObjectLiteral} (fromText : (Expr.object literal).FromText) :
    (Expr.object (removeFrom paths path literal)).Reprints := by
  match literal with
  | ⟨members, close, trailingComma⟩ =>
      obtain ⟨fromText, closed, comma⟩ := fromText
      obtain ⟨close, rfl⟩ := Option.isSome_iff_exists.1 closed
      have all := removeMembers_reprints paths path none fromText
      cases found : removeMembers paths path none members with
      | mk kept carried =>
          rw [found] at all
          have empty (close : Option Text) :
              (Expr.object ⟨[], close, none⟩).Reprints := by
            intro options lineBreak inline line
            simp [Expr.printFrom_object_nil, Expr.source_object, Member.sources]
          rcases @removeFrom_cases paths path members kept carried close
            trailingComma found with ⟨-, -, same | same⟩ | ⟨left, same⟩
          · rw [same]
            exact empty none
          · rw [same]
            exact empty _
          · rw [same]
            by_cases none' : members = []
            · subst none'
              cases found
              obtain rfl : trailingComma = none := by simpa using comma
              exact empty _
            · have more : kept ≠ [] := left.resolve_left none'
              have some : trailingComma.isSome = true := by
                simpa [List.isEmpty_eq_false_iff.2 none'] using comma
              obtain ⟨comma, rfl⟩ := Option.isSome_iff_exists.1 some
              exact Expr.reprints_object more all
termination_by sizeOf literal

theorem removeMembers_reprints (paths : RemovalSet) (path : PropertyPath)
    (carried : Option Text) {members : List Member}
    (fromText : Member.AllFromText members) :
    ∀ member ∈ (removeMembers paths path carried members).1,
      member.Reprints := by
  match members with
  | [] => simp [removeMembers]
  | member :: others =>
      obtain ⟨memberText, othersText⟩ := fromText
      cases found : removeMember paths path member with
      | none =>
          obtain ⟨comment, same⟩ := removeMembers_removed others carried found
          rw [same]
          exact removeMembers_reprints paths path (some comment) othersText
      | some left =>
          obtain ⟨change, same⟩ := removeMembers_kept others carried found
          rw [same]
          intro other inside
          rcases List.mem_cons.1 inside with rfl | inside
          · exact (removeMember_reprints paths path memberText found).mapLeading
              change
          · exact removeMembers_reprints paths path none othersText other inside
termination_by sizeOf members

theorem removeMember_reprints (paths : RemovalSet) (path : PropertyPath)
    {member left : Member} (fromText : member.FromText)
    (found : removeMember paths path member = some left) :
    left.Reprints := by
  rcases removeMember_cases paths path member with
    ⟨leaf, -, -, gone⟩ | ⟨-, same⟩ | ⟨key, literal, layout, rfl, same⟩
  · rw [gone] at found
    contradiction
  · rw [same] at found
    cases found
    exact fromText.reprints
  · rw [same] at found
    cases found
    obtain ⟨raw, kept, fromText⟩ := fromText
    exact ⟨raw, kept, removeFrom_reprints paths (path.child key.name) fromText⟩
termination_by sizeOf member

end

/-- A removal only deletes.  The text between the braces of the configuration is
pruned, what stands around it stays, and nothing is inserted; without a listed
member that is no object, nothing changes. -/
theorem removeText_prunes
    {options : PrintOptions} {dotted : List Text} {paths : RemovalSet}
    {text out : Text} (parsed : RemovalSet.parse dotted = .ok paths)
    (removed : removeText options paths text = .ok out) :
    ∃ root left, locateText text = .ok root ∧
      text = root.textBefore ++
        ((Expr.object root.literal).source ++ root.textAfter) ∧
      out = root.textBefore ++ (left ++ root.textAfter) ∧
      Pruned (PropertyPath.namedBy dotted) .root root.literal left ∧
      out.Sublist text ∧
      ((∀ leaf ∈ (Expr.object root.literal).leafPaths .root,
        PropertyPath.namedBy dotted leaf = false) → out = text) := by
  have listed : paths.contains = PropertyPath.namedBy dotted :=
    funext (RemovalSet.contains_of_parse parsed)
  rw [removeText] at removed
  cases located : locateText text with
  | error error =>
      rw [located] at removed
      contradiction
  | ok root =>
      rw [located] at removed
      obtain rfl :
          (root.replace (removeFrom paths .root root.literal)).document.print
            options = out := Except.ok.inj removed
      obtain ⟨fromText, whole⟩ := ConfigRoot.fromText_of_locateText located
      have pruned :=
        @removeFrom_pruned paths .root root.literal fromText.literal
      rw [fromText.print_replace,
        removeFrom_reprints paths .root fromText.literal]
      refine ⟨root, _, rfl, whole, rfl, listed ▸ pruned, ?_, ?_⟩
      · have inner := pruned.sublist.append_right root.textAfter
        rw [whole]
        exact inner.append_left root.textBefore
      · intro none'
        rw [← listed] at none'
        rw [removeFrom_eq_self none', ← whole]

/-- A removal of a run of members behind a comment, which stays in front of the
next member. -/
theorem removeText_prunes_run :
    ∃ root left, locateText
      "export default f(\x7b a: 1, // one\n  b: 2, c: 3,\n  d: 4 \x7d)".toList =
        .ok root ∧
      "export default f(\x7b a: 1, // one\n  d: 4 \x7d)".toList =
        root.textBefore ++ (left ++ root.textAfter) ∧
      Pruned (PropertyPath.namedBy [['b'], ['c']]) .root root.literal left := by
  have removed : removeText .standard [[['b']], [['c']]]
      "export default f(\x7b a: 1, // one\n  b: 2, c: 3,\n  d: 4 \x7d)".toList =
        .ok "export default f(\x7b a: 1, // one\n  d: 4 \x7d)".toList := by
    decide +kernel
  obtain ⟨root, left, located, -, out, pruned, -⟩ :=
    @removeText_prunes .standard [['b'], ['c']] _ _ _
      (by decide +kernel) removed
  exact ⟨root, left, located, out, pruned⟩

end ConfigEdit
