import ConfigEdit.Proofs.Edit.Frame
import ConfigEdit.Proofs.Edit.Overlay
import ConfigEdit.Proofs.Edit.Removal
import ConfigEdit.Proofs.Scan.LineTrivia

/-!
# One more member

A patch with one value at a path puts one new member behind the members of the
object literal that the path leads into, and leaves everything else alone.
-/

namespace ConfigEdit

namespace ObjectLiteral

/-- The object literal that is reached by keys, through properties with object
literals as their values. -/
def at? : PropertyPath → ObjectLiteral → Option ObjectLiteral
  | [], literal => some literal
  | key :: keys, literal =>
      match literal.property? key with
      | some ⟨_, .object inner, _⟩ => at? keys inner
      | _ => none

/-- The second literal is the first one with a new member behind those of a
target that is reached by keys, each of which names one member. -/
inductive Extends (new : Member) (target : ObjectLiteral) :
    PropertyPath → ObjectLiteral → ObjectLiteral → Prop where
  | here : Extends new target [] target
      ⟨target.members ++ [new], target.close, target.trailingComma⟩
  | deeper {keys : PropertyPath} {key : Key} {inner extended : ObjectLiteral}
      {layout : Option Layout} {left right : List Member} {close : Option Text}
      {trailingComma : Option Bool} :
      (∀ member ∈ left ++ right, member.name? ≠ some key.name) →
      Extends new target keys inner extended →
      Extends new target (key.name :: keys)
        ⟨left ++ .property ⟨key, .object inner, layout⟩ :: right, close,
          trailingComma⟩
        ⟨left ++ .property ⟨key, .object extended, layout⟩ :: right, close,
          trailingComma⟩

theorem exists_of_property? {literal : ObjectLiteral} {name : Text}
    {entry : Property} (found : literal.property? name = some entry)
    (unique : literal.names.Nodup) :
    entry.key.name = name ∧
    ∃ left right, literal.members = left ++ .property entry :: right ∧
      ∀ member ∈ left ++ right, member.name? ≠ some name := by
  obtain ⟨left, member, right, split, matched, -⟩ :=
    List.findSome?_eq_some_iff.1 found
  obtain ⟨rfl, named⟩ : member = .property entry ∧ entry.key.name = name := by
    cases member with
    | property other =>
        simp only [Option.ite_none_right_eq_some, Option.some.injEq] at matched
        obtain ⟨named, rfl⟩ := matched
        exact ⟨rfl, named⟩
    | written other => contradiction
  refine ⟨named, left, right, split, ?_⟩
  have this : Member.name? (.property entry) = some name := congrArg some named
  rw [names, split, List.filterMap_append, List.filterMap_cons_some this]
    at unique
  have absent := (List.nodup_cons.1 (List.perm_middle.nodup_iff.1 unique)).1
  rw [← List.filterMap_append] at absent
  intro member inside same
  exact absent (List.mem_filterMap.2 ⟨member, inside, same⟩)

end ObjectLiteral

section Merge

variable {path : PropertyPath} {patch : Entries PatchValue}

/-- The patch is merged into the members behind those that it does not name. -/
theorem mergeMembers_append {left : List Member}
    (absent : ∀ member ∈ left, ∀ name ∈ member.name?, patch.get? name = none)
    (seen : List Text) (others : List Member) :
    ∃ further, (∀ name ∈ further, name ∈ seen ∨ patch.get? name = none) ∧
      mergeMembers path patch seen (left ++ others) =
        (mergeMembers path patch further others).map (left ++ ·) := by
  induction left generalizing seen with
  | nil =>
      refine ⟨seen, fun name inside => .inl inside, ?_⟩
      rw [List.nil_append]
      cases mergeMembers path patch seen others <;> rfl
  | cons member left induction =>
      have first := absent member List.mem_cons_self
      obtain ⟨further, names, merged⟩ :=
        induction (fun other inside =>
          absent other (List.mem_cons_of_mem _ inside))
          (member.name?.toList ++ seen)
      refine ⟨further, ?_, ?_⟩
      · intro name inside
        rcases names name inside with among | unwanted
        · rcases List.mem_append.1 among with this | old
          · exact .inr (first name (Option.mem_toList.1 this))
          · exact .inl old
        · exact .inr unwanted
      · rw [List.cons_append, mergeMembers, merged]
        cases named : member.name? with
        | none => cases mergeMembers path patch further others <;> rfl
        | some name =>
            simp only [first name named, ite_self]
            cases mergeMembers path patch further others <;> rfl

theorem mergeObject_of_fresh {literal : ObjectLiteral} {leaf : Text}
    {value : PatchValue} {expr : Expr} (fresh : leaf ∉ literal.names)
    (built : value.build (path.child leaf) = .ok expr) :
    mergeObject path [(leaf, value)] literal =
      .ok ⟨literal.members ++ [.property (.ofValue leaf expr)], literal.close,
        literal.trailingComma⟩ := by
  obtain ⟨members, close, trailingComma⟩ := literal
  have kept : mergeMembers path [(leaf, value)] [] members = .ok members := by
    refine mergeMembers_of_absent [] fun member inside name named => ?_
    have different : leaf ≠ name := by
      rintro rfl
      exact fresh (List.mem_filterMap.2 ⟨member, inside, named⟩)
    simp [Entries.get?, different]
  have appended :
      appendedProperties path (members.filterMap Member.name?) [(leaf, value)] =
        .ok [.ofValue leaf expr] := by
    have absent : (members.filterMap Member.name?).contains leaf = false := by
      simpa [ObjectLiteral.names] using fresh
    rw [appendedProperties, List.filter_cons_of_pos (by rw [absent]; rfl),
      List.filter_nil, PatchValue.buildProperties, built]
    rfl
  rw [mergeObject, kept, appended]
  rfl

/-- An object under a name is merged into the one object literal of that
name. -/
theorem mergeObject_into
    {nested : Entries PatchValue} {key : Key} {inner merged : ObjectLiteral}
    {layout : Option Layout} {left right : List Member} {close : Option Text}
    {trailingComma : Option Bool}
    (absent : ∀ member ∈ left ++ right, member.name? ≠ some key.name)
    (merging : mergeObject (path.child key.name) nested inner = .ok merged) :
    mergeObject path [(key.name, .object nested)]
        ⟨left ++ .property ⟨key, .object inner, layout⟩ :: right, close,
          trailingComma⟩ =
      .ok ⟨left ++ .property ⟨key, .object merged, layout⟩ :: right, close,
        trailingComma⟩ := by
  have unwanted : ∀ member ∈ left ++ right, ∀ name ∈ member.name?,
      Entries.get? [(key.name, PatchValue.object nested)] name = none := by
    intro member inside name named
    have different : key.name ≠ name := by
      rintro rfl
      exact absent member inside named
    simp [Entries.get?, different]
  obtain ⟨seen, names, kept⟩ := @mergeMembers_append path _ _
    (fun member inside => unwanted member (List.mem_append_left _ inside)) []
    (.property ⟨key, .object inner, layout⟩ :: right)
  have further (seen : List Text) := @mergeMembers_of_absent path _ right seen
    fun member inside => unwanted member (List.mem_append_right _ inside)
  have new : key.name ∉ seen := by
    intro old
    simpa [Entries.get?] using names key.name old
  have appended (names : List Text) (known : key.name ∈ names) :
      appendedProperties path names [(key.name, .object nested)] = .ok [] := by
    rw [appendedProperties, List.filter_cons_of_neg (by simpa using known)]
    rfl
  have member : mergeMembers path [(key.name, .object nested)] seen
      (.property ⟨key, .object inner, layout⟩ :: right) =
        .ok (.property ⟨key, .object merged, layout⟩ :: right) := by
    rw [mergeMembers, further]
    simp [Member.name?, new, Entries.get?, mergeMember, merging]
  rw [mergeObject, kept, member, appended]
  · simp [Except.map]
  · exact List.mem_filterMap.2 ⟨.property ⟨key, .object inner, layout⟩,
      by simp, rfl⟩

end Merge

theorem mergeObject_insertBelow
    {keys path : PropertyPath} {literal target : ObjectLiteral}
    {leaf : Text} {value : PatchValue} {expr : Expr}
    (reached : literal.at? keys = some target)
    (unique : (Expr.object literal).Every fun literal => literal.names.Nodup)
    (fresh : leaf ∉ target.names)
    (built : value.build (path ++ (keys ++ [leaf])) = .ok expr) :
    ∃ merged, mergeObject path (Patch.insertBelow leaf value keys []) literal =
      .ok merged ∧
      ObjectLiteral.Extends (.property (.ofValue leaf expr)) target keys literal
        merged := by
  induction keys generalizing path literal with
  | nil =>
      cases reached
      exact ⟨_, mergeObject_of_fresh fresh built, .here⟩
  | cons key keys induction =>
      rw [ObjectLiteral.at?] at reached
      split at reached
      · next entry inner layout found =>
          obtain ⟨rfl, left, right, split, absent⟩ :=
            ObjectLiteral.exists_of_property? found
              (Expr.every_object.1 unique).1
          obtain ⟨members, close, trailingComma⟩ := literal
          simp only at split
          subst split
          have below :=
            (Member.allEvery_append.1 (Expr.every_object.1 unique).2).2.1
          obtain ⟨merged, merging, extends'⟩ :=
            @induction (path.child entry.name) _ reached below
              (by simpa [PropertyPath.child] using built)
          exact ⟨_, mergeObject_into absent merging, .deeper absent extends'⟩
      · contradiction

theorem ObjectLiteral.appends_of_kept {literal : ObjectLiteral}
    (kept : ∀ member ∈ literal.members, member.leading?.isSome = true) :
    literal.Appends := by
  intro _ member inside new
  simpa [new] using kept member inside

/-- No block comment stands in front of a member or of the brace. -/
structure ObjectLiteral.LineComments (literal : ObjectLiteral) : Prop where
  leadings : ∀ leading ∈ literal.leadings, LineTrivia leading
  close : LineTrivia (literal.close.getD [])

/-- A new member can be read behind members with line comments only. -/
theorem ObjectLiteral.LineComments.appends {literal : ObjectLiteral}
    (comments : literal.LineComments) {new : Member}
    (fresh : new.leading? = none) :
    ObjectLiteral.Appends ⟨literal.members ++ [new], literal.close,
      literal.trailingComma⟩ := by
  have same : ObjectLiteral.leadings ⟨literal.members ++ [new], literal.close,
      literal.trailingComma⟩ = literal.leadings := by
    simp [ObjectLiteral.leadings, List.filterMap_append, fresh]
  intro _ member _ _
  refine ⟨fun lineBreak => comments.close.lineComment lineBreak,
    fun indent found => ?_⟩
  rw [memberIndent?, same] at found
  obtain ⟨leading, inside, copied⟩ := List.exists_of_findSome?_eq_some found
  simp only [Option.ite_none_right_eq_some, Option.some.injEq] at copied
  exact copied.2 ▸ (comments.leadings leading inside).lastLine

/-- What can be read behind the members of the target can be read in the
extended literal. -/
theorem ObjectLiteral.Extends.every_appends
    {new : Member} {target literal merged : ObjectLiteral}
    {keys : PropertyPath} (extended : Extends new target keys literal merged)
    (fromText : (Expr.object literal).FromText)
    (leaf : Member.AllEvery ObjectLiteral.Appends [new])
    (appends :
      ObjectLiteral.Appends ⟨target.members ++ [new], target.close,
        target.trailingComma⟩) :
    (Expr.object merged).Every ObjectLiteral.Appends := by
  have all {members : List Member} (fromText : Member.AllFromText members) :
      Member.AllEvery ObjectLiteral.Appends members :=
    (Member.AllFromText.every fromText).imp fun literal fromText =>
      appends_of_kept fromText.leading?_isSome
  induction extended with
  | here =>
      have kept := all ((Expr.fromText_object _).1 fromText).1
      exact Expr.every_object.2 ⟨appends, Member.allEvery_append.2 ⟨kept, leaf⟩⟩
  | @deeper keys key inner merged layout left right close trailingComma _ _
        induction =>
      obtain ⟨leftText, ⟨raw, kept, below⟩, rightText⟩ :=
        Member.allFromText_append.1 fromText.1
      refine Expr.every_object.2 ⟨appends_of_kept ?_, Member.allEvery_append.2
        ⟨all leftText, induction below, all rightText⟩⟩
      have this :
          (Member.property ⟨key, .object merged, layout⟩).leading?.isSome =
            true := by
        simpa [Member.leading?] using kept
      exact List.forall_mem_append.2 ⟨leftText.leading?_isSome,
        List.forall_mem_cons.2 ⟨this, rightText.leading?_isSome⟩⟩

end ConfigEdit
