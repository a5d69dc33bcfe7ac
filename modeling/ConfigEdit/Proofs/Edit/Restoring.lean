import ConfigEdit.Proofs.Edit.Deletion
import ConfigEdit.Proofs.Edit.Insertion
import ConfigEdit.Proofs.Edit.Overwrite
import ConfigEdit.Proofs.Edit.Rereading

/-!
# An insertion is taken back by a removal

The removal of a new member leaves the text that was there before.  The members
that come from a text are read with their sources; the comment that was carried
over to the new member is carried back to what stands behind it.
-/

namespace ConfigEdit

section Removal

variable {path keys : PropertyPath} {key : Text}

theorem Member.exists_name_of_mem_leafPaths {member : Member}
    {leaf : PropertyPath} (inside : leaf ∈ Member.leafPaths [member] path) :
    ∃ name, member.name? = some name ∧ path.child name <+: leaf := by
  match member with
  | .property ⟨key, value, layout⟩ =>
      rw [Member.leafPaths, Member.leafPaths, List.append_nil] at inside
      exact ⟨key.name, rfl, Expr.prefix_of_mem_leafPaths inside⟩
  | .written member =>
      rw [Member.leafPaths, Member.leafPaths, List.append_nil] at inside
      obtain ⟨name, named, rfl⟩ :=
        Option.map_eq_some_iff.1 (Option.mem_toList.1 inside)
      exact ⟨name, named, List.prefix_refl _⟩

theorem removeMember_of_ne {member : Member} (apart : member.name? ≠ some key) :
    removeMember [path ++ key :: keys] path member = some member := by
  apply removeMember_eq_self
  intro leaf inside
  obtain ⟨name, named, leads⟩ := Member.exists_name_of_mem_leafPaths inside
  by_contra listed
  obtain rfl : leaf = path ++ key :: keys := by simpa using listed
  obtain ⟨rest, same⟩ := leads
  simp only [PropertyPath.child, List.append_assoc, List.append_cancel_left_eq,
    List.singleton_append, List.cons.injEq] at same
  exact apart (same.1 ▸ named)

/-- Members with other names stay in front of what is left of the members
behind. -/
theorem removeMembers_append (path keys : PropertyPath) {left : List Member}
    (apart : some key ∉ left.map Member.name?) (others : List Member) :
    removeMembers [path ++ key :: keys] path none (left ++ others) =
      (left ++ (removeMembers [path ++ key :: keys] path none others).1,
        (removeMembers [path ++ key :: keys] path none others).2) := by
  induction left with
  | nil => rfl
  | cons member left induction =>
      rw [List.map_cons, List.mem_cons, not_or] at apart
      rw [List.cons_append, removeMembers, removeMember_of_ne (Ne.symm apart.1)]
      simp [induction apart.2]

/-- The last member goes, and the comment in front of it stays. -/
theorem removeFrom_last {left : List Member} {member : Member} {close : Text}
    {trailingComma : Option Bool} (more : left ≠ [])
    (apart : some key ∉ left.map Member.name?)
    (gone : removeMember [path ++ [key]] path member = none) :
    removeFrom [path ++ [key]] path
      ⟨left ++ [member], some close, trailingComma⟩ =
      ⟨left, some (afterRemoved member.leading.lineComment close),
        trailingComma⟩ := by
  have removed := removeMembers_append path [] apart [member]
  have last : removeMembers [path ++ [key]] path none [member] =
      ([], some member.leading.lineComment) := by
    rw [removeMembers, gone]
    rfl
  rw [last] at removed
  rcases removeFrom_cases removed with ⟨none', -⟩ | ⟨-, same⟩
  · simp [more] at none'
  · simpa [closeAfter] using same

theorem removeFrom_inner
    {left right : List Member} {name : Key} {inner : ObjectLiteral}
    {layout : Option Layout} {close : Option Text} {trailingComma : Option Bool}
    (below : keys ≠ []) (apart : some name.name ∉ left.map Member.name?)
    (apart' : some name.name ∉ right.map Member.name?) :
    removeFrom [path ++ name.name :: keys] path
        ⟨left ++ .property ⟨name, .object inner, layout⟩ :: right, close,
          trailingComma⟩ =
      ⟨left ++ .property ⟨name, .object (removeFrom [path ++ name.name :: keys]
        (path.child name.name) inner), layout⟩ :: right, close,
        trailingComma⟩ := by
  have removed := removeMembers_append path keys apart
    (.property ⟨name, .object inner, layout⟩ :: right)
  have behind := removeMembers_append path keys apart' []
  have reaches : RemovalSet.reachesBelow [path ++ name.name :: keys]
      (path.child name.name) = true := by
    have longer := List.length_pos_iff.2 below
    simp [RemovalSet.reachesBelow, PropertyPath.child, PropertyPath.leadsTo,
      longer]
  have member : removeMember [path ++ name.name :: keys] path
      (.property ⟨name, .object inner, layout⟩) =
      some (.property ⟨name, .object (removeFrom
        [path ++ name.name :: keys] (path.child name.name) inner),
        layout⟩) := by
    rw [removeMember, if_pos reaches]
  rw [List.append_nil] at behind
  rw [removeMembers, member] at removed
  simp only [behind] at removed
  rw [removeFrom, removed]
  simp [removeMembers]

theorem removeFrom_extend
    {left : List Member} {behind : Continuation} {name : Key}
    {inner : ObjectLiteral} {layout : Option Layout} {trailing : Text}
    (below : keys ≠ []) (apart : some name.name ∉ left.map Member.name?)
    (apart' : some name.name ∉ behind.members.map Member.name?) :
    removeFrom [path ++ name.name :: keys] path
        (.prepend left
          (behind.extend trailing (.property ⟨name, .object inner, layout⟩))) =
      .prepend left
        (behind.extend trailing (.property ⟨name, .object (removeFrom
          [path ++ name.name :: keys] (path.child name.name) inner),
          layout⟩)) := by
  cases behind with
  | comma literal => exact removeFrom_inner below apart apart'
  | brace close => exact removeFrom_inner below apart apart'

end Removal

section Restore

variable {options : PrintOptions} {keys path : PropertyPath} {leaf : Text}
    {value : Expr}

theorem source_removeFrom_last
    {members : List Member} {close : Text} {comma : Bool} {node : ObjectLiteral}
    (fromText : Member.AllFromText members) (noReturn : '\r' ∉ close)
    (more : members ≠ []) (fresh : some leaf ∉ members.map Member.name?)
    (different : ¬ value.IsObject)
    (reread :
      (Expr.object ⟨members ++ [.property (.ofValue leaf value)], some close,
        some comma⟩).RereadAs options (.object node)) :
    (Expr.object (removeFrom [path ++ [leaf]] path node)).source =
      (Expr.object ⟨members, some close, some comma⟩).source := by
  obtain ⟨kept, raw, inner, layout, rfl, leaf', comment, names, source⟩ :=
    reread.exists_last fromText noReturn more different
  have more : kept ≠ [] := by
    rintro rfl
    exact more (List.map_eq_nil_iff.1 names.symm)
  have gone : removeMember [path ++ [leaf]] path
      (.property ⟨⟨leaf, raw⟩, inner, some layout⟩) = none := by
    cases inner with
    | object literal => exact absurd ⟨literal, rfl⟩ leaf'
    | call _ | number _ | string _ _ | boolean _ | verbatim _ =>
        simp [removeMember, PropertyPath.child]
  have whole : afterRemoved layout.leading.lineComment
      close.withoutLineComment = close := by
    rw [afterRemoved, comment, Text.withoutLineComment_withoutLineComment,
      Text.lineComment_append]
  have removed :=
    @removeFrom_last _ _ _ _ close.withoutLineComment (some comma) more
      (names ▸ fresh) gone
  have leading : (Member.property ⟨⟨leaf, raw⟩, inner, some layout⟩).leading =
      layout.leading := rfl
  rw [removed, leading, whole, Expr.source_object, Expr.source_object, source]

theorem source_removeFrom_inner {left right : List Member} {key : Key}
    {inner merged : ObjectLiteral}
    {layout : Layout} {close : Text} {comma : Bool} {node : ObjectLiteral}
    (below : keys ≠ [])
    (leftText : Member.AllFromText left) (rightText : Member.AllFromText right)
    (raw : key.raw.isSome = true)
    (apart : some key.name ∉ left.map Member.name?)
    (apart' : some key.name ∉ right.map Member.name?)
    (restored : ∀ node, (Expr.object merged).RereadAs options (.object node) →
      (Expr.object (removeFrom [path ++ key.name :: keys]
        (path.child key.name) node)).source = (Expr.object inner).source)
    (reread : (Expr.object
      ⟨left ++ .property ⟨key, .object merged, some layout⟩ :: right,
        some close, some comma⟩).RereadAs options (.object node)) :
    (Expr.object (removeFrom [path ++ key.name :: keys] path node)).source =
      (Expr.object ⟨left ++ .property ⟨key, .object inner, some layout⟩ ::
        right, some close, some comma⟩).source := by
  obtain ⟨kept, inside, next, reread', rfl, names, names', source, ending⟩ :=
    reread.exists_inner leftText rightText
  obtain ⟨raw, written⟩ := Option.isSome_iff_exists.1 raw
  have removed :=
    @removeFrom_extend path _ _ next ⟨key.name, some (key.print options)⟩ inside
      (some ⟨layout.leading, layout.separator, []⟩) layout.trailing below
      (names ▸ apart) (names' ▸ apart')
  simp only at removed
  have comma' : Member.commaBehind kept = Member.commaBehind left := by
    have empty : kept.isEmpty = left.isEmpty := by
      simpa using congrArg List.isEmpty names
    rw [Member.commaBehind, Member.commaBehind, empty]
  have whole :=
    @Continuation.source_extend layout.trailing (Member.commaBehind left)
      (.property ⟨⟨key.name, some (key.print options)⟩, .object (removeFrom
        [path ++ key.name :: keys] (path.child key.name) inside),
        some ⟨layout.leading, layout.separator, []⟩⟩) next rfl rfl
  rw [removed, Expr.source_prepend, comma', whole, source, Expr.source_middle,
    ending]
  simp [Member.leading, Member.leading?, Member.body, restored inside reread',
    Key.print, written]

/-- The removal of a new member leaves the source that was there. -/
theorem source_removeFrom {target literal merged node : ObjectLiteral}
    (extended : ObjectLiteral.Extends (.property (.ofValue leaf value)) target
      keys literal merged) (fromText : (Expr.object literal).FromText)
    (noReturn : '\r' ∉ (Expr.object literal).source)
    (more : target.members ≠ []) (fresh : leaf ∉ target.names)
    (different : ¬ value.IsObject)
    (reread : (Expr.object merged).RereadAs options (.object node)) :
    (Expr.object (removeFrom [path ++ (keys ++ [leaf])] path node)).source =
      (Expr.object literal).source := by
  induction extended generalizing path node with
  | here =>
      obtain ⟨members, close, trailingComma⟩ := target
      obtain ⟨membersText, closed, comma⟩ := fromText
      obtain ⟨close, rfl⟩ := Option.isSome_iff_exists.1 closed
      obtain ⟨comma, rfl⟩ := Option.isSome_iff_exists.1
        (comma.trans (by simpa [List.isEmpty_eq_false_iff] using more))
      refine source_removeFrom_last membersText ?_ more ?_ different reread
      · intro inside
        apply noReturn
        rw [Expr.source_object]
        simp [inside]
      · intro inside
        obtain ⟨member, inside, named⟩ := List.mem_map.1 inside
        exact fresh (List.mem_filterMap.2 ⟨member, inside, named⟩)
  | @deeper keys key inner merged layout left right close trailingComma apart
        extended induction =>
      obtain ⟨membersText, closed, comma⟩ := fromText
      obtain ⟨leftText, ⟨raw, kept, innerText⟩, rightText⟩ :=
        Member.allFromText_append.1 membersText
      obtain ⟨close, rfl⟩ := Option.isSome_iff_exists.1 closed
      obtain ⟨comma, rfl⟩ := Option.isSome_iff_exists.1 (comma.trans (by simp))
      obtain ⟨layout, rfl⟩ := Option.isSome_iff_exists.1 kept
      have noReturn : '\r' ∉ (Expr.object inner).source := by
        intro inside
        apply noReturn
        rw [Expr.source_middle]
        simp [inside]
      have absent : some key.name ∉ (left ++ right).map Member.name? := by
        intro inside
        obtain ⟨member, inside, named⟩ := List.mem_map.1 inside
        exact apart member inside named
      rw [List.map_append, List.mem_append, not_or] at absent
      refine source_removeFrom_inner (by simp) leftText rightText raw absent.1
        absent.2 ?_ reread
      intro node reread
      have inside :=
        @induction (path.child key.name) node innerText noReturn reread
      simpa [PropertyPath.child] using inside

end Restore

/-- The removal of a value that an update has put under a new name gives back
the text. -/
theorem removeText_updateText {options : PrintOptions} {dotted leaf text : Text}
    {keys : PropertyPath} {value : PatchValue} {root : ConfigRoot}
    {target : ObjectLiteral} (located : locateText text = .ok root)
    (unique : (Expr.object root.literal).Every
      fun literal => literal.names.Nodup) (noReturn : '\r' ∉ text)
    (named : PropertyPath.ofDotted? dotted = some (keys ++ [leaf]))
    (reached : root.literal.at? keys = some target) (more : target.members ≠ [])
    (fresh : leaf ∉ target.names) (comments : target.LineComments)
    (notObject : ∀ entries, value ≠ .object entries)
    (accepted : value.Accepted (keys ++ [leaf]))
    (indent : ∀ character ∈ options.indent, character = ' ' ∨ character = '\t')
    (settles : ∀ merged,
      mergeObject .root (Patch.insertBelow leaf value keys []) root.literal =
        .ok merged → root.Settles options merged) :
    ∃ patch paths out, Patch.empty.insertDotted dotted value = .ok patch ∧
      RemovalSet.parse [dotted] = .ok paths ∧
      updateText options patch false text = .ok out ∧
      removeText options paths out = .ok text := by
  obtain ⟨expr, built⟩ := accepted.exists_build
  obtain ⟨merged, merging, extended⟩ :=
    @mergeObject_insertBelow _ .root _ _ _ _ _ reached unique fresh built
  have different := not_isObject_of_build notObject built
  obtain ⟨rootText, whole⟩ := ConfigRoot.fromText_of_locateText located
  -- The extended configuration is read back.
  obtain ⟨inner, rest, reads, -⟩ := exists_readsNode_of_locateText located
  have sourced := mergeObject_every (reads.every options) merging
  have appends : (Expr.object merged).Every ObjectLiteral.Appends :=
    extended.every_appends rootText.literal
      ⟨.of_not_isObject different, trivial⟩ (comments.appends rfl)
  have printable :
      (Expr.object merged).Every (ObjectLiteral.Printable options) :=
    (sourced.and appends).imp fun literal ⟨⟨sound, spaced⟩, appends⟩ =>
      ⟨sound, spaced, appends, fun _ => .of_blanksAndTabs indent⟩
  obtain ⟨node, located', -, reread⟩ :=
    exists_locateText_print located printable (settles merged merging)
  have nodeText : (Expr.object node).FromText :=
    (ConfigRoot.fromText_of_locateText located').1.literal
  have restored :=
    @source_removeFrom options keys .root leaf expr target _ _ node extended
        rootText.literal (by
      intro inside
      apply noReturn
      rw [whole]
      simp [inside]) more fresh different reread
  have parsed : PropertyPath.parse dotted = .ok (keys ++ [leaf]) := by
    rw [PropertyPath.parse, named]
  refine ⟨⟨Patch.insertBelow leaf value keys []⟩, [keys ++ [leaf]],
    (root.replace merged).document.print options, ?_, ?_, ?_, ?_⟩
  · rw [Patch.insertDotted, parsed]
    simp [Except.map, Patch.insertAt, Patch.empty]
  · rw [RemovalSet.parse, List.mapM_cons, parsed]
    rfl
  · rw [updateText, located]
    simp only [bind, Except.bind, Bool.false_eq_true, if_false, merging]
    rfl
  · have same : (root.replace node).replace = root.replace := rfl
    have literal : (root.replace node).literal = node := rfl
    rw [removeText, located', whole, ← restored]
    simp only [bind, Except.bind, pure, Except.pure, same, literal,
      Except.ok.injEq]
    rw [rootText.print_replace, removeFrom_reprints _ _ nodeText]
    rfl

/-- A configuration with an object in it that ends with a line comment. -/
def nestedRoot : ConfigRoot :=
  { before := []
    head := "export default ".toList
    callee := ['f']
    leading := []
    literal := ⟨[.property ⟨⟨['a'], some ['a']⟩,
      .object ⟨[.property ⟨⟨['b'], some ['b']⟩, .number ['1'],
        some ⟨"\n    ".toList, [':', ' '], []⟩⟩],
        some " // one\n  ".toList, some false⟩,
      some ⟨"\n  ".toList, [':', ' '], []⟩⟩], some ['\n'], some true⟩
    trailing := []
    otherArgs := []
    close := []
    trailingComma := false
    after := [] }

/-- A value is put behind a line comment, and removed again. -/
theorem removeText_updateText_nested :
    ∃ patch paths out,
      Patch.empty.insertDotted "a.c".toList (.string ['x']) = .ok patch ∧
      RemovalSet.parse ["a.c".toList] = .ok paths ∧
      updateText .standard patch false
        "export default f(\x7b\n  a: \x7b\n    b: 1 // one\n  \x7d,\n\x7d)".toList =
        .ok out ∧
      removeText .standard paths out =
        .ok "export default f(\x7b\n  a: \x7b\n    b: 1 // one\n  \x7d,\n\x7d)".toList := by
  have located : locateText
      "export default f(\x7b\n  a: \x7b\n    b: 1 // one\n  \x7d,\n\x7d)".toList =
        .ok nestedRoot := by with_unfolding_all rfl
  refine @removeText_updateText .standard "a.c".toList ['c'] _ [['a']]
    (.string ['x']) _ _ located ?_ (by decide) (by decide +kernel) rfl (by simp)
    (by simp [ObjectLiteral.names, Member.name?]) ⟨?_, ?_⟩
    (by simp) trivial (by simp [PrintOptions.standard]) ?_
  · simp [nestedRoot, Expr.Every, Member.AllEvery, ObjectLiteral.names,
      Member.name?]
  · intro leading inside
    obtain rfl : leading = "\n    ".toList := by
      simpa [ObjectLiteral.leadings, Member.leading?] using inside
    exact .gap rfl (.gap rfl (.gap rfl (.gap rfl (.gap rfl .nil))))
  · exact .gap rfl (@LineTrivia.comment " one".toList _ (by decide)
      (.gap rfl (.gap rfl .nil)))
  · intro merged merging
    have same :
        mergeObject .root (Patch.insertBelow ['c'] (.string ['x']) [['a']] [])
          nestedRoot.literal = .ok ⟨[.property ⟨⟨['a'], some ['a']⟩,
          .object ⟨[.property ⟨⟨['b'], some ['b']⟩, .number ['1'],
            some ⟨"\n    ".toList, [':', ' '], []⟩⟩,
            .property (.ofValue ['c'] (.string ['x'] none))],
              some " // one\n  ".toList, some false⟩,
          some ⟨"\n  ".toList, [':', ' '], []⟩⟩],
          some ['\n'], some true⟩ := by with_unfolding_all rfl
    obtain rfl := Except.ok.inj (same.symm.trans merging)
    exact ConfigRoot.settles_of_plain rfl _ _

/-- The text of a configuration with an angled value, and a quotation mark in a
comment. -/
def angledText : Text :=
  "export default f(\x7b a: x < y /* \x27 */, \x7d, \x27\x27) // \x27\n".toList

/-- The configuration in `angledText`. -/
def angledRoot : ConfigRoot :=
  { before := []
    head := "export default ".toList
    callee := ['f']
    leading := []
    literal := ⟨[.property ⟨⟨['a'], some ['a']⟩, .verbatim "x < y".toList,
      some ⟨[' '], [':', ' '], " /* \x27 */".toList⟩⟩], some [' '], some true⟩
    trailing := []
    otherArgs := [⟨[' '], .string [] (some "\x27\x27".toList), []⟩]
    close := []
    trailingComma := false
    after := [.text " // \x27\n".toList] }

/-- What an update makes of `angledText`. -/
def angledUpdate : Text :=
  "export default f(\x7b a: x < y /* \x27 */, b: \x27z>(\x27, \x7d, \x27\x27) // \x27\n".toList

/-- A value behind an angled one takes the quotation mark in the comment for the
beginning of a string, and the update cannot be read. -/
theorem removeText_updateText_unread :
    locateText angledText = .ok angledRoot ∧
    (Expr.object angledRoot.literal).Every
      (fun literal => literal.names.Nodup) ∧
    '\r' ∉ angledText ∧ ['b'] ∉ angledRoot.literal.names ∧
    angledRoot.literal.LineComments ∧
    updateText .standard ⟨[(['b'], .string "z>(".toList)]⟩ false angledText =
      .ok angledUpdate ∧
    (removeText .standard [[['b']]] angledUpdate).toOption.isSome = false := by
  refine ⟨by with_unfolding_all rfl, ?_, by decide, ?_, ⟨?_, .gap rfl .nil⟩,
    by decide +kernel, by decide +kernel⟩
  · simp [angledRoot, Expr.Every, Member.AllEvery, ObjectLiteral.names,
      Member.name?]
  · simp [angledRoot, ObjectLiteral.names, Member.name?]
  · intro leading inside
    obtain rfl : leading = [' '] := by
      simpa [angledRoot, ObjectLiteral.leadings, Member.leading?] using inside
    exact .gap rfl .nil

end ConfigEdit
