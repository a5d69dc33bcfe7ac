import ConfigEdit.Proofs.Document.Layout
import ConfigEdit.Proofs.Edit.Merge
import ConfigEdit.Proofs.Edit.Root
import ConfigEdit.Proofs.Text.Line

/-!
# What an update leaves alone

An update cuts the text into pieces and writes other text in the place of some
of them.  `Touched` lists the pieces of an object literal that a patch may
replace, together with the text on both sides, and `updateText_splits` says that
an update replaces no others.
-/

namespace ConfigEdit

/-- A piece of a text: kept, or replaced by another text. -/
inductive Piece where
  | kept (text : Text)
  | replaced (original written : Text)

namespace Piece

/-- The text before the edit. -/
def source : Piece → Text
  | kept text => text
  | replaced original _ => original

/-- The text after the edit. -/
def target : Piece → Text
  | kept text => text
  | replaced _ written => written

end Piece

/-- Both texts are cut into the same pieces, and every replaced piece is one
that may be touched between the texts on its two sides. -/
def Splits (touched : Text → Text → Text → Prop)
    (source target : Text) : Prop :=
  ∃ pieces : List Piece,
    source = pieces.flatMap Piece.source ∧
    target = pieces.flatMap Piece.target ∧
    ∀ left original written right,
      pieces = left ++ .replaced original written :: right →
      touched (left.flatMap Piece.source) original (right.flatMap Piece.source)

/-- What may be touched of the text behind another one. -/
def Behind (front : Text) (touched : Text → Text → Text → Prop) :
    Text → Text → Text → Prop :=
  fun before original behind => touched (front ++ before) original behind

/-- What may be touched of the text in front of another one. -/
def InFront (back : Text) (touched : Text → Text → Text → Prop) :
    Text → Text → Text → Prop :=
  fun before original behind => touched before original (behind ++ back)

namespace Splits

variable {touched other : Text → Text → Text → Prop}
  {source target left right front back further : Text}

theorem kept (text : Text) : Splits touched text text := by
  refine ⟨[.kept text], by simp [Piece.source], by simp [Piece.target], ?_⟩
  intro left original written right same
  cases left with
  | nil => simp at same
  | cons piece others => simp at same

theorem replaced (touch : touched [] source []) :
    Splits touched source target := by
  refine ⟨[.replaced source target],
    by simp [Piece.source], by simp [Piece.target], ?_⟩
  intro left original written right same
  cases left with
  | nil =>
      simp only [List.nil_append, List.cons.injEq, Piece.replaced.injEq] at same
      obtain ⟨⟨rfl, rfl⟩, rfl⟩ := same
      exact touch
  | cons piece others => simp at same

theorem mono (splits : Splits other source target)
    (weaker : ∀ before original behind, other before original behind →
      touched before original behind) : Splits touched source target := by
  obtain ⟨pieces, sources, targets, touch⟩ := splits
  exact ⟨pieces, sources, targets, fun left original written right same =>
    weaker _ _ _ (touch left original written right same)⟩

theorem append (head : Splits (InFront right touched) left target)
    (tail : Splits (Behind left touched) right further) :
    Splits touched (left ++ right) (target ++ further) := by
  obtain ⟨pieces, rfl, rfl, touch⟩ := head
  obtain ⟨others, rfl, rfl, later⟩ := tail
  refine ⟨pieces ++ others, by simp, by simp, ?_⟩
  intro before original written behind same
  rcases List.append_eq_append_iff.1 same with
    ⟨middle, rfl, inside⟩ | ⟨middle, inside, rest⟩
  · rw [List.flatMap_append]
    exact later middle original written behind inside
  · cases middle with
    | nil =>
        rw [List.append_nil] at inside
        subst inside
        have last := later [] original written behind rest.symm
        simpa [Behind] using last
    | cons piece middle =>
        rw [List.cons_append] at rest
        obtain ⟨rfl, rfl⟩ := List.cons.inj rest
        rw [List.flatMap_append]
        exact touch before original written middle inside

theorem within
    (splits : Splits (Behind front (InFront back touched)) source target) :
    Splits touched (front ++ (source ++ back)) (front ++ (target ++ back)) := by
  apply append (kept front)
  apply append _ (kept back)
  exact splits

theorem replace (touch : touched front source back) :
    Splits touched (front ++ (source ++ back)) (front ++ (target ++ back)) := by
  apply within
  apply replaced
  simpa [Behind, InFront] using touch

end Splits

/-- What stands between members and the next one. -/
def Member.commaBehind (left : List Member) : Text :=
  if left.isEmpty then [] else [',']

namespace ObjectLiteral

/-- The text of an object literal up to the member behind the given ones. -/
def textUpTo (left : List Member) : Text :=
  '{' :: (Member.sources [] left ++ Member.commaBehind left)

/-- The text of an object literal behind its members. -/
def ending (literal : ObjectLiteral) : Text :=
  (if literal.trailingComma = some true then [','] else []) ++
    (literal.close.getD [] ++ ['}'])

/-- The text of an object literal from the given members on. -/
def textFrom (literal : ObjectLiteral) (right : List Member) : Text :=
  Member.sources [','] right ++ literal.ending

end ObjectLiteral

/-- The pieces of an object literal that a patch may replace, with the text of
the literal on both sides.  Of members with one name it is the first. -/
inductive Touched :
    Entries PatchValue → ObjectLiteral → Text → Text → Text → Prop where
  /-- The value of a property, unless an object is merged into an object
  literal. -/
  | value {patch : Entries PatchValue} {literal : ObjectLiteral}
      {left right : List Member}
      {key : Key} {value : Expr} {layout : Layout} {new : PatchValue} :
      literal.members = left ++ .property ⟨key, value, some layout⟩ :: right →
      key.name ∉ left.filterMap Member.name? →
      patch.get? key.name = some new →
      (∀ entries, new ≠ .object entries) ∨ (∀ inner, value ≠ .object inner) →
      Touched patch literal
        (ObjectLiteral.textUpTo left ++
          (layout.leading ++ (key.raw.getD [] ++ layout.separator)))
        value.source (layout.trailing ++ literal.textFrom right)
  /-- A shorthand or a method. -/
  | written {patch : Entries PatchValue} {literal : ObjectLiteral}
      {left right : List Member}
      {member : WrittenMember} {name : Text} {new : PatchValue} :
      literal.members = left ++ .written member :: right →
      member.name = some name → name ∉ left.filterMap Member.name? →
      patch.get? name = some new →
      Touched patch literal (ObjectLiteral.textUpTo left ++ member.leading)
        member.text (member.trailing ++ literal.textFrom right)
  /-- The blanks between the braces of a literal without members. -/
  | interior {patch : Entries PatchValue} {literal : ObjectLiteral}
      {close : Text} :
      literal.members = [] → patch ≠ [] → literal.close = some close →
      close.blank = true →
      Touched patch literal ['{'] close ['}']
  /-- The point behind the brace of a literal without members. -/
  | opening {patch : Entries PatchValue} {literal : ObjectLiteral}
      {close : Text} :
      literal.members = [] → patch ≠ [] → literal.close = some close →
      Touched patch literal ['{'] [] (close ++ ['}'])
  /-- A point between the last member and the brace, when there are new
  names. -/
  | ending {patch : Entries PatchValue} {literal : ObjectLiteral}
      {front back name : Text}
      {new : PatchValue} :
      literal.members ≠ [] → (name, new) ∈ patch → name ∉ literal.names →
      literal.ending = front ++ (back ++ ['}']) →
      Touched patch literal
        ('{' :: (Member.sources [] literal.members ++ front)) [] (back ++ ['}'])
  /-- A piece of an object literal that an object is merged into. -/
  | nested {patch inner : Entries PatchValue} {literal below : ObjectLiteral}
      {left right : List Member} {key : Key} {layout : Layout}
      {before original behind : Text} :
      literal.members =
        left ++ .property ⟨key, .object below, some layout⟩ :: right →
      key.name ∉ left.filterMap Member.name? →
      patch.get? key.name = some (.object inner) →
      Touched inner below before original behind →
      Touched patch literal
        (ObjectLiteral.textUpTo left ++
          (layout.leading ++ (key.raw.getD [] ++ (layout.separator ++ before))))
        original (behind ++ (layout.trailing ++ literal.textFrom right))

theorem Member.sources_append (left right : List Member) :
    Member.sources [] (left ++ right) =
      Member.sources [] left ++
        Member.sources (Member.commaBehind left) right := by
  have further (others : List Member) :
      Member.sources [','] (others ++ right) =
        Member.sources [','] others ++ Member.sources [','] right := by
    induction others with
    | nil => rfl
    | cons member others induction => simp [Member.sources, induction]
  cases left with
  | nil => rfl
  | cons member others => simp [Member.sources, Member.commaBehind, further]

theorem Member.printList_cons
    (options : PrintOptions) (lineBreak : LineBreak) (inline : Bool)
    (style : MemberStyle) (line : Line) (between : Text) (member : Member)
    {others : List Member}
    (kept : ∀ other ∈ others, other.leading?.isSome = true) :
    ∃ start next, Member.printList options lineBreak inline style line between
        (member :: others) = between ++
      (Member.printFrom options lineBreak inline style start member ++
        Member.printList options lineBreak inline style next [','] others) := by
  refine ⟨line.after between, ?_⟩
  rw [Member.printList]
  cases others with
  | nil => exact ⟨line, by simp [Member.printList]⟩
  | cons next others =>
      have notNone : next.leading?.isNone = false := by
        simp [Option.isNone_eq_false_iff, kept next List.mem_cons_self]
      simp only [List.all_cons, notNone, Bool.false_and, Bool.and_false,
        List.append_assoc]
      exact ⟨_, rfl⟩

theorem Member.exists_printList {options : PrintOptions} {lineBreak : LineBreak}
    {inline : Bool} {style : MemberStyle} {line : Line} {between : Text}
    {members : List Member} (more : members ≠ []) :
    ∃ rest,
      Member.printList options lineBreak inline style line between members =
        between ++ rest := by
  cases members with
  | nil => contradiction
  | cons member others =>
      rw [Member.printList]
      simp only [List.append_assoc]
      exact ⟨_, rfl⟩

section Appended

variable {options : PrintOptions} {lineBreak : LineBreak} {inline : Bool}
    {line : Line} {patch : Entries PatchValue} {literal merged : ObjectLiteral}
    {kept new : List Member}

theorem Expr.source_object_eq (literal : ObjectLiteral) :
    (Expr.object literal).source =
      '{' :: Member.sources [] literal.members ++ literal.ending := by
  simp [Expr.source_object, ObjectLiteral.ending]

/-- New members are written at points between the last member and the brace. -/
theorem ending_splits {close name : Text} {value : PatchValue} {comma : Bool}
    (more : literal.members ≠ []) (wanted : (name, value) ∈ patch)
    (fresh : name ∉ literal.names) (closed : literal.close = some close)
    (trailing : literal.trailingComma = some comma) (written : Text) :
    Splits (Behind ('{' :: Member.sources [] literal.members)
      (Touched patch literal)) literal.ending
      (',' :: close.lineComment ++ (written ++
        ((if comma then [','] else []) ++
          (close.withoutLineComment ++ ['}'])))) := by
  have whole : literal.ending =
      (if comma then [','] else []) ++
        (close.lineComment ++ (close.withoutLineComment ++ ['}'])) := by
    rw [← List.append_assoc close.lineComment, Text.lineComment_append]
    cases comma <;> simp [ObjectLiteral.ending, closed, trailing]
  have touch (front back : Text)
      (split : literal.ending = front ++ (back ++ ['}'])) :
      Behind ('{' :: Member.sources [] literal.members) (Touched patch literal)
        front [] (back ++ ['}']) := .ending more wanted fresh split
  have behindComment : Splits
      (Behind (if comma then [','] else [])
        (Behind ('{' :: Member.sources [] literal.members)
          (Touched patch literal)))
      (close.lineComment ++ ([] ++ (close.withoutLineComment ++ ['}'])))
      (close.lineComment ++ ((written ++ if comma then [','] else []) ++
        (close.withoutLineComment ++ ['}']))) :=
    .replace (touch _ _ (by simp [whole]))
  rw [whole]
  cases comma with
  | true => simpa using Splits.append (.kept [',']) behindComment
  | false =>
      -- The comma of the last member is written in front of its comment.
      have point := touch [] (close.lineComment ++ close.withoutLineComment)
        (by simp [whole])
      have front :
          Splits (InFront _ (Behind _ (Touched patch literal))) [] [','] :=
        .replaced (by simpa [InFront] using point)
      simpa using Splits.append front behindComment

/-- New members between the braces of a literal without members. -/
theorem new_splits
    (fromText : (Expr.object literal).FromText) (empty : literal.members = [])
    (members : merged.members = new) (closes : merged.close = literal.close)
    (fresh : ∀ member ∈ new, member.leading? = none)
    (wanted : new ≠ [] → patch ≠ []) :
    Splits (Touched patch literal) (Expr.object literal).source
      ((Expr.object merged).printFrom options lineBreak inline line) := by
  obtain ⟨-, closed, comma⟩ := (Expr.fromText_object literal).1 fromText
  obtain ⟨close, closed⟩ := Option.isSome_iff_exists.1 closed
  have noComma : literal.trailingComma = none := by simpa [empty] using comma
  have source : (Expr.object literal).source = ['{'] ++ (close ++ ['}']) := by
    simp [Expr.source_object, empty, noComma, closed, Member.sources]
  subst members
  rw [source]
  by_cases none' : merged.members = []
  · rw [Expr.printFrom_object_nil none', closes, closed]
    exact .kept _
  · have touch := wanted none'
    rw [Expr.printFrom_object none',
      ObjectLiteral.printedClose_of_new fresh (closes.trans closed)]
    split
    · next blank =>
        simp only [← List.append_assoc _ _ ['}']]
        exact .replace (Touched.interior empty touch closed blank)
    · rw [← List.append_assoc (Member.printList _ _ _ _ _ _ _)]
      show Splits _ (['{'] ++ ([] ++ (close ++ ['}'])))
        (['{'] ++ (_ ++ (close ++ ['}'])))
      exact .replace (Touched.opening empty touch closed)

/-- New members behind members that come from a text. -/
theorem appended_splits (fromText : (Expr.object literal).FromText)
    (more : literal.members ≠ []) (members : merged.members = kept ++ new)
    (closes : merged.close = literal.close)
    (commas : merged.trailingComma = literal.trailingComma)
    (keptMore : kept ≠ [])
    (keptSome : ∀ member ∈ kept, member.leading?.isSome = true)
    (fresh : ∀ member ∈ new, member.leading? = none)
    (wanted : new ≠ [] → ∃ entry ∈ patch, entry.1 ∉ literal.names)
    (inner : ∀ inline style line, Splits (Behind ['{'] (InFront literal.ending
      (Touched patch literal))) (Member.sources [] literal.members)
      (Member.printList options lineBreak inline style line [] kept)) :
    Splits (Touched patch literal) (Expr.object literal).source
      ((Expr.object merged).printFrom options lineBreak inline line) := by
  obtain ⟨-, closed, comma⟩ := (Expr.fromText_object literal).1 fromText
  obtain ⟨close, closed⟩ := Option.isSome_iff_exists.1 closed
  obtain ⟨comma, trailing⟩ : ∃ comma, literal.trailingComma = some comma := by
    rw [← Option.isSome_iff_exists, comma]
    simp [more]
  obtain ⟨first, inside⟩ := List.exists_mem_of_ne_nil kept keptMore
  have member : first ∈ merged.members :=
    members ▸ List.mem_append_left _ inside
  rw [Expr.source_object_eq, Expr.printFrom_object (List.ne_nil_of_mem member),
    ObjectLiteral.printedClose_of_kept member (keptSome first inside)
      (closes.trans closed),
    ObjectLiteral.lastComma_of_some (commas.trans trailing), members]
  -- The pieces of the members, and those of the text behind them.
  have joined {written : Text} (inline : Bool) (style : MemberStyle)
      (line : Line)
      (behind : Splits (Behind ('{' :: Member.sources [] literal.members)
        (Touched patch literal)) literal.ending written) :
      Splits (Touched patch literal)
        ('{' :: Member.sources [] literal.members ++ literal.ending)
        ('{' :: Member.printList options lineBreak inline style line [] kept ++
          written) := by
    apply Splits.append _ behind
    exact Splits.append (.kept ['{']) (inner inline style line)
  by_cases none' : new = []
  · subst none'
    have last : (kept.getLast?.any fun last : Member => last.leading?.isNone) =
        false := by
      rw [List.getLast?_eq_some_getLast keptMore]
      simp [keptSome _ (List.getLast_mem keptMore)]
    have ending :
        literal.ending = (if comma then [','] else []) ++ (close ++ ['}']) := by
      cases comma <;> simp [ObjectLiteral.ending, trailing, closed]
    simp only [List.append_nil, last, Bool.false_eq_true, if_false]
    rw [← ending]
    exact joined _ _ _ (.kept _)
  · have last :
        ((kept ++ new).getLast?.any fun last : Member => last.leading?.isNone) =
        true := by
      rw [List.getLast?_append_of_ne_nil _ none',
        List.getLast?_eq_some_getLast none']
      simp [fresh _ (List.getLast_mem none')]
    obtain ⟨⟨name, value⟩, entry, absent⟩ := wanted none'
    rw [Member.printList_append keptSome fresh keptMore]
    obtain ⟨written, printed⟩ := Member.exists_printList none'
    rw [printed]
    simp only [last, if_true, List.append_assoc]
    apply joined
    have splits := ending_splits more entry absent closed trailing written
    simpa [ObjectLiteral.memberStyle, closes.trans closed] using splits

end Appended

theorem kept_leading?_isSome {path : PropertyPath} {patch : Entries PatchValue}
    {seen : List Text} {members kept : List Member}
    (fromText : Member.AllFromText members)
    (keeping : mergeMembers path patch seen members = .ok kept) :
    ∀ member ∈ kept, member.leading?.isSome = true := by
  intro member inside
  have found : member.leading? ∈ members.map Member.leading? :=
    (mergeMembers_shape keeping).2 ▸ List.mem_map_of_mem inside
  obtain ⟨original, inside, same⟩ := List.mem_map.1 found
  rw [← same]
  exact (Member.allFromText_iff.1 fromText original inside).leading?_isSome

/-- The text of a property in front of its value. -/
def Property.opening (key : Key) (layout : Layout) : Text :=
  layout.leading ++ (key.raw.getD [] ++ layout.separator)

theorem Member.source_property (key : Key) (value : Expr) (layout : Layout) :
    (Member.property ⟨key, value, some layout⟩).leading ++
        ((Member.property ⟨key, value, some layout⟩).body ++
          (Member.property ⟨key, value, some layout⟩).trailing) =
      Property.opening key layout ++ (value.source ++ layout.trailing) := by
  simp [Member.leading, Member.leading?, Member.body, Member.trailing,
    Property.opening]

theorem Member.printFrom_property
    (options : PrintOptions) (lineBreak : LineBreak)
    (inline : Bool) (style : MemberStyle) (line : Line) {key : Key}
    (value : Expr) (layout : Layout) (kept : key.raw.isSome = true) :
    ∃ start, Member.printFrom options lineBreak inline style line
        (.property ⟨key, value, some layout⟩) = Property.opening key layout ++
      (value.printFrom options lineBreak inline start ++ layout.trailing) := by
  obtain ⟨raw, same⟩ := Option.isSome_iff_exists.1 kept
  refine ⟨line.after (layout.leading ++ key.print options ++ layout.separator),
    ?_⟩
  simp [Member.printFrom, Property.opening, Key.print, same]

/-- The parts of a merge, put together for the literal. -/
theorem mergeObject_splits_of_members
    {options : PrintOptions} {lineBreak : LineBreak} {inline : Bool}
    {line : Line} {path : PropertyPath} {patch : Entries PatchValue}
    {literal : ObjectLiteral} {kept : List Member} {appended : List Property}
    (fromText : (Expr.object literal).FromText)
    (keeping : mergeMembers path patch [] literal.members = .ok kept)
    (appending : appendedProperties path literal.names patch = .ok appended)
    (inner : ∀ inline style line, Splits (Behind ['{'] (InFront literal.ending
      (Touched patch literal))) (Member.sources [] literal.members)
      (Member.printList options lineBreak inline style line [] kept)) :
    Splits (Touched patch literal) (Expr.object literal).source
      ((Expr.object
        ⟨kept ++ appended.map .property, literal.close,
          literal.trailingComma⟩).printFrom options lineBreak inline line) := by
  obtain ⟨names, leadings⟩ := mergeMembers_shape keeping
  have sameLength : kept.length = literal.members.length := by
    simpa using congrArg List.length names
  have fresh := buildProperties_leading? appending
  have length := buildProperties_length appending
  by_cases empty : literal.members = []
  · have keptEmpty : kept = [] :=
      List.eq_nil_of_length_eq_zero (by simp [sameLength, empty])
    subst keptEmpty
    refine new_splits fromText empty rfl rfl fresh ?_
    rintro more rfl
    simp_all
  · have keptMore : kept ≠ [] := by
      rintro rfl
      exact empty (List.eq_nil_of_length_eq_zero sameLength.symm)
    refine appended_splits fromText empty rfl rfl rfl keptMore ?_ fresh ?_ inner
    · exact kept_leading?_isSome ((Expr.fromText_object _).1 fromText).1 keeping
    · intro more
      have some :
          patch.filter (fun entry => !literal.names.contains entry.1) ≠ [] := by
        intro none'
        rw [none', List.length_nil] at length
        exact more (by simp [List.eq_nil_of_length_eq_zero length])
      obtain ⟨entry, inside⟩ := List.exists_mem_of_ne_nil _ some
      obtain ⟨inside, absent⟩ := List.mem_filter.1 inside
      exact ⟨entry, inside, by simpa using absent⟩

theorem member_splits {options : PrintOptions} {lineBreak : LineBreak}
    {inline : Bool} {patch : Entries PatchValue} {literal : ObjectLiteral}
    {left others further : List Member}
    {member first : Member} (style : MemberStyle) (line : Line)
    (some : ∀ other ∈ further, other.leading?.isSome = true)
    (head : ∀ line, Splits (Behind (ObjectLiteral.textUpTo left)
      (InFront (literal.textFrom others) (Touched patch literal)))
      (member.leading ++ (member.body ++ member.trailing))
      (Member.printFrom options lineBreak inline style line first))
    (tail : ∀ line, Splits (Behind ('{' :: Member.sources [] (left ++ [member]))
      (InFront literal.ending (Touched patch literal)))
      (Member.sources [','] others)
      (Member.printList options lineBreak inline style line [','] further)) :
    Splits (Behind ('{' :: Member.sources [] left)
      (InFront literal.ending (Touched patch literal)))
      (Member.sources (Member.commaBehind left) (member :: others))
      (Member.printList options lineBreak inline style line
        (Member.commaBehind left) (first :: further)) := by
  obtain ⟨start, next, printed⟩ :=
    Member.printList_cons options lineBreak inline style line
      (Member.commaBehind left) first some
  have source : Member.sources (Member.commaBehind left) (member :: others) =
      Member.commaBehind left ++
        ((member.leading ++ (member.body ++ member.trailing)) ++
          Member.sources [','] others) := by
    simp [Member.sources]
  rw [printed, source]
  apply Splits.append (.kept _)
  apply Splits.append
  · apply (head start).mono
    intro before original behind touched
    simpa [Behind, InFront, ObjectLiteral.textUpTo, ObjectLiteral.textFrom]
      using touched
  · apply (tail next).mono
    intro before original behind touched
    simpa [Behind, InFront, Member.sources_append, Member.sources] using touched

mutual

/-- Merging a patch into an object literal touches no other pieces of it. -/
theorem mergeObject_splits
    {options : PrintOptions} {lineBreak : LineBreak} {inline : Bool}
    {line : Line} {path : PropertyPath} {patch : Entries PatchValue}
    {literal merged : ObjectLiteral} (fromText : (Expr.object literal).FromText)
    (found : mergeObject path patch literal = .ok merged) :
    Splits (Touched patch literal) (Expr.object literal).source
      ((Expr.object merged).printFrom options lineBreak inline line) := by
  match literal with
  | ⟨members, close, trailingComma⟩ =>
      obtain ⟨kept, appended, keeping, appending, rfl⟩ :=
        mergeObject_eq_ok found
      apply mergeObject_splits_of_members fromText keeping appending
      intro inline style line
      exact mergeMembers_splits style line [] rfl fromText.1 (by simp) keeping
termination_by sizeOf literal

theorem mergeMembers_splits
    {options : PrintOptions} {lineBreak : LineBreak} {inline : Bool}
    {path : PropertyPath} {patch : Entries PatchValue} {literal : ObjectLiteral}
    {members kept : List Member} {seen : List Text} (style : MemberStyle)
    (line : Line)
    (left : List Member) (shape : literal.members = left ++ members)
    (fromText : Member.AllFromText members)
    (names : ∀ name, name ∈ seen ↔ name ∈ left.filterMap Member.name?)
    (found : mergeMembers path patch seen members = .ok kept) :
    Splits (Behind ('{' :: Member.sources [] left)
      (InFront literal.ending (Touched patch literal)))
      (Member.sources (Member.commaBehind left) members)
      (Member.printList options lineBreak inline style line
        (Member.commaBehind left) kept) := by
  match members with
  | [] =>
      rw [mergeMembers] at found
      cases found
      exact .kept []
  | member :: others =>
      obtain ⟨first, further, rfl, rest, merging⟩ := mergeMembers_cons found
      obtain ⟨memberText, othersText⟩ := fromText
      apply member_splits style line (kept_leading?_isSome othersText rest)
      · intro line
        rcases merging with
          ⟨rfl, -⟩ | ⟨name, value, named, absent, wanted, merging⟩
        · rw [Member.printFrom_eq memberText]
          exact .kept _
        · exact mergeMember_splits style line shape memberText named
            (by rwa [← names]) wanted merging
      · intro line
        have seen (name : Text) : name ∈ member.name?.toList ++ seen ↔
            name ∈ (left ++ [member]).filterMap Member.name? := by
          cases named : member.name? <;> simp [named, names, or_comm]
        have tail : Splits
            (Behind _ (InFront literal.ending (Touched patch literal))) _
            (Member.printList options lineBreak inline style line _ further) :=
          mergeMembers_splits style line (left ++ [member])
            (by simp [shape]) othersText seen rest
        simpa [Member.commaBehind] using tail
termination_by sizeOf members

theorem mergeMember_splits {options : PrintOptions} {lineBreak : LineBreak}
    {inline : Bool} {path : PropertyPath} {patch : Entries PatchValue}
    {literal : ObjectLiteral} {left right : List Member}
    {member merged : Member}
    {name : Text} {value : PatchValue} (style : MemberStyle) (line : Line)
    (shape : literal.members = left ++ member :: right)
    (fromText : member.FromText) (named : member.name? = some name)
    (new : name ∉ left.filterMap Member.name?)
    (wanted : patch.get? name = some value)
    (found : mergeMember path name value member = .ok merged) :
    Splits (Behind (ObjectLiteral.textUpTo left)
      (InFront (literal.textFrom right) (Touched patch literal)))
      (member.leading ++ (member.body ++ member.trailing))
      (Member.printFrom options lineBreak inline style line merged) := by
  rcases mergeMember_eq_ok found with
    ⟨key, inner, layout, nested, below, rfl, rfl, merging, rfl⟩ |
      ⟨⟨key, original, layout⟩, expr, rfl, different, -, rfl⟩ |
      ⟨original, expr, rfl, -, rfl⟩
  · obtain ⟨raw, kept, fromText⟩ := fromText
    obtain ⟨layout, rfl⟩ := Option.isSome_iff_exists.1 kept
    cases named
    obtain ⟨start, printed⟩ :=
      Member.printFrom_property options lineBreak inline style line
        (.object below) layout raw
    rw [Member.source_property, printed]
    apply Splits.within
    apply (mergeObject_splits fromText merging).mono
    intro before text behind touched
    have outer := Touched.nested shape new wanted touched
    simpa [Behind, InFront, Property.opening] using outer
  · obtain ⟨raw, kept, -⟩ := fromText
    obtain ⟨layout, rfl⟩ := Option.isSome_iff_exists.1 kept
    cases named
    obtain ⟨start, printed⟩ :=
      Member.printFrom_property options lineBreak inline style line
        expr layout raw
    rw [Member.source_property, Property.withValue, printed]
    exact .replace (Touched.value shape new wanted different)
  · obtain ⟨written, printed⟩ : ∃ written,
        Member.printFrom options lineBreak inline style line
          (.property (.replacing original name expr)) =
          original.leading ++ (written ++ original.trailing) := by
      simp only [Member.printFrom, Property.replacing, Option.map_some,
        Option.getD_some, List.append_assoc]
      simp only [← List.append_assoc _ _ original.trailing]
      exact ⟨_, rfl⟩
    rw [printed]
    exact .replace (Touched.written shape named new wanted)
termination_by sizeOf member

end

/-- An update touches nothing else.  The text and the result of the update are
cut into the same pieces, and every piece that is replaced is one of the
configuration that the patch may replace.  The empty patch changes nothing. -/
theorem updateText_splits
    {options : PrintOptions} {patch : Patch} {text out : Text}
    (updated : updateText options patch false text = .ok out) :
    ∃ root, locateText text = .ok root ∧
      text = root.textBefore ++
        ((Expr.object root.literal).source ++ root.textAfter) ∧
      Splits
        (fun before original behind => ∃ front back,
          before = root.textBefore ++ front ∧
          behind = back ++ root.textAfter ∧
          Touched patch.entries root.literal front original back) text out ∧
      (patch.entries = [] → out = text) := by
  obtain ⟨root, merged, located, merging, rfl⟩ := updateText_eq_ok updated
  obtain ⟨fromText, split⟩ := ConfigRoot.fromText_of_locateText located
  refine ⟨root, located, split, ?_, ?_⟩
  · rw [fromText.print_replace, split]
    apply Splits.within
    apply (mergeObject_splits fromText.literal merging).mono
    intro before original behind touched
    exact ⟨before, behind, rfl, rfl, touched⟩
  · intro empty
    rw [empty, mergeObject_nil] at merging
    cases merging
    rw [fromText.print_replace, fromText.literal.printFrom_eq, ← split]

/-- An update that replaces a value and appends a member behind a comment. -/
theorem updateText_splits_commented : ∃ root,
    locateText "export default f(\x7b\n  a: 1 // one\n\x7d)".toList = .ok root ∧
      Splits
        (fun before original behind => ∃ front back,
          before = root.textBefore ++ front ∧
          behind = back ++ root.textAfter ∧
          Touched [(['b'], .boolean true), (['a'], .string ['x'])] root.literal
            front original back)
        "export default f(\x7b\n  a: 1 // one\n\x7d)".toList
        "export default f(\x7b\n  a: 'x', // one\n  b: true\n\x7d)".toList := by
  have updated : updateText .standard
      ⟨[(['b'], .boolean true), (['a'], .string ['x'])]⟩ false
      "export default f(\x7b\n  a: 1 // one\n\x7d)".toList = .ok
      "export default f(\x7b\n  a: 'x', // one\n  b: true\n\x7d)".toList := by
    decide +kernel
  obtain ⟨root, located, -, splits, -⟩ := updateText_splits updated
  exact ⟨root, located, splits⟩

end ConfigEdit
