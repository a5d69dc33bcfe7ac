import ConfigEdit.Proofs.Document.Printable

/-!
# What is read can be printed

The conditions on the keys and values of an object literal, and on the trivia
between its members, hold of each object literal that comes from a text.
-/

namespace ConfigEdit

namespace Member

variable {options : PrintOptions} {member : Member} {trailing behind : Text}

@[simp] theorem sound_withTrailing :
    (member.withTrailing trailing).Sound options ↔ member.Sound options := by
  cases member with
  | property entry =>
      cases entry with
      | mk key value layout => cases layout <;> rfl
  | written member => rfl

@[simp] theorem joinsTo_withTrailing :
    (member.withTrailing trailing).JoinsTo options behind ↔
      member.JoinsTo options behind := by
  cases member with
  | property entry => cases entry; rfl
  | written member => rfl

@[simp] theorem allEvery_withTrailing
    {property : ObjectLiteral → Prop} {others : List Member} :
    AllEvery property (member.withTrailing trailing :: others) ↔
      AllEvery property (member :: others) := by
  cases member with
  | property entry => cases entry; rfl
  | written member => rfl

@[simp] theorem leading?_withTrailing :
    (member.withTrailing trailing).leading? = member.leading? := by
  cases member with
  | property entry =>
      cases entry with
      | mk key value layout => cases layout <;> rfl
  | written member => rfl

theorem JoinsTo.nil (member : Member) : member.JoinsTo options [] := by
  cases member with
  | property entry => cases entry; exact .inr .nil_right
  | written member => exact Joins.nil_right

theorem FromText.leading?_eq (fromText : member.FromText) :
    member.leading? = some member.leading := by
  obtain ⟨leading, found⟩ := Option.isSome_iff_exists.1 fromText.leading?_isSome
  simp [Member.leading, found]

end Member

/-- The text before a member may be any other. -/
theorem ReadsMember.with_leading
    {leading text rest : Text} {member : WrittenMember}
    (reads : ReadsMember leading text (.written member) rest) (other : Text) :
    ReadsMember other text (.written ⟨member.name, member.text, other, []⟩)
      rest := by
  cases reads with
  | method key first opens isRun => exact .method key first opens isRun
  | shorthand key found delimits => exact .shorthand key found delimits
  | modified key first begins named modifier isRun =>
      exact .modified key first begins named modifier isRun
  | unnamed noKey isRun => exact .unnamed noKey isRun

theorem ReadsKey.sound {text before behind inner : Text} {key : Key}
    (reads : ReadsKey text key (before ++ ':' :: (behind ++ inner)))
    (first : Trivia before) (second : Trivia behind) (options : PrintOptions) :
    key.Sound options (before ++ ':' :: behind) := by
  refine ⟨before, behind, rfl, first, second, fun rest => ?_⟩
  obtain ⟨kept, split⟩ := reads.split
  obtain ⟨name, raw⟩ := key
  obtain ⟨raw, rfl⟩ := Option.isSome_iff_exists.1 kept
  subst split
  refine reads.congr_right (.inl ?_)
  cases before <;> rfl

/-- The conditions that hold of each object literal that comes from a text. -/
def ObjectLiteral.Sourced (options : PrintOptions)
    (literal : ObjectLiteral) : Prop :=
  literal.Sound options ∧ literal.Spaced options

/-- A member that comes from a text, with the text behind it. -/
structure Member.Sourced (options : PrintOptions) (behind : Text)
    (member : Member) : Prop where
  sound : member.Sound options
  joins : member.JoinsTo options behind
  every : Member.AllEvery (ObjectLiteral.Sourced options) [member]

theorem ObjectLiteral.keptClose_of_fromText {literal : ObjectLiteral}
    (fromText : Member.AllFromText literal.members) :
    literal.keptClose = literal.close.getD [] := by
  rw [keptClose, hasAppended_eq_false literal fromText]
  rfl

theorem ReadsMember.sourced_written {leading text rest trailing behind : Text}
    {member : WrittenMember}
    (reads : ReadsMember leading text (.written member) rest)
    (begins : Begins '}' text) (split : rest = trailing ++ behind)
    (options : PrintOptions) :
    (Member.written member).Sourced options trailing := by
  obtain ⟨-, -, -, whole⟩ := reads.split
  simp only [Member.body] at whole
  obtain ⟨body, whole', relocates⟩ := reads.relocates rfl
  rw [whole] at whole'
  obtain rfl := List.append_cancel_right whole'
  obtain ⟨run, whole', more, joins, -⟩ := reads.tracksTo
  rw [whole] at whole'
  obtain rfl := List.append_cancel_right whole'
  subst whole split
  refine ⟨fun rest ends joins => ?_, joins.of_append_right, trivial⟩
  have reads' := relocates rest ends joins
  exact ⟨begins.congr_right more joins, fun other => reads'.with_leading other⟩

mutual

theorem ReadsValue.every {strict : Bool} {text rest : Text} {value : Expr}
    (reads : ReadsValue strict text value rest) (options : PrintOptions) :
    value.Every (ObjectLiteral.Sourced options) := by
  match reads with
  | .node reads _ => exact reads.every options
  | .beyond .. | .verbatim .. => trivial

theorem ReadsNode.every
    {text rest : Text} {value : Expr} (reads : ReadsNode text value rest)
    (options : PrintOptions) : value.Every (ObjectLiteral.Sourced options) := by
  match reads with
  | @ReadsNode.object text rest literal reads =>
      obtain ⟨all, sound, spaced⟩ := reads.every options
      refine Expr.every_object.2
        ⟨⟨sound, spaced.leadings, spaced.trailings, spaced.close, ?_⟩, all⟩
      intro comma member inside
      refine spaced.last ?_ member inside
      rintro found
      have some : literal.members.isEmpty = false := by
        cases shape : literal.members with
        | nil => simp [shape] at inside
        | cons => rfl
      simp [some, found] at comma
  | .string .. | .number .. | .boolean .. | .call .. => trivial

theorem ReadsMembers.every
    {text rest : Text} {afterComma : Bool} {literal : ObjectLiteral}
    (reads : ReadsMembers afterComma text literal rest)
    (options : PrintOptions) :
    Member.AllEvery (ObjectLiteral.Sourced options) literal.members ∧
      literal.Sound options ∧ literal.Spaced options := by
  match reads with
  | .close complete =>
      refine ⟨trivial, by simp [ObjectLiteral.Sound], ?_, ?_, complete, ?_⟩
      · simp [ObjectLiteral.leadings]
      · simp
      · simp
  | @ReadsMembers.last leading _ trailing _ _ member complete begins reads
        closed =>
      have sourced := reads.sourced begins rfl options
      obtain ⟨fromText, leading', none', -⟩ := reads.split
      have kept : Member.AllFromText [member] := ⟨fromText, trivial⟩
      refine ⟨sourced.every,
        by simpa [ObjectLiteral.Sound] using sourced.sound, ?_, ?_, closed, ?_⟩
      · simpa [ObjectLiteral.leadings, fromText.leading?_eq, leading']
          using complete
      · simpa [none'] using ⟨Trivia.nil, Member.JoinsTo.nil member⟩
      · rw [ObjectLiteral.keptClose_of_fromText kept]
        simpa [none'] using sourced.joins
  | @ReadsMembers.more leading _ trailing _ _ _ member literal complete begins
        reads closed others =>
      have sourced := reads.sourced begins rfl options
      obtain ⟨fromText, leading', -, -⟩ := reads.split
      obtain ⟨all, sound, spaced⟩ := others.every options
      obtain ⟨allFromText, -, -, empty, -⟩ := others.split
      have kept : Member.AllFromText
          (member.withTrailing trailing :: literal.members) :=
        ⟨Member.fromText_withTrailing.2 fromText, allFromText⟩
      refine ⟨?_, ?_, ?_, ?_, spaced.close, ?_⟩
      · rw [Member.allEvery_withTrailing, Member.allEvery_cons]
        exact ⟨sourced.every, all⟩
      · intro other inside
        rcases List.mem_cons.1 inside with rfl | inside
        · exact Member.sound_withTrailing.2 sourced.sound
        · exact sound other inside
      · intro text inside
        simp only [ObjectLiteral.leadings, List.filterMap_cons,
          Member.leading?_withTrailing, fromText.leading?_eq, leading',
          List.mem_cons] at inside
        rcases inside with rfl | inside
        · exact complete
        · exact spaced.leadings text inside
      · intro other inside
        rcases List.mem_cons.1 inside with rfl | inside
        · rw [fromText.trailing_withTrailing, Member.joinsTo_withTrailing]
          exact ⟨closed, sourced.joins⟩
        · exact spaced.trailings other inside
      · intro comma other inside
        rw [ObjectLiteral.keptClose_of_fromText kept]
        cases shape : literal.members with
        | nil => exact absurd (empty shape) comma
        | cons next further =>
            rw [← ObjectLiteral.keptClose_of_fromText allFromText]
            refine spaced.last comma other ?_
            simpa [shape] using inside

theorem ReadsMember.sourced
    {leading text rest trailing behind : Text} {member : Member}
    (reads : ReadsMember leading text member rest) (begins : Begins '}' text)
    (split : rest = trailing ++ behind) (options : PrintOptions) :
    member.Sourced options trailing := by
  match reads with
  | @ReadsMember.property _ _ _ _ _ _ _ value readsKey first second token
        reads =>
      have every := reads.every options
      refine ⟨⟨readsKey.sound first second options,
        .inr (reads.leaf token options)⟩, .inr ?_, ⟨every, trivial⟩⟩
      obtain ⟨fromText, whole⟩ := reads.split
      obtain ⟨run, whole', -, joins, -⟩ := reads.tracksTo
      rw [whole] at whole'
      obtain rfl := List.append_cancel_right whole'
      subst split
      rw [fromText.print_eq]
      exact joins.of_append_right
  | .method key first opens isRun =>
      exact (ReadsMember.method key first opens isRun).sourced_written begins
        split options
  | .shorthand key found delimits =>
      exact (ReadsMember.shorthand key found delimits).sourced_written begins
        split options
  | .modified key first token named modifier isRun =>
      exact (ReadsMember.modified key first token named modifier
        isRun).sourced_written begins split options
  | .unnamed noKey isRun =>
      exact (ReadsMember.unnamed noKey isRun).sourced_written begins
        split options

end

end ConfigEdit
