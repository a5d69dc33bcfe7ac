import ConfigEdit.Document.Print
import ConfigEdit.Proofs.Edit.Merge
import Mathlib.Data.List.Basic

/-!
# The texts of a tree through an edit

An edit takes nodes of the tree over as they are, and builds others.  A property
of all texts that are kept in a tree, and of its calls, is one of the tree after
a merge if the few texts that new nodes keep, and the calls that are built, have
it as well.
-/

namespace ConfigEdit

mutual

/-- A property of all texts that are kept in the tree of an expression, with
another one for its calls. -/
def Expr.EveryText (texts : Text → Prop) (calls : Call → Prop) : Expr → Prop
  | .object ⟨members, close, _⟩ =>
      Member.AllEveryText texts calls members ∧ ∀ text ∈ close, texts text
  | .call call => calls call
  | .number text | .verbatim text => texts text
  | .string _ raw => ∀ text ∈ raw, texts text
  | .boolean _ => True

/-- A property of all texts that are kept in members. -/
def Member.AllEveryText (texts : Text → Prop) (calls : Call → Prop) :
    List Member → Prop
  | [] => True
  | .property ⟨key, value, layout⟩ :: others =>
      ((∀ raw ∈ key.raw, texts raw) ∧
        (∀ around ∈ layout, texts around.leading ∧ texts around.separator ∧
          texts around.trailing) ∧ value.EveryText texts calls) ∧
        Member.AllEveryText texts calls others
  | .written member :: others =>
      (texts member.leading ∧ texts member.text ∧ texts member.trailing) ∧
        Member.AllEveryText texts calls others

end

namespace PatchValue

mutual

/-- A property of the text of each call in the value. -/
def EveryCall (markers : Text → Prop) : PatchValue → Prop
  | .object entries => AllEveryCall markers entries
  | .call text => markers text
  | .number _ | .string _ | .boolean _ => True

/-- A property of the text of each call in the entries of an object. -/
def AllEveryCall (markers : Text → Prop) : List (Text × PatchValue) → Prop
  | [] => True
  | (_, value) :: others =>
      value.EveryCall markers ∧ AllEveryCall markers others

end

theorem allEveryCall_iff
    {markers : Text → Prop} {entries : Entries PatchValue} :
    AllEveryCall markers entries ↔
      ∀ entry ∈ entries, entry.2.EveryCall markers := by
  induction entries with
  | nil => simp [AllEveryCall]
  | cons entry others induction =>
      obtain ⟨key, value⟩ := entry
      simp [AllEveryCall, induction]

end PatchValue

variable {texts : Text → Prop} {calls : Call → Prop} {markers : Text → Prop}

theorem Expr.everyText_object {literal : ObjectLiteral} :
    (Expr.object literal).EveryText texts calls ↔
      Member.AllEveryText texts calls literal.members ∧
        ∀ text ∈ literal.close, texts text := by
  cases literal
  exact Iff.rfl

theorem Member.allEveryText_append {left right : List Member} :
    Member.AllEveryText texts calls (left ++ right) ↔
      Member.AllEveryText texts calls left ∧
      Member.AllEveryText texts calls right := by
  induction left with
  | nil => simp [AllEveryText]
  | cons member others induction =>
      cases member with
      | property entry =>
          cases entry
          simp [AllEveryText, induction, and_assoc]
      | written member => simp [AllEveryText, induction, and_assoc]

theorem ObjectLiteral.leadings_of_allEveryText {literal : ObjectLiteral}
    (kept : Member.AllEveryText texts calls literal.members) :
    ∀ leading ∈ literal.leadings, texts leading := by
  intro leading inside
  obtain ⟨member, among, found⟩ := List.mem_filterMap.1 inside
  obtain ⟨left, right, split⟩ := List.append_of_mem among
  rw [split, Member.allEveryText_append] at kept
  cases member with
  | property entry =>
      obtain ⟨around, stands, rfl⟩ := Option.map_eq_some_iff.1 found
      cases entry
      exact (kept.2.1.2.1 around stands).1
  | written member =>
      cases found
      exact kept.2.1.1

/-- What new nodes keep has the property: the literals of numbers, the colon
behind the key of a member that takes the place of another one, and calls that
are built from text. -/
structure KeptByEdits
    (texts : Text → Prop) (calls : Call → Prop) (markers : Text → Prop) :
    Prop where
  literal : ∀ number : Number, texts number.literal
  separator : texts [':', ' ']
  call : ∀ {path marker expr},
    markers marker → buildCall path marker = .ok expr →
    expr.EveryText texts calls

mutual

theorem everyText_of_build (edits : KeptByEdits texts calls markers)
    {path : PropertyPath} {value : PatchValue} {expr : Expr}
    (marked : value.EveryCall markers) (built : value.build path = .ok expr) :
    expr.EveryText texts calls := by
  match value with
  | .number number =>
      cases built
      exact edits.literal number
  | .string text =>
      cases built
      rintro raw ⟨⟩
  | .boolean _ =>
      cases built
      trivial
  | .call text => exact edits.call marked built
  | .object entries =>
      obtain ⟨properties, found, rfl⟩ := build_object_eq_ok built
      exact ⟨allEveryText_of_buildProperties edits marked found,
        by rintro close ⟨⟩⟩

theorem allEveryText_of_buildProperties
    (edits : KeptByEdits texts calls markers) {path : PropertyPath}
    {entries : Entries PatchValue} {properties : List Property}
    (marked : PatchValue.AllEveryCall markers entries)
    (built : PatchValue.buildProperties path entries = .ok properties) :
    Member.AllEveryText texts calls (properties.map .property) := by
  match entries with
  | [] =>
      cases built
      trivial
  | (key, value) :: others =>
      obtain ⟨expr, further, first, rest, rfl⟩ :=
        buildProperties_cons_eq_ok built
      refine ⟨⟨?_, ?_, everyText_of_build edits marked.1 first⟩,
        allEveryText_of_buildProperties edits marked.2 rest⟩
      · rintro raw ⟨⟩
      · rintro layout ⟨⟩

end

mutual

/-- A merge leaves the property to the tree. -/
theorem everyText_of_mergeObject
    (edits : KeptByEdits texts calls markers) {path : PropertyPath}
    {patch : Entries PatchValue} {literal merged : ObjectLiteral}
    (marked : PatchValue.AllEveryCall markers patch)
    (kept : (Expr.object literal).EveryText texts calls)
    (found : mergeObject path patch literal = .ok merged) :
    (Expr.object merged).EveryText texts calls := by
  match literal with
  | ⟨members, close, trailingComma⟩ =>
      obtain ⟨first, appended, keeping, appending, rfl⟩ :=
        mergeObject_eq_ok found
      refine ⟨Member.allEveryText_append.2 ⟨?_, ?_⟩, kept.2⟩
      · exact everyText_of_mergeMembers edits marked kept.1 keeping
      · refine allEveryText_of_buildProperties edits ?_ appending
        rw [PatchValue.allEveryCall_iff] at marked ⊢
        exact fun entry inside => marked entry (List.mem_of_mem_filter inside)
termination_by sizeOf literal

theorem everyText_of_mergeMembers (edits : KeptByEdits texts calls markers)
    {path : PropertyPath} {patch : Entries PatchValue} {seen : List Text}
    {members merged : List Member}
    (marked : PatchValue.AllEveryCall markers patch)
    (kept : Member.AllEveryText texts calls members)
    (found : mergeMembers path patch seen members = .ok merged) :
    Member.AllEveryText texts calls merged := by
  match members with
  | [] =>
      rw [mergeMembers] at found
      cases found
      trivial
  | member :: others =>
      rw [← List.singleton_append, Member.allEveryText_append] at kept
      obtain ⟨first, further, rfl, rest, merging⟩ := mergeMembers_cons found
      refine (@Member.allEveryText_append _ _ [first] further).2
        ⟨?_, everyText_of_mergeMembers edits marked kept.2 rest⟩
      rcases merging with ⟨rfl, -⟩ | ⟨name, value, -, -, wanted, merging⟩
      · exact kept.1
      · have named :=
          PatchValue.allEveryCall_iff.1 marked _ (Entries.mem_of_get? wanted)
        exact everyText_of_mergeMember edits named kept.1 merging
termination_by sizeOf members

theorem everyText_of_mergeMember (edits : KeptByEdits texts calls markers)
    {path : PropertyPath} {name : Text} {value : PatchValue}
    {member merged : Member} (marked : value.EveryCall markers)
    (kept : Member.AllEveryText texts calls [member])
    (found : mergeMember path name value member = .ok merged) :
    Member.AllEveryText texts calls [merged] := by
  rcases mergeMember_eq_ok found with
    ⟨key, inner, layout, nested, below, rfl, rfl, merging, rfl⟩ |
      ⟨⟨key, original, layout⟩, expr, rfl, -, built, rfl⟩ |
      ⟨original, expr, rfl, built, rfl⟩
  · obtain ⟨⟨raw, around, literal⟩, -⟩ := kept
    exact ⟨⟨raw, around, everyText_of_mergeObject edits marked literal merging⟩,
      trivial⟩
  · obtain ⟨⟨raw, around, -⟩, -⟩ := kept
    exact ⟨⟨raw, around, everyText_of_build edits marked built⟩, trivial⟩
  · obtain ⟨⟨before, -, after⟩, -⟩ := kept
    refine ⟨⟨?_, ?_, everyText_of_build edits marked built⟩, trivial⟩
    · rintro raw ⟨⟩
    · rintro layout ⟨⟩
      exact ⟨before, edits.separator, after⟩
termination_by sizeOf member

end

end ConfigEdit
