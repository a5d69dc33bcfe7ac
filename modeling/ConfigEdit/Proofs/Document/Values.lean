import ConfigEdit.Edit.Read
import ConfigEdit.Proofs.Document.Lossless
import ConfigEdit.Proofs.Patch.Keyed

/-!
# The values of a tree

`Expr.valueIn options` is the value that an expression stands for when it is
printed under the options.  On a node that comes from a text the options do not
matter.  When the names in each object are distinct, it is the value that the
expression is read as (`Expr.read_eq`).
-/

namespace ConfigEdit

mutual

/-- The value of an expression; a call is held as its print. -/
def Expr.valueIn (options : PrintOptions) : Expr → PatchValue
  | .object ⟨members, _, _⟩ => .object (Member.entriesIn options members)
  | .string value _ => .string value
  | .boolean value => .boolean value
  | .number text =>
      match Number.ofLiteral? text with
      | some value => .number value
      | none => .call text
  | .call call => .call ((Expr.call call).print options)
  | .verbatim text => .call text

/-- The values of members under their names. -/
def Member.entriesIn (options : PrintOptions) : List Member → Entries PatchValue
  | [] => []
  | .property ⟨key, value, _⟩ :: others =>
      (key.name, value.valueIn options) :: Member.entriesIn options others
  | .written member :: others =>
      match member.name with
      | some name =>
          (name, .call member.text) :: Member.entriesIn options others
      | none => Member.entriesIn options others

end

theorem Expr.valueIn_object (options : PrintOptions) (literal : ObjectLiteral) :
    (Expr.object literal).valueIn options =
      .object (Member.entriesIn options literal.members) := by
  cases literal
  rfl

theorem Expr.valueIn_ne_object
    {value : Expr} (different : ∀ literal, value ≠ .object literal)
    (options : PrintOptions) (entries : Entries PatchValue) :
    value.valueIn options ≠ .object entries := by
  cases value with
  | object literal => exact absurd rfl (different literal)
  | number text =>
      rw [Expr.valueIn]
      split <;> simp
  | call _ | string _ _ | boolean _ | verbatim _ => simp [Expr.valueIn]

theorem Member.entriesIn_append
    (options : PrintOptions) (left right : List Member) :
    Member.entriesIn options (left ++ right) =
      Member.entriesIn options left ++ Member.entriesIn options right := by
  induction left with
  | nil => rfl
  | cons member others induction =>
      cases member with
      | property entry =>
          cases entry
          simp [entriesIn, induction]
      | written member =>
          cases named : member.name with
          | none => simp [entriesIn, named, induction]
          | some name => simp [entriesIn, named, induction]

theorem Member.entriesIn_cons
    (options : PrintOptions) (member : Member) (others : List Member) :
    Member.entriesIn options (member :: others) =
      Member.entriesIn options [member] ++ Member.entriesIn options others :=
  Member.entriesIn_append options [member] others

@[simp] theorem Member.entriesIn_withTrailing
    (options : PrintOptions) (member : Member) (trailing : Text) :
    Member.entriesIn options [member.withTrailing trailing] =
      Member.entriesIn options [member] := by
  cases member with
  | property entry => cases entry; rfl
  | written member => rfl

theorem Member.names_entriesIn
    (options : PrintOptions) (members : List Member) :
    Entries.names (Member.entriesIn options members) =
      members.filterMap Member.name? := by
  induction members with
  | nil => rfl
  | cons member others induction =>
      cases member with
      | property entry =>
          cases entry
          simpa [entriesIn, Entries.names, name?] using induction
      | written member =>
          cases named : member.name with
          | none => simpa [entriesIn, named, name?] using induction
          | some name =>
              simpa [entriesIn, named, name?, Entries.names] using induction

mutual

/-- The options do not matter to a node that comes from a text. -/
theorem Expr.FromText.valueIn_eq {value : Expr} (fromText : value.FromText)
    (options other : PrintOptions) :
    value.valueIn options = value.valueIn other := by
  match value with
  | .object ⟨members, close, comma⟩ =>
      rw [Expr.valueIn, Expr.valueIn,
        Member.entriesIn_eq fromText.1 options other]
  | .call call =>
      rw [Expr.valueIn, Expr.valueIn, Expr.print, Expr.print,
        fromText.printFrom_eq, fromText.printFrom_eq]
  | .number text | .string content raw | .boolean truth | .verbatim text => rfl

theorem Member.entriesIn_eq {members : List Member}
    (fromText : Member.AllFromText members) (options other : PrintOptions) :
    Member.entriesIn options members = Member.entriesIn other members := by
  match members with
  | [] => rfl
  | .property ⟨key, value, layout⟩ :: others =>
      obtain ⟨⟨-, -, first⟩, further⟩ := fromText
      rw [Member.entriesIn, Member.entriesIn, first.valueIn_eq options other,
        Member.entriesIn_eq further options other]
  | .written member :: others =>
      rw [Member.entriesIn, Member.entriesIn,
        Member.entriesIn_eq fromText.2 options other]

end

theorem Entries.insert_of_notMem {kind : Type} {entries : Entries kind}
    {name : Text} (new : name ∉ entries.names) (value : kind) :
    entries.insert name value = entries ++ [(name, value)] := by
  induction entries with
  | nil => rfl
  | cons entry others induction =>
      obtain ⟨key, old⟩ := entry
      simp only [names, List.map_cons, List.mem_cons, not_or] at new
      rw [insert, if_neg (Ne.symm new.1), induction new.2, List.cons_append]

mutual

theorem Expr.read_eq
    {value : Expr} (distinct : (value.valueIn .standard).Distinct) :
    value.read = value.valueIn .standard := by
  match value with
  | .object ⟨members, close, comma⟩ =>
      rw [Expr.read, Expr.valueIn,
        @readMembers_eq [] members distinct.1 distinct.2,
        List.nil_append]
  | .number text | .string content raw | .boolean truth | .call call
  | .verbatim text => rfl

/-- Members with new names are read behind the entries that are there. -/
theorem readMembers_eq {entries : Entries PatchValue} {members : List Member}
    (nodup :
      (Entries.names (entries ++ Member.entriesIn .standard members)).Nodup)
    (distinct : PatchValue.AllDistinct (Member.entriesIn .standard members)) :
    readMembers entries members =
      entries ++ Member.entriesIn .standard members := by
  have notMem {name : Text} {value : PatchValue} {others : Entries PatchValue}
      (nodup : (Entries.names (entries ++ (name, value) :: others)).Nodup) :
      name ∉ entries.names := by
    simp only [Entries.names, List.map_append, List.map_cons] at nodup
    intro inside
    exact (List.nodup_append.1 nodup).2.2 name inside name
      List.mem_cons_self rfl
  match members with
  | [] => rw [readMembers, Member.entriesIn, List.append_nil]
  | .property ⟨key, value, layout⟩ :: others =>
      rw [Member.entriesIn] at nodup distinct ⊢
      rw [readMembers, Expr.read_eq distinct.1,
        Entries.insert_of_notMem (notMem nodup),
        readMembers_eq (by simpa using nodup) distinct.2]
      simp
  | .written member :: others =>
      rw [Member.entriesIn] at nodup distinct ⊢
      rw [readMembers]
      cases named : member.name with
      | none =>
          simp only [named] at nodup distinct ⊢
          exact readMembers_eq nodup distinct
      | some name =>
          simp only [named] at nodup distinct ⊢
          rw [Entries.insert_of_notMem (notMem nodup),
            readMembers_eq (by simpa using nodup) distinct.2]
          simp

end

theorem ObjectLiteral.read_eq {literal : ObjectLiteral}
    (distinct : ((Expr.object literal).valueIn .standard).Distinct) :
    literal.read = Member.entriesIn .standard literal.members := by
  rw [Expr.valueIn_object] at distinct
  rw [read, readMembers_eq (by simpa using distinct.1) distinct.2,
    List.nil_append]

end ConfigEdit
