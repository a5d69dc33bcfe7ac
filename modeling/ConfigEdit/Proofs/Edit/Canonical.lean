import ConfigEdit.Edit.Literal
import ConfigEdit.Proofs.Document.Sourced
import ConfigEdit.Proofs.Edit.Calls
import ConfigEdit.Proofs.Edit.Merge

/-!
# The values of new nodes

A value of a patch is built as a new node, and the node stands for the
canonical value: numbers are read from the literals they are written as, and
calls are held as they are printed.  New nodes satisfy the conditions under
which they are read back.
-/

namespace ConfigEdit

namespace PatchValue

mutual

/-- What a value at a path is written and read back as. -/
def canonical (options : PrintOptions) (path : PropertyPath) :
    PatchValue → PatchValue
  | .number value =>
      match Number.ofLiteral? value.literal with
      | some written => .number written
      | none => .call value.literal
  | .string text => .string text
  | .boolean value => .boolean value
  | .object entries => .object (canonicalEntries options path entries)
  | .call text =>
      match buildCall path text with
      | .ok built => .call (built.print options)
      | .error _ => .call text

/-- What the entries of an object at a path are written and read back as. -/
def canonicalEntries (options : PrintOptions) (path : PropertyPath) :
    List (Text × PatchValue) → List (Text × PatchValue)
  | [] => []
  | (key, value) :: others =>
      (key, value.canonical options (path.child key)) ::
        canonicalEntries options path others

end

theorem names_canonicalEntries (options : PrintOptions) (path : PropertyPath)
    (entries : Entries PatchValue) :
    Entries.names (canonicalEntries options path entries) = entries.names := by
  induction entries with
  | nil => rfl
  | cons entry others induction =>
      obtain ⟨key, value⟩ := entry
      simpa [canonicalEntries, Entries.names] using induction

mutual

theorem Distinct.canonical {value : PatchValue} (distinct : value.Distinct)
    (options : PrintOptions) (path : PropertyPath) :
    (value.canonical options path).Distinct := by
  match value with
  | .number decimal =>
      rw [PatchValue.canonical]
      split <;> trivial
  | .string text | .boolean truth => trivial
  | .object entries =>
      refine ⟨?_, AllDistinct.canonical distinct.2 options path⟩
      rw [names_canonicalEntries]
      exact distinct.1
  | .call text =>
      rw [PatchValue.canonical]
      split <;> trivial

theorem AllDistinct.canonical
    {entries : Entries PatchValue} (distinct : AllDistinct entries)
    (options : PrintOptions) (path : PropertyPath) :
    AllDistinct (canonicalEntries options path entries) := by
  match entries with
  | [] => trivial
  | (key, value) :: others =>
      exact ⟨Distinct.canonical distinct.1 options (path.child key),
        AllDistinct.canonical distinct.2 options path⟩

end

end PatchValue

theorem Key.sound_ofName (options : PrintOptions) (name : Text) :
    (Key.ofName name).Sound options [':', ' '] := by
  refine ⟨[], [' '], rfl, Trivia.nil, .of_all rfl, fun rest => ?_⟩
  have colon (continues : Char → Bool) (no : continues ':' = false) :
      EndsAt continues ([':', ' '] ++ rest) := by
    intro character head
    cases head
    exact no
  rw [Key.print, Key.ofName, Option.getD_none, Text.formatKey]
  split
  · next identifier =>
      obtain ⟨first, others, rfl, starts, all⟩ :=
        identifier_of_isIdentifier identifier
      exact .word starts all (colon _ (by decide))
  · have quotes := options.quote.isQuotationMark_mark
    have read : ReadsKey _ _ ([':', ' '] ++ rest) :=
      .quoted quotes (Text.closesString_escape quotes name)
    rw [Text.unescape_escape quotes] at read
    simpa [Text.quote] using read

/-- A new node, which no text behind it turns into a comment. -/
structure Expr.IsNew (options : PrintOptions) (value : Expr) : Prop where
  leaf : value.IsObject ∨
    value.Leaf options ∧ (value.print options).getLast? ≠ some '/'
  every : value.Every (ObjectLiteral.Sourced options)

theorem Expr.IsNew.joins
    {options : PrintOptions} {value : Expr} (new : value.IsNew options)
    (behind : Text) : value.IsObject ∨ Joins (value.print options) behind :=
  new.leaf.imp_right fun ⟨_, last⟩ => .of_getLast? last

theorem Written.getLast?_quote (text : Text) (style : QuoteStyle) :
    (text.quote style).getLast? ≠ some '/' := by
  rw [Text.quote, List.getLast?_concat]
  cases style <;> decide

theorem Expr.getLast?_print_call (options : PrintOptions) (call : Call) :
    ((Expr.call call).print options).getLast? = some ')' := by
  cases call
  rw [print, printFrom, List.getLast?_concat]

theorem Spelled.isNew {options : PrintOptions} {value : Expr}
    (spelled : Spelled value) (last : (value.print options).getLast? ≠ some '/')
    (every : value.Every (ObjectLiteral.Sourced options)) :
    value.IsNew options :=
  ⟨.inr ⟨spelled.leaf, last⟩, every⟩

theorem isNew_of_buildCall {options : PrintOptions} {path : PropertyPath}
    {text : Text} {value : Expr} (built : buildCall path text = .ok value) :
    value.IsNew options ∧
    value.valueIn options = (PatchValue.call text).canonical options path := by
  obtain ⟨spelled, call, same⟩ := spelled_of_buildCall built
  refine ⟨spelled.isNew ?_ (same ▸ trivial), ?_⟩
  · simp [same, Expr.getLast?_print_call]
  · rw [PatchValue.canonical, built, same]
    rfl

theorem not_isObject_of_build {path : PropertyPath} {value : PatchValue}
    {expr : Expr} (leaf : ∀ entries, value ≠ .object entries)
    (built : value.build path = .ok expr) :
    ¬ expr.IsObject := by
  rintro ⟨literal, rfl⟩
  cases value with
  | object entries => exact leaf entries rfl
  | call text =>
      obtain ⟨-, call, same⟩ := spelled_of_buildCall built
      contradiction
  | number _ | string _ | boolean _ => cases built

mutual

/-- A value is built as a new node of the canonical value. -/
theorem isNew_of_build {options : PrintOptions} {path : PropertyPath}
    {value : PatchValue} {expr : Expr} (built : value.build path = .ok expr) :
    expr.IsNew options ∧
    expr.valueIn options = value.canonical options path := by
  match value with
  | .number number =>
      cases built
      exact ⟨(Spelled.literal number).isNew
        (getLast?_ne_slash number.isPlain_literal) trivial, rfl⟩
  | .string text =>
      cases built
      exact ⟨(Spelled.string text).isNew
        (Written.getLast?_quote text options.quote) trivial, rfl⟩
  | .boolean truth =>
      cases built
      refine ⟨(Spelled.truth truth).isNew ?_ trivial, rfl⟩
      cases truth with
      | false => exact (by decide : (truthWord false).getLast? ≠ some '/')
      | true => exact (by decide : (truthWord true).getLast? ≠ some '/')
  | .object entries =>
      obtain ⟨properties, found, rfl⟩ := build_object_eq_ok built
      obtain ⟨all, sound, values⟩ :=
        @sourced_of_buildProperties options _ _ _ found
      have new := buildProperties_leading? found
      have none' : (ObjectLiteral.ofProperties properties).leadings = [] := by
        simpa [ObjectLiteral.leadings, ObjectLiteral.ofProperties,
          List.filterMap_eq_nil_iff] using new
      refine ⟨⟨.inl ⟨_, rfl⟩,
        ⟨fun member inside => (sound member inside).1, ?_, ?_, Trivia.nil,
          fun _ member inside =>
            (sound member (List.mem_of_getLast? inside)).2.2 _⟩, all⟩, ?_⟩
      · intro leading inside
        exact absurd (none' ▸ inside : leading ∈ []) List.not_mem_nil
      · intro member inside
        obtain ⟨-, trailing, joins⟩ := sound member inside
        exact ⟨trailing ▸ Trivia.nil, joins _⟩
      · rw [Expr.valueIn_object, PatchValue.canonical]
        exact congrArg PatchValue.object values
  | .call text =>
      rw [PatchValue.build] at built
      exact isNew_of_buildCall built

theorem sourced_of_buildProperties
    {options : PrintOptions} {path : PropertyPath}
    {entries : Entries PatchValue} {properties : List Property}
    (built : PatchValue.buildProperties path entries = .ok properties) :
    Member.AllEvery (ObjectLiteral.Sourced options) (properties.map .property) ∧
      (∀ member ∈ properties.map Member.property, member.Sound options ∧
        member.trailing = [] ∧ ∀ behind, member.JoinsTo options behind) ∧
      Member.entriesIn options (properties.map .property) =
        PatchValue.canonicalEntries options path entries := by
  match entries with
  | [] =>
      cases built
      exact ⟨trivial, by simp, rfl⟩
  | (key, value) :: others =>
      obtain ⟨expr, further, first, rest, rfl⟩ :=
        buildProperties_cons_eq_ok built
      obtain ⟨new, same⟩ := @isNew_of_build options _ _ _ first
      obtain ⟨all, sound, entries⟩ :=
        @sourced_of_buildProperties options _ _ _ rest
      refine ⟨⟨new.every, all⟩, ?_, ?_⟩
      · intro member inside
        rcases List.mem_cons.1 inside with rfl | inside
        · exact ⟨⟨Key.sound_ofName options key, new.leaf.imp_right And.left⟩,
            rfl, new.joins⟩
        · exact sound member inside
      · rw [List.map_cons, Property.ofValue, Member.entriesIn, entries, same]
        rfl

end

end ConfigEdit
