import ConfigEdit.Proofs.Document.Settling
import ConfigEdit.Proofs.Edit.Rebuilding
import ConfigEdit.Proofs.Edit.Rejection

/-!
# New expressions read back

What is built for a value of a patch is printed as a text that is one
expression, and this is read as the canonical value again: keys and their order,
strings and truth values stay, numbers become the numbers that their literals
stand for, and a call becomes its print.

Object literals that a call takes over from its text must be steady: the look
for type arguments behind an angle bracket in them must not go past their end.
-/

namespace ConfigEdit

/-- The object literals that the calls in a value at a path take over are
steady. -/
def PatchValue.KeepsSteady (path : PropertyPath) (value : PatchValue) : Prop :=
  ∀ below text built,
    value.HoldsCall path below text → buildCall below text = .ok built →
    built.EveryArgument Expr.SteadyLiteral

/-- The object literals that the calls in the entries of an object take over are
steady. -/
def Entries.KeepSteady (path : PropertyPath)
    (entries : Entries PatchValue) : Prop :=
  ∀ below text built, entries.HoldCall (fun _ => True) path below text →
    buildCall below text = .ok built → built.EveryArgument Expr.SteadyLiteral

theorem PatchValue.KeepsSteady.entries
    {path : PropertyPath} {entries : Entries PatchValue}
    (steady : (PatchValue.object entries).KeepsSteady path) :
    entries.KeepSteady path :=
  fun below text built holds =>
    steady below text built (holdsCall_object.2 holds)

theorem Entries.KeepSteady.cons
    {path : PropertyPath} {key : Text} {value : PatchValue}
    {others : Entries PatchValue} (new : key ∉ others.names)
    (steady : Entries.KeepSteady path ((key, value) :: others)) :
    value.KeepsSteady (path.child key) ∧ others.KeepSteady path :=
  ⟨fun below text built holds =>
      steady below text built ((PatchValue.holdCall_cons new).2 (.inl holds)),
    fun below text built holds =>
      steady below text built ((PatchValue.holdCall_cons new).2 (.inr holds))⟩

mutual

/-- A value keeps steady literals if nothing that is built for it is angled. -/
theorem keepsSteady_of_plain
    {path : PropertyPath} (value : KeyedValue) {expr : Expr}
    (built : value.tree.build path = .ok expr) (plain : expr.angled = false) :
    value.tree.KeepsSteady path := by
  match value with
  | ⟨.number _, _⟩ | ⟨.string _, _⟩ | ⟨.boolean _, _⟩ =>
      rintro below text call ⟨names, -, found⟩
      cases names <;> cases found
  | ⟨.call text, _⟩ =>
      intro below text call holds made
      obtain ⟨rfl, rfl⟩ := PatchValue.holdsCall_call.1 holds
      obtain rfl := Except.ok.inj (built.symm.trans made)
      exact ((spelled_of_buildCall made).1.steadyLiteral_of_plain plain).2
  | ⟨.object entries, distinct⟩ =>
      obtain ⟨properties, found, rfl⟩ := build_object_eq_ok built
      rw [Expr.angled_object] at plain
      have steady := keepSteady_of_plain (.ofObject distinct) found plain
      exact fun below text call holds =>
        steady below text call (PatchValue.holdsCall_object.1 holds)
termination_by sizeOf value.tree

theorem keepSteady_of_plain {path : PropertyPath} (patch : KeyedPatch)
    {properties : List Property}
    (built : PatchValue.buildProperties path patch.entries = .ok properties)
    (plain : Member.anyAngled (properties.map .property) = false) :
    patch.entries.KeepSteady path := by
  match patch with
  | ⟨⟨[]⟩, _⟩ => exact fun below text call ⟨_, _, _, found, _⟩ => nomatch found
  | ⟨⟨(key, value) :: others⟩, distinct⟩ =>
      have new : key ∉ Entries.names others := (List.nodup_cons.1 distinct.1).1
      obtain ⟨expr, further, first, rest, rfl⟩ :=
        buildProperties_cons_eq_ok built
      obtain ⟨plain, plains⟩ := Bool.or_eq_false_iff.1 plain
      intro below text call holds
      rcases (PatchValue.holdCall_cons new).1 holds with holds | holds
      · exact keepsSteady_of_plain ⟨value, distinct.2.1⟩ first plain below text
          call holds
      · exact keepSteady_of_plain (.ofObject distinct.tail) rest plains below
          text call holds
termination_by sizeOf patch.entries

end

theorem Spelled.readsAnywhere
    {options : PrintOptions} {value : Expr} (spelled : Spelled value)
    (steady : value.SteadyLiteral ∧ value.EveryArgument Expr.SteadyLiteral) :
    value.ReadsAnywhere options :=
  .inr fun _ stops joins => spelled.readsBefore steady.1 steady.2 stops joins

mutual

/-- What is built for a value is read wherever an expression may end, and so are
the values of which it is made. -/
theorem steadfast_of_build
    {options : PrintOptions} (indent : Trivia options.indent)
    {path : PropertyPath} (value : KeyedValue) {expr : Expr}
    (steady : value.tree.KeepsSteady path)
    (built : value.tree.build path = .ok expr) :
    expr.Every (ObjectLiteral.Steadfast options) ∧
    expr.ReadsAnywhere options := by
  match value with
  | ⟨.number number, _⟩ =>
      cases built
      have spelled := Spelled.literal number
      exact ⟨trivial,
        spelled.readsAnywhere (spelled.steadyLiteral_of_plain rfl)⟩
  | ⟨.string text, _⟩ =>
      cases built
      have spelled := Spelled.string text
      exact ⟨trivial,
        spelled.readsAnywhere (spelled.steadyLiteral_of_plain rfl)⟩
  | ⟨.boolean truth, _⟩ =>
      cases built
      have spelled := Spelled.truth truth
      exact ⟨trivial,
        spelled.readsAnywhere (spelled.steadyLiteral_of_plain rfl)⟩
  | ⟨.call text, _⟩ =>
      have every :=
        steady path text expr (PatchValue.holdsCall_call.2 ⟨rfl, rfl⟩) built
      obtain ⟨spelled, call, rfl⟩ := spelled_of_buildCall built
      refine ⟨trivial, spelled.readsAnywhere ⟨?_, every⟩⟩
      simp [Expr.SteadyLiteral, Expr.IsObject]
  | ⟨.object entries, distinct⟩ =>
      have printable := printable_of_build indent built
      obtain ⟨properties, found, rfl⟩ := build_object_eq_ok built
      obtain ⟨all, reads⟩ :=
        steadfast_of_buildProperties indent
          (.ofObject distinct) steady.entries found
      exact ⟨Expr.every_object.2 ⟨⟨(Expr.every_object.1 printable).1, reads⟩,
        all⟩, .inl ⟨_, rfl⟩⟩
termination_by sizeOf value.tree

theorem steadfast_of_buildProperties
    {options : PrintOptions} (indent : Trivia options.indent)
    {path : PropertyPath} (patch : KeyedPatch) {properties : List Property}
    (steady : patch.entries.KeepSteady path)
    (built : PatchValue.buildProperties path patch.entries = .ok properties) :
    Member.AllEvery (ObjectLiteral.Steadfast options)
      (properties.map .property) ∧
      ∀ member ∈ properties.map Member.property,
        member.ReadsAnywhere options := by
  match patch with
  | ⟨⟨[]⟩, _⟩ =>
      cases built
      exact ⟨trivial, by simp⟩
  | ⟨⟨(key, value) :: others⟩, distinct⟩ =>
      have new : key ∉ Entries.names others := (List.nodup_cons.1 distinct.1).1
      obtain ⟨expr, further, first, rest, rfl⟩ :=
        buildProperties_cons_eq_ok built
      obtain ⟨steady, steadies⟩ := steady.cons new
      obtain ⟨every, anywhere⟩ :=
        steadfast_of_build indent ⟨value, distinct.2.1⟩ steady first
      obtain ⟨all, reads⟩ :=
        steadfast_of_buildProperties indent
          (.ofObject distinct.tail) steadies rest
      refine ⟨⟨every, all⟩, fun member inside => ?_⟩
      rcases List.mem_cons.1 inside with rfl | inside
      · exact anywhere
      · exact reads member inside
termination_by sizeOf patch.entries

end

/-- What is built for a value is printed as one expression, which is read as the
canonical value. -/
theorem parse_print_of_build
    {options : PrintOptions} {path : PropertyPath} {value : KeyedValue}
    {expr : Expr} (built : value.tree.build path = .ok expr)
    (indent : ∀ character ∈ options.indent, character = ' ' ∨ character = '\t')
    (steady : value.tree.KeepsSteady path) :
    ∃ read, Expr.parse (expr.print options) = .ok read ∧
      read.read = value.tree.canonical options path := by
  have trivia := Trivia.of_blanksAndTabs indent
  obtain ⟨every, anywhere⟩ := steadfast_of_build trivia value steady built
  obtain ⟨new, values⟩ := @isNew_of_build options _ _ _ built
  obtain ⟨read, token, reads, same⟩ : ∃ read, BeginsToken (expr.print options) ∧
      ReadsValue true (expr.print options ++ []) read [] ∧
      read.valueIn .standard = expr.valueIn options := by
    by_cases isObject : expr.IsObject
    · obtain ⟨literal, rfl⟩ := isObject
      have settled :
          (Expr.object literal).Settled options .lf false .start [] :=
        Expr.settled_of_every every (by simp [Line.Blank, Line.start])
          (.inl ⟨literal, rfl⟩)
      obtain ⟨node, reads, reread⟩ :=
        Expr.exists_readsNode rfl (printable_of_build trivia built)
          (by simp [Line.Blank, Line.start]) settled
      have token := reads.begins_object
      rw [List.append_nil] at token
      exact ⟨_, token, .node reads fun _ => .inl rfl, reread.valueIn⟩
    · obtain ⟨read, reads, same⟩ :=
        anywhere.resolve_left isObject [] (.inl rfl) .nil_right
      have token := (new.leaf.resolve_left isObject).1.begins [] .nil_right
      rw [List.append_nil] at token
      exact ⟨read, token, reads, same⟩
  refine ⟨read,
    Expr.parse_eq_ok.2 (Expr.parseFault_of_readsWhole token reads), ?_⟩
  rw [values] at same
  rw [Expr.read_eq (same ▸ value.distinct.canonical options path), same]

/-- An object with a call in an object, and a key that needs quotation marks. -/
def nestedValue : KeyedValue where
  tree := .object
    [(['a'], .object [("b-c".toList, .call "f(\x7b d: 1 \x7d)".toList)]),
      (['e'], .string ['x'])]
  distinct := by decide

/-- What `nestedValue` is printed as. -/
def nestedText : Text :=
  "\x7b\n  a: \x7b\n    \x27b-c\x27: f(\x7b d: 1 \x7d),\n  \x7d,\n".toList ++
    "  e: \x27x\x27,\n\x7d".toList

/-- An object within an object, with a call and a key that needs quotation
marks. -/
theorem parse_print_of_build_nested :
    ∃ expr read, nestedValue.tree.build .root = .ok expr ∧
      expr.print .standard = nestedText ∧
      Expr.parse (expr.print .standard) = .ok read ∧
      read.read = nestedValue.tree.canonical .standard .root := by
  obtain ⟨expr, built⟩ : ∃ expr, nestedValue.tree.build .root = .ok expr :=
    exists_eq_ok (by decide +kernel)
  have shown : (nestedValue.tree.build .root).toOption.map
      (fun expr => (expr.print .standard, expr.angled)) =
      some (nestedText, false) := by
    decide +kernel
  rw [built] at shown
  obtain ⟨printed, plain⟩ := Prod.mk.inj (Option.some.inj shown)
  obtain ⟨read, parsed, same⟩ :=
    @parse_print_of_build .standard _ nestedValue _ built
      (by simp [PrintOptions.standard])
      (keepsSteady_of_plain nestedValue built plain)
  exact ⟨expr, read, built, printed, parsed, same⟩

/-- A quotation mark in a comment behind the object literal of a call begins a
string, and what was built cannot be read. -/
theorem parse_print_of_build_unread :
    ((PatchValue.call quotedMarker).build .root).toOption.map
      (Expr.print .standard) = some quotedCall ∧
      (Expr.parse quotedCall).toOption = none :=
  ⟨by decide +kernel, by decide +kernel⟩

end ConfigEdit
