import ConfigEdit.Proofs.Document.Printable
import ConfigEdit.Proofs.Document.Written
import ConfigEdit.Proofs.Edit.CallText

/-!
# New calls read back

A call that is built from text is `Spelled`: its callee is an identifier path,
and its arguments are new literals, calls of the same kind, or expressions that
are kept as they have been read.  Such a call is printed in the same way
wherever it stands, and its print is read as an expression wherever one may end,
if the object literals among its arguments are steady.
-/

namespace ConfigEdit

/-- Arguments that a call keeps as they are written. -/
inductive Expr.Kept : Expr → Prop where
  | number {raw : Text} :
      raw.isNumeral = true → Number.ofLiteral? raw = none → Kept (.number raw)
  | name {text : Text} : text.isIdentifierPath = true → Kept (.verbatim text)
  | object (literal : ObjectLiteral) : Kept (.object literal)

/-- Expressions that calls are built of. -/
inductive Spelled : Expr → Prop where
  | string (value : Text) : Spelled (.string value none)
  | literal (number : Number) : Spelled (.number number.literal)
  | truth (value : Bool) : Spelled (.boolean value)
  | source {value : Expr} {rest : Text} :
      ReadsValue true (value.source ++ rest) value rest → value.Kept →
      Spelled value
  | call {first : Char} {path : Text} {args : List Expr} :
      isIdentifierStart first = true → isBlank first = false →
      identifierPathEnd path = [] →
      (∀ arg ∈ args, Spelled arg) →
      Spelled (.call (.ofArguments (first :: path) args))

theorem Expr.Kept.begins {value : Expr} (kept : value.Kept) :
    BeginsPlainly value.source := by
  cases kept with
  | @number raw numeral _ =>
      cases raw with
      | nil => contradiction
      | cons first others =>
          exact .of_numberStart (numberStart_of_isNumeral numeral)
  | name isPath =>
      obtain ⟨first, path, rfl, starts, -⟩ :=
        identifierPath_of_isIdentifierPath isPath
      exact .of_identifierStart starts
  | object literal => exact ⟨'{', _, Expr.source_object literal, by decide⟩

section Printing

variable {options : PrintOptions} {lineBreak : LineBreak} {inline : Bool}
    {line : Line}

theorem Argument.printList_others {args : List Expr}
    (fixed : ∀ arg ∈ args, ∀ lineBreak inline line,
      arg.printFrom options lineBreak inline line = arg.print options)
    (first : Text) :
    first ++ Argument.printList options lineBreak inline line [',']
        (args.map fun value => ⟨[' '], value, []⟩) =
      argumentTexts (first :: args.map (Expr.print options)) := by
  induction args generalizing first line with
  | nil => simp [Argument.printList, argumentTexts, Text.joined]
  | cons arg others induction =>
      have further (line : Line) := @induction line
        (fun other inside => fixed other (List.mem_cons_of_mem _ inside))
        (arg.print options)
      rw [List.map_cons, List.map_cons, argumentTexts_cons, Argument.printList]
      simp only [fixed arg List.mem_cons_self, List.append_nil]
      rw [List.append_assoc, further]
      simp

theorem Expr.printFrom_ofArguments {callee : Text} {args : List Expr}
    (fixed : ∀ arg ∈ args, ∀ lineBreak inline line,
      arg.printFrom options lineBreak inline line = arg.print options) :
    (Expr.call (.ofArguments callee args)).printFrom options lineBreak inline
      line = callText callee (args.map (Expr.print options)) := by
  cases args with
  | nil => simp [Call.ofArguments, Expr.printFrom, Argument.printList, callText,
      argumentTexts, Text.joined]
  | cons arg others =>
      have further (line : Line) :=
        @Argument.printList_others options lineBreak inline line others
          (fun other inside => fixed other (List.mem_cons_of_mem _ inside))
          (arg.print options)
      rw [Call.ofArguments, Expr.printFrom, Argument.printList]
      simp only [fixed arg List.mem_cons_self, List.nil_append, List.append_nil]
      rw [further]
      simp [callText]

end Printing

section Arguments

variable {property other : Expr → Prop} {callee : Text} {args : List Expr}

mutual

/-- The property holds of each argument of a call, and of the arguments of the
calls among them. -/
def Expr.EveryArgument (property : Expr → Prop) : Expr → Prop
  | .call ⟨_, args, _, _⟩ => Argument.AllHold property args
  | .object _ | .number _ | .string _ _ | .boolean _ | .verbatim _ => True

/-- The property holds of each of the arguments, and of their arguments. -/
def Argument.AllHold (property : Expr → Prop) : List Argument → Prop
  | [] => True
  | ⟨_, value, _⟩ :: others =>
      (property value ∧ value.EveryArgument property) ∧
        Argument.AllHold property others

end

theorem Argument.allHold_iff {args : List Argument} :
    Argument.AllHold property args ↔
      ∀ argument ∈ args,
        property argument.value ∧ argument.value.EveryArgument property := by
  induction args with
  | nil => simp [AllHold]
  | cons argument others induction =>
      cases argument
      simp [AllHold, induction]

theorem Argument.anyAngled_eq_false_iff {args : List Argument} :
    Argument.anyAngled args = false ↔
      ∀ argument ∈ args, argument.value.angled = false := by
  induction args with
  | nil => simp [anyAngled]
  | cons argument others induction =>
      cases argument
      simp [anyAngled, induction]

theorem Call.forall_ofArguments :
    (∀ argument ∈ (Call.ofArguments callee args).args,
      property argument.value) ↔
      ∀ arg ∈ args, property arg := by
  cases args with
  | nil => simp [ofArguments]
  | cons arg others => simp [ofArguments]

theorem Expr.everyArgument_ofArguments :
    (Expr.call (.ofArguments callee args)).EveryArgument property ↔
      ∀ arg ∈ args, property arg ∧ arg.EveryArgument property := by
  have whole (call : Call) :
      (Expr.call call).EveryArgument property ↔
        Argument.AllHold property call.args := by
    cases call
    rfl
  rw [whole, Argument.allHold_iff]
  exact @Call.forall_ofArguments (fun value =>
    property value ∧ value.EveryArgument property) _ _

theorem Expr.angled_of_ofArguments
    (plain : (Expr.call (.ofArguments callee args)).angled = false) :
    ∀ arg ∈ args, arg.angled = false := by
  rw [Expr.angled_call, Bool.or_eq_false_iff, Argument.anyAngled_eq_false_iff]
    at plain
  exact Call.forall_ofArguments.1 plain.2

end Arguments

/-- The expression is steady if it is an object literal. -/
def Expr.SteadyLiteral (value : Expr) : Prop := value.IsObject → value.Steady

namespace Spelled

variable {options : PrintOptions} {value : Expr}

/-- A spelled expression is printed in the same way wherever it stands. -/
theorem fixed (spelled : Spelled value) (lineBreak : LineBreak) (inline : Bool)
    (line : Line) :
    value.printFrom options lineBreak inline line = value.print options := by
  induction spelled generalizing lineBreak inline line with
  | string value | literal number => rfl
  | truth value => cases value <;> rfl
  | source reads kept =>
      have fromText := reads.split.1
      rw [fromText.printFrom_eq, fromText.print_eq]
  | call starts visible complete spelled induction =>
      rw [Expr.print, Expr.printFrom_ofArguments induction,
        Expr.printFrom_ofArguments induction]

theorem print_call
    {callee : Text} {args : List Expr} (spelled : ∀ arg ∈ args, Spelled arg) :
    (Expr.call (.ofArguments callee args)).print options =
      callText callee (args.map (Expr.print options)) :=
  Expr.printFrom_ofArguments fun arg inside => (spelled arg inside).fixed

theorem steadyLiteral_of_plain
    (spelled : Spelled value) (plain : value.angled = false) :
    value.SteadyLiteral ∧ value.EveryArgument Expr.SteadyLiteral := by
  induction spelled with
  | string value | literal number | truth value =>
      exact ⟨by simp [Expr.SteadyLiteral, Expr.IsObject], trivial⟩
  | source reads kept =>
      refine ⟨fun _ => reads.steady plain, ?_⟩
      cases kept <;> trivial
  | call starts visible complete spelled induction =>
      refine ⟨by simp [Expr.SteadyLiteral, Expr.IsObject],
        Expr.everyArgument_ofArguments.2 fun arg inside => ?_⟩
      exact induction arg inside (Expr.angled_of_ofArguments plain arg inside)

/-- An expression that is kept is steady, unless it is an object literal that is
not. -/
theorem steady_of_kept
    {rest : Text} (reads : ReadsValue true (value.source ++ rest) value rest)
    (kept : value.Kept) (literal : value.SteadyLiteral) : value.Steady := by
  cases kept with
  | number _ _ => exact reads.steady rfl
  | name isPath => exact reads.steady (by simp [Expr.angled,
      not_mem_of_isIdentifierPath isPath])
  | object => exact literal ⟨_, rfl⟩

/-- A spelled expression is written, if the object literals in it are steady. -/
theorem written (spelled : Spelled value) (literal : value.SteadyLiteral)
    (every : value.EveryArgument Expr.SteadyLiteral) :
    Written (value.print options) := by
  induction spelled with
  | string value => exact .quote value options.quote
  | literal number => exact .literal number
  | truth value =>
      cases value with
      | false => exact .truth false
      | true => exact .truth true
  | source reads kept =>
      rw [reads.split.1.print_eq]
      exact (steady_of_kept reads kept literal).written kept.begins
  | @call first path args starts visible complete spelled induction =>
      rw [print_call spelled]
      rw [Expr.everyArgument_ofArguments] at every
      refine .call starts complete fun text inside => ?_
      obtain ⟨arg, member, rfl⟩ := List.mem_map.1 inside
      exact induction arg member (every arg member).1 (every arg member).2

theorem begins (spelled : Spelled value) :
    BeginsPlainly (value.print options) := by
  cases spelled with
  | string value => exact .of_quotes options.quote.isQuotationMark_mark
  | literal number => exact (Written.literal number).begins
  | truth value =>
      cases value with
      | false => exact (Written.truth false).begins
      | true => exact (Written.truth true).begins
  | source reads kept =>
      rw [reads.split.1.print_eq]
      exact kept.begins
  | call starts visible complete spelled =>
      rw [print_call spelled]
      exact .of_identifierStart starts

/-- The arguments of a new call are written, if the object literals among them
are steady. -/
theorem written_arguments {callee : Text} {args : List Expr}
    (spelled : ∀ arg ∈ args, Spelled arg) (every :
      (Expr.call (.ofArguments callee args)).EveryArgument Expr.SteadyLiteral) :
    ∀ text ∈ args.map (Expr.print options), Written text := by
  rw [Expr.everyArgument_ofArguments] at every
  intro text inside
  obtain ⟨arg, member, rfl⟩ := List.mem_map.1 inside
  exact (spelled arg member).written (every arg member).1 (every arg member).2

/-- In front of every text that ends an expression, the print is read as an
expression of the same value, if the object literals in it are steady. -/
theorem readsBefore (spelled : Spelled value) (literal : value.SteadyLiteral)
    (every : value.EveryArgument Expr.SteadyLiteral) {rest : Text}
    (stops : Stops rest) (joins : Joins (value.print options) rest) :
    value.ReadsBefore options rest := by
  cases spelled with
  | string text => exact ⟨_,
      .node (readsNode_quote text options.quote rest) fun _ => stops, rfl⟩
  | literal number =>
      exact ⟨_,
        .node (.number number.isNumeral_literal (number.isRun_literal stops))
          fun _ => stops, rfl⟩
  | truth value =>
      have read : ReadsNode (truthWord value ++ rest) (.boolean value) rest :=
        .boolean stops.beginsAtBoundary.endsWord
      refine ⟨.boolean value, .node ?_ fun _ => stops, rfl⟩
      cases value with
      | false => exact read
      | true => exact read
  | source reads kept =>
      have fromText := reads.split.1
      rw [fromText.print_eq] at joins
      refine ⟨value, ?_, fromText.valueIn_eq _ _⟩
      rw [fromText.print_eq]
      exact (steady_of_kept reads kept literal).reads rest stops joins
  | @call first path args starts visible complete spelled =>
      obtain ⟨other, reads, isOpaque⟩ :=
        exists_readsValue_callText starts complete
          (written_arguments spelled every) stops
      have same := List.append_cancel_right reads.split.2
      rw [← print_call spelled] at reads same
      refine ⟨other, reads, ?_⟩
      rw [Expr.valueIn, same]
      rcases isOpaque with ⟨call, rfl⟩ | ⟨text, rfl⟩
      · rw [Expr.valueIn, reads.split.1.print_eq]
      · rfl

theorem leaf (spelled : Spelled value) : value.Leaf options where
  fixed := spelled.fixed
  begins _ _ := (@BeginsPlainly.begins _ _ '}' spelled.begins rfl).token
  reads plain _ stops joins :=
    have steady := spelled.steadyLiteral_of_plain plain
    spelled.readsBefore steady.1 steady.2 stops joins

end Spelled

mutual

theorem spelled_of_buildCall {path : PropertyPath} {marker : Text}
    {value : Expr} (built : buildCall path marker = .ok value) :
    Spelled value ∧ ∃ call, value = .call call := by
  obtain ⟨callee, inside, parts, args, found, split, each, rfl⟩ :=
    buildCall_eq_ok_iff.1 built
  have shorter := length_lt_of_argumentParts found split
  have spells := callParts_eq_ok.1 found
  generalize whole : marker.trim = text at spells
  cases spells with
  | mk starts complete trivia closes ended =>
      refine ⟨.call starts (isBlank_of_trim whole) complete
        fun arg member => ?_, _, rfl⟩
      obtain ⟨part, among, built⟩ := exists_mem_of_forall₂ each arg member
      have := shorter part among
      exact spelled_of_buildArgument built
termination_by 2 * marker.length

theorem spelled_of_buildArgument
    {path : PropertyPath} {text : Text} {value : Expr}
    (built : buildArgument path text = .ok value) : Spelled value := by
  rw [buildArgument] at built
  split at built
  · contradiction
  · cases built
    exact .string _
  · next raw found =>
      cases built
      rw [Expr.ofNumberLiteral]
      split
      · exact .literal _
      · next unknown =>
          obtain ⟨-, rest, -, -, -, reads, -⟩ := Expr.exists_of_parseFault found
          exact .source reads (.number reads.isNumeral unknown)
  · cases built
    exact .truth _
  · exact (spelled_of_buildCall built).1
  · next literal found =>
      cases built
      obtain ⟨-, rest, -, -, -, reads, -⟩ := Expr.exists_of_parseFault found
      exact .source reads (.object literal)
  · next written found =>
      split at built
      · next isPath =>
          cases built
          obtain ⟨-, rest, -, -, -, reads, -⟩ := Expr.exists_of_parseFault found
          exact .source reads (.name isPath)
      · contradiction
termination_by 2 * text.length + 1

end

end ConfigEdit
