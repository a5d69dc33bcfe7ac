import ConfigEdit.Proofs.Document.Partition
import ConfigEdit.Proofs.Edit.Overwrite
import ConfigEdit.Proofs.Number.Reading

/-!
# Calls built anew from their print

Calls have a normal form: the call that is built from a text is built again from
its own print, whatever the quotation marks and the number literals were.

There are two exceptions, and the theorem asks that neither occurs among the
arguments.  An object literal is taken over as it is written, and where one of
its values has an opening angle bracket, its end may depend on the text behind
it.  And a text is trimmed of blanks that belong to an identifier elsewhere, so
that a callee may turn into a truth value, which calls nothing.
-/

namespace ConfigEdit

/-- The expression calls no truth value. -/
def Expr.NamesFunction (value : Expr) : Prop :=
  ∀ call, value = .call call → ∀ truth, call.callee ≠ truthWord truth

theorem Expr.ofNumberLiteral_literal (number : Number) :
    Expr.ofNumberLiteral number.literal = .number number.literal := by
  obtain ⟨other, found, same, -⟩ := Number.exists_ofLiteral?_literal number
  rw [Expr.ofNumberLiteral, found, ← same]

theorem Written.isRun {text rest : Text} (written : Written text)
    (stops : Stops rest) (joins : Joins text rest) : IsRun text rest := by
  refine ⟨?_, written.runs [], joins, stops⟩
  obtain ⟨first, others, rfl, -⟩ := written.begins
  exact List.cons_ne_nil _ _

theorem Written.isArgument {text : Text} (written : Written text) :
    IsArgument text := by
  have token := (@BeginsPlainly.begins _ [] '}' written.begins rfl).token
  rw [List.append_nil] at token
  exact isArgument_iff.2 ⟨token, written.isRun (.inl rfl) .nil_right⟩

section Parts

variable {first : Char} {path : Text} {texts : List Text}

theorem closesGroup_argumentTexts
    (written : ∀ text ∈ texts, Written text) {leading : Text}
    (complete : Trivia leading) (empty : texts = [] → leading = []) :
    ClosesGroup ')' (leading ++ argumentTexts texts) := by
  have delimited {run : Text} (runs : Runs [] run []) (delimiter : Char)
      (rest : Text)
      (ends : isCloser delimiter = true ∨ isSeparator delimiter = true)
      (plain : delimiter ≠ '/' ∧ delimiter ≠ '*') :
      groupEnd? ')' (run ++ delimiter :: rest) =
        if delimiter = ')' then some rest
        else if isSeparator delimiter then groupEnd? ')' rest else none :=
    @Runs.groupEnd?_append run [] delimiter rest runs Trivia.nil ends
      (.of_head plain.1 plain.2) _ _
  induction texts generalizing leading with
  | nil =>
      rw [empty rfl]
      exact fun rest => delimited .nil ')' rest (.inl rfl) (by decide)
  | cons text others induction =>
      have first := written text List.mem_cons_self
      have runs : Runs [] (leading ++ text) [] :=
        .trivia_append complete (first.runs []) first.isArgument.more
      cases others with
      | nil => exact fun rest => delimited runs ')' rest (.inl rfl) (by decide)
      | cons next others =>
          have gap : Trivia [' '] := .of_all rfl
          have closes := induction
            (fun other inside => written other (List.mem_cons_of_mem _ inside))
              gap (by simp)
          rw [argumentTexts_cons]
          intro rest
          have passed :=
            delimited runs ',' (' ' ::
              (argumentTexts (next :: others) ++ ')' :: rest)) (.inr rfl)
              (by decide)
          have further := closes rest
          simp only [List.append_assoc, List.cons_append, List.nil_append]
            at passed further ⊢
          rw [passed, if_neg (by decide), if_pos (by rfl), further]

theorem buildCall_callText (starts : isIdentifierStart first = true)
    (visible : isBlank first = false) (complete : identifierPathEnd path = [])
    (written : ∀ text ∈ texts, Written text) {place : PropertyPath}
    {args : List Expr}
    (built : List.Forall₂ (fun text arg => buildArgument place text = .ok arg)
      texts args) :
    buildCall place (callText (first :: path) texts) =
      .ok (.call (.ofArguments (first :: path) args)) := by
  have closes := closesGroup_argumentTexts written Trivia.nil fun _ => rfl
  obtain ⟨gap, gaps, separated⟩ :=
    exists_separated_joined (fun text inside =>
      (written text inside).isArgument) Trivia.nil
  rw [List.nil_append] at closes separated
  obtain ⟨spans, found, same, -⟩ := separated.exists_splitArguments
  have trimmed : (callText (first :: path) texts).trim =
      callText (first :: path) texts := by
    refine trim_eq_self rfl ?_ visible (by decide : isBlank ')' = false)
    rw [callText, ← List.cons_append, ← List.append_assoc, List.getLast?_concat]
  have spells : SpellsCall (callText (first :: path) texts) (first :: path)
      (argumentTexts texts) := .mk starts complete Trivia.nil closes rfl
  refine buildCall_eq_ok_iff.2 ⟨_, _, texts, args,
    callParts_eq_ok.2 (trimmed.symm ▸ spells), ?_, built, rfl⟩
  rw [argumentParts, argumentTexts, found]
  exact congrArg _ same

end Parts

theorem Call.callee_ofArguments (callee : Text) (args : List Expr) :
    (Call.ofArguments callee args).callee = callee := by
  cases args <;> rfl

namespace Spelled

variable {options : PrintOptions} {value : Expr}

/-- The print of a spelled expression is read by itself as what is read in front
of the end of the text. -/
theorem parseFault_print (spelled : Spelled value) {other : Expr}
    (reads : ReadsValue true (value.print options ++ []) other []) :
    Expr.parseFault (value.print options) = .ok other := by
  have token :=
    (@BeginsPlainly.begins _ [] '}' (@begins options _ spelled) rfl).token
  rw [List.append_nil] at token
  exact Expr.parseFault_of_readsWhole token reads

/-- A new call is built of its print, if each argument is built of its own. -/
theorem buildCall_print
    {first : Char} {path : Text} {args : List Expr} {place : PropertyPath}
    (starts : isIdentifierStart first = true) (visible : isBlank first = false)
    (complete : identifierPathEnd path = [])
    (spelled : ∀ arg ∈ args, Spelled arg)
    (every : (Expr.call (.ofArguments (first :: path) args)).EveryArgument
      Expr.SteadyLiteral)
    (built : ∀ arg ∈ args, buildArgument place (arg.print options) = .ok arg) :
    buildCall place
      ((Expr.call (.ofArguments (first :: path) args)).print options) =
      .ok (.call (.ofArguments (first :: path) args)) := by
  rw [print_call spelled]
  refine buildCall_callText starts visible complete
    (written_arguments spelled every) ?_
  rw [List.forall₂_map_left_iff, List.forall₂_same]
  exact built

theorem buildArgument_print
    (spelled : Spelled value) (literal : value.SteadyLiteral)
    (every : value.EveryArgument Expr.SteadyLiteral)
    (named : value.NamesFunction)
    (further : value.EveryArgument Expr.NamesFunction) (place : PropertyPath) :
    buildArgument place (value.print options) = .ok value := by
  induction spelled with
  | string text =>
      have node := readsNode_quote text options.quote []
      have read :=
        (Spelled.string text).parseFault_print (.node node fun _ => .inl rfl)
      rw [buildArgument, read]
  | literal number =>
      have node : ReadsNode (number.literal ++ []) _ [] :=
        .number number.isNumeral_literal (number.isRun_literal (.inl rfl))
      have read :=
        @parseFault_print options _ (.literal number) _
          (.node node fun _ => .inl rfl)
      rw [buildArgument, read]
      exact congrArg _ (Expr.ofNumberLiteral_literal number)
  | truth truth =>
      have read := parseFault_truthWord truth
      have printed : (Expr.boolean truth).print options = truthWord truth := by
        cases truth <;> rfl
      rw [buildArgument, printed, read]
  | @source value rest reads kept =>
      have steady := steady_of_kept reads kept literal
      have printed := reads.split.1.print_eq options
      have read := (Spelled.source reads kept).parseFault_print
        (printed.symm ▸ steady.reads [] (.inl rfl) .nil_right)
      rw [buildArgument, read]
      cases kept with
      | number numeral unknown => simp only [Expr.ofNumberLiteral, unknown]
      | name isPath => simp only [isPath, if_true]
      | object literal => rfl
  | @call first path args starts visible complete spelled induction =>
      have noWord := named _ rfl
      rw [Call.callee_ofArguments] at noWord
      obtain ⟨call, node⟩ := exists_readsNode_callText starts complete noWord
        (@written_arguments options _ _ spelled every) []
      rw [← print_call spelled] at node
      have read :=
        (Spelled.call starts visible complete spelled).parseFault_print
          (.node node fun _ => .inl rfl)
      rw [buildArgument, read]
      refine buildCall_print starts visible complete spelled every
        fun arg inside => ?_
      obtain ⟨literal, every⟩ :=
        Expr.everyArgument_ofArguments.1 every arg inside
      obtain ⟨named, further⟩ :=
        Expr.everyArgument_ofArguments.1 further arg inside
      exact induction arg inside literal every named further

end Spelled

/-- A call is built with one argument for each span between the parentheses of
its text, and is built again of its print. -/
theorem buildCall_faithful {path : PropertyPath} {marker : Text} {value : Expr}
    (built : buildCall path marker = .ok value) :
    (∃ callee inside spans args, SpellsCall marker.trim callee inside ∧
        splitArguments inside = .ok spans ∧
        List.Forall₂ (SpellsArgument path) (spans.map Span.text) args ∧
        value = .call (.ofArguments callee args)) ∧
    (value.EveryArgument Expr.SteadyLiteral →
      value.EveryArgument Expr.NamesFunction →
      ∀ options place, buildCall place (value.print options) = .ok value) := by
  refine ⟨buildCall_eq_ok_iff_spells.1 built,
    fun every further options place => ?_⟩
  obtain ⟨spelled, call, same⟩ := spelled_of_buildCall built
  cases spelled with
  | call starts visible complete spelled =>
      refine Spelled.buildCall_print starts visible complete spelled every
        fun arg inside => ?_
      obtain ⟨literal, every⟩ :=
        Expr.everyArgument_ofArguments.1 every arg inside
      obtain ⟨named, further⟩ :=
        Expr.everyArgument_ofArguments.1 further arg inside
      exact (spelled arg inside).buildArgument_print literal every named
        further place
  | source reads kept =>
      subst same
      cases kept
  | string _ | literal _ | truth _ => contradiction

/-- A call with one argument of each kind. -/
def mixedCall : Expr :=
  .call (.ofArguments ['f']
    [.string "it\x27s".toList none, .number "16".toList,
      .call (.ofArguments ['g'] [.verbatim "a.b".toList, .boolean true]),
      .object ⟨[.property ⟨⟨['a'], some ['a']⟩, .number ['1'],
        some ⟨[' '], [':', ' '], []⟩⟩], some [' '], some false⟩])

/-- Other quotation marks, a hexadecimal number, comments and a comma at the
end. -/
theorem buildCall_faithful_mixed :
    buildCall .root
      " f ( \x22it\x27s\x22, 0x10, /* c */ g(a.b,true), \x7b a: 1 \x7d, ) // d".toList =
          .ok mixedCall ∧
      mixedCall.print .standard =
        "f(\x27it\\\x27s\x27, 16, g(a.b, true), \x7b a: 1 \x7d)".toList ∧
      ∀ options place,
        buildCall place (mixedCall.print options) = .ok mixedCall := by
  have built : buildCall .root
      " f ( \x22it\x27s\x22, 0x10, /* c */ g(a.b,true), \x7b a: 1 \x7d, ) // d".toList =
        .ok mixedCall := by with_unfolding_all rfl
  have steady := ((spelled_of_buildCall built).1.steadyLiteral_of_plain rfl).2
  have named : mixedCall.EveryArgument Expr.NamesFunction := by
    simp [mixedCall, Call.ofArguments, Expr.EveryArgument, Argument.AllHold,
      Expr.NamesFunction, truthWord]
  exact ⟨built, by decide +kernel, (buildCall_faithful built).2 steady named⟩

/-- What `quotedMarker` is printed as. -/
def quotedCall : Text :=
  "f(\x7b a: g< /* \x27 */ \x60 /* \x27 */ > (1), b: x < y /* \x27 */ \x7d)".toList

/-- Neither of the two prints is a call: behind the object literal of the first
a quotation mark begins a string, and the callee of the argument of the second
has lost the blank before it. -/
theorem buildCall_print_unbuilt :
    (buildCall .root quotedMarker).toOption.map (Expr.print .standard) =
      some quotedCall ∧
      (buildCall .root quotedCall).toOption = none ∧
      (buildCall .root "f(\u3000true(1))".toList).toOption.map
        (Expr.print .standard) = some "f(true(1))".toList ∧
      (buildCall .root "f(true(1))".toList).toOption = none :=
  ⟨by decide +kernel, by decide +kernel, by decide +kernel, by decide +kernel⟩

end ConfigEdit
