import ConfigEdit.Proofs.Document.Relocation
import ConfigEdit.Proofs.Number.Literal
import ConfigEdit.Proofs.Text.Characters
import ConfigEdit.Proofs.Text.Quoted

/-!
# Texts that are read wherever an expression may end

`Written text` says that the text is read as an expression in front of every
text that ends one, and that it is a run for the walk over expressions.  New
strings, numbers and truth values are written in this way, and so are calls of
what is.
-/

namespace ConfigEdit

/-- A text that begins neither with trivia nor with a closer. -/
def BeginsPlainly (text : Text) : Prop :=
  ∃ first rest, text = first :: rest ∧ isGap first = false ∧ first ≠ '/' ∧
    isCloser first = false

theorem BeginsPlainly.begins
    {text rest : Text} {closer : Char} (plainly : BeginsPlainly text)
    (closes : isCloser closer = true) : Begins closer (text ++ rest) := by
  obtain ⟨first, others, rfl, notGap, notSlash, notCloser⟩ := plainly
  refine ⟨skipTrivia_token notGap notSlash _, List.cons_ne_nil _ _, ?_⟩
  simp only [List.cons_append, List.head?_cons, ne_eq, Option.some.injEq]
  rintro rfl
  simp [closes] at notCloser

/-- A text that is read as an expression wherever one may end. -/
structure Written (text : Text) : Prop where
  begins : BeginsPlainly text
  runs : ∀ closers, Runs closers text closers
  reads : ∀ rest, Stops rest → Joins text rest →
    ∃ value, ReadsValue true (text ++ rest) value rest

theorem Joins.of_head {left rest : Text} {first : Char} (notSlash : first ≠ '/')
    (notStar : first ≠ '*') : Joins left (first :: rest) :=
  fun _ => by simp [notSlash, notStar]

theorem BeginsPlainly.of_quotes {mark : Char} {rest : Text}
    (quotes : isQuotationMark mark = true) : BeginsPlainly (mark :: rest) := by
  refine ⟨mark, rest, rfl, ?_⟩
  rcases mem_of_isQuotationMark quotes with rfl | rfl <;> decide

theorem BeginsPlainly.of_numberStart {first : Char} {rest : Text}
    (starts : (first.isDigit || first = '.' || first = '-') = true) :
    BeginsPlainly (first :: rest) := by
  obtain ⟨notGap, notSlash, notCloser, -⟩ := numberStart_cases starts
  exact ⟨first, rest, rfl, notGap, notSlash, notCloser⟩

theorem BeginsPlainly.of_identifierStart {first : Char} {rest : Text}
    (starts : isIdentifierStart first = true) :
    BeginsPlainly (first :: rest) := by
  obtain ⟨notGap, notSlash, -⟩ := identifierStart_cases starts
  refine ⟨first, rest, rfl, notGap, notSlash, ?_⟩
  cases closes : isCloser first with
  | false => rfl
  | true =>
      rcases mem_of_isCloser closes with rfl | rfl | rfl <;>
        exact absurd starts (by decide)

namespace QuoteStyle

theorem isQuotationMark_mark (style : QuoteStyle) :
    isQuotationMark style.mark = true := by
  cases style <;> rfl

end QuoteStyle

theorem readsNode_quote (text : Text) (style : QuoteStyle) (rest : Text) :
    ReadsNode (text.quote style ++ rest)
      (.string text (some (text.quote style))) rest := by
  have quotes := style.isQuotationMark_mark
  have read : ReadsNode _ _ rest :=
    .string quotes (Text.closesString_escape quotes text)
  rw [Text.unescape_escape quotes] at read
  simpa [Text.quote] using read

theorem Written.quote (text : Text) (style : QuoteStyle) :
    Written (text.quote style) := by
  have quotes := style.isQuotationMark_mark
  refine ⟨.of_quotes quotes, fun _ => ?_, fun rest stops _ => ?_⟩
  · exact Runs.of_string quotes (Text.closesString_escape quotes text)
  · exact ⟨_, .node (readsNode_quote text style rest) fun _ => stops⟩

theorem Number.isPlain_literal (number : Number) :
    ∀ character ∈ number.literal,
      isPlain character = true ∧ character ≠ '/' := by
  have plain {character : Char}
      (decimal : Text.isDecimalCharacter character = true) :
      isPlain character = true ∧ character ≠ '/' :=
    isPlain_of_class (by decide) decimal
  obtain ⟨parts, same⟩ := number.exists_literal
  have all := List.all_eq_true.1 parts.all_isDecimalCharacter
  intro character inside
  rcases same with same | same
  · rw [same] at inside
    exact plain (all character inside)
  · rw [same] at inside
    rcases List.mem_cons.1 inside with rfl | inside
    · decide
    · exact plain (all character inside)

theorem Number.newline_notMem_literal (number : Number) :
    '\n' ∉ number.literal := by
  intro inside
  exact absurd (number.isPlain_literal _ inside).1 (by decide)

theorem Number.isRun_literal
    (number : Number) {rest : Text} (stops : Stops rest) :
    IsRun number.literal rest := by
  refine ⟨?_, .of_plain number.isPlain_literal,
    .of_getLast? (getLast?_ne_slash number.isPlain_literal), stops⟩
  intro empty
  have numeral := number.isNumeral_literal
  rw [empty] at numeral
  contradiction

theorem Written.literal (number : Number) : Written number.literal := by
  have numeral := number.isNumeral_literal
  refine ⟨?_, fun _ => .of_plain number.isPlain_literal, fun rest stops _ => ?_⟩
  · cases shape : number.literal with
    | nil =>
        rw [shape] at numeral
        contradiction
    | cons first others =>
        rw [shape] at numeral
        exact .of_numberStart (numberStart_of_isNumeral numeral)
  · exact ⟨_, .node (.number numeral (number.isRun_literal stops))
      fun _ => stops⟩

theorem Written.truth (value : Bool) : Written (truthWord value) := by
  refine ⟨?_, fun _ => .of_plain (isPlain_truthWord value),
    fun rest stops _ => ?_⟩
  · cases value
    · exact .of_identifierStart (by decide)
    · exact .of_identifierStart (by decide)
  · exact ⟨_, .node (.boolean stops.beginsAtBoundary.endsWord) fun _ => stops⟩

/-- An expression whose source is read as the expression wherever one may
end. -/
structure Expr.Steady (value : Expr) : Prop where
  runs : ∀ closers, Runs closers value.source closers
  reads : ∀ rest, Stops rest → Joins value.source rest →
    ReadsValue true (value.source ++ rest) value rest

/-- What has been read is steady, unless it is angled. -/
theorem ReadsValue.steady {text rest : Text} {value : Expr}
    (reads : ReadsValue true text value rest) (plain : value.angled = false) :
    value.Steady := by
  refine ⟨fun closers => ?_, fun other stops joins => ?_⟩
  · exact (reads.isRun_source plain).passes.weaken closers
  · obtain ⟨body, split, relocates⟩ := reads.relocates plain
    obtain rfl := List.append_cancel_right (split.symm.trans reads.split.2)
    exact relocates other stops joins

theorem Expr.Steady.written {value : Expr} (steady : value.Steady)
    (begins : BeginsPlainly value.source) : Written value.source :=
  ⟨begins, steady.runs,
    fun rest stops joins => ⟨value, steady.reads rest stops joins⟩⟩

/-- The arguments of a new call: a comma and a space between neighbours. -/
def argumentTexts (args : List Text) : Text := Text.joined [',', ' '] args

theorem argumentTexts_cons {arg next : Text} {others : List Text} :
    argumentTexts (arg :: next :: others) =
      arg ++ ',' :: ' ' :: argumentTexts (next :: others) := by
  simp [argumentTexts, Text.joined]

theorem runs_argumentTexts
    {args : List Text} (written : ∀ arg ∈ args, Written arg)
    (closer : Char) (closers : List Char) :
    Runs (closer :: closers) (argumentTexts args) (closer :: closers) := by
  induction args with
  | nil => exact .nil
  | cons arg others induction =>
      have first := written arg List.mem_cons_self
      cases others with
      | nil => exact first.runs _
      | cons next others =>
          have further := induction fun other inside =>
            written other (List.mem_cons_of_mem _ inside)
          obtain ⟨head, tail, shape, -⟩ :=
            (written next (List.mem_cons_of_mem _ List.mem_cons_self)).begins
          have more : argumentTexts (next :: others) ≠ [] := by
            cases others <;> simp [argumentTexts, Text.joined, shape]
          have comma : Runs (closer :: closers) [','] (closer :: closers) :=
            .single Trivia.nil (.separator (by decide) (List.cons_ne_nil _ _))
          have gap : Trivia [' '] := .of_all rfl
          rw [argumentTexts_cons]
          exact (first.runs _).append
            (comma.append (.trivia_append gap further more)
              (.of_last rfl (by decide))) (.of_head (by decide) (by decide))

theorem exists_readsArguments
    {args : List Text} (written : ∀ arg ∈ args, Written arg) {leading : Text}
    (complete : Trivia leading) (empty : args = [] → leading = [])
    (callee : Text) (afterComma : Bool) (rest : Text) :
    ∃ call, ReadsArguments callee afterComma
      (leading ++ (argumentTexts args ++ ')' :: rest)) call rest := by
  induction args generalizing leading afterComma with
  | nil =>
      rw [empty rfl]
      exact ⟨_, .close Trivia.nil⟩
  | cons arg others induction =>
      have first := written arg List.mem_cons_self
      cases others with
      | nil =>
          have ends : Stops ([] ++ ')' :: rest) :=
            .of_trivia Trivia.nil (.inl rfl)
          obtain ⟨value, read⟩ :=
            first.reads _ ends (.of_head (by decide) (by decide))
          exact ⟨_, .last complete (first.begins.begins rfl) read Trivia.nil⟩
      | cons next others =>
          have gap : Trivia [' '] := .of_all rfl
          obtain ⟨call, further⟩ :=
            induction (fun other inside =>
              written other (List.mem_cons_of_mem _ inside)) gap (by simp) true
          have ends : Stops ([] ++ ',' :: ([' '] ++
              (argumentTexts (next :: others) ++ ')' :: rest))) :=
            .of_trivia Trivia.nil (.inr rfl)
          obtain ⟨value, read⟩ :=
            first.reads _ ends (.of_head (by decide) (by decide))
          rw [argumentTexts_cons]
          have whole : ReadsArguments callee afterComma _ _ rest :=
            .more complete (first.begins.begins rfl) read Trivia.nil further
          exact ⟨_, by simpa using whole⟩

/-- The text of a new call. -/
def callText (callee : Text) (args : List Text) : Text :=
  callee ++ '(' :: (argumentTexts args ++ [')'])

/-- A call, or an expression that is kept as it is written. -/
def Expr.IsOpaque (value : Expr) : Prop :=
  (∃ call, value = .call call) ∨ ∃ text, value = .verbatim text

section Calls

variable {first : Char} {path : Text} {args : List Text}

theorem runs_callText (starts : isIdentifierStart first = true)
    (complete : identifierPathEnd path = [])
    (written : ∀ arg ∈ args, Written arg) (closers : List Char) :
    Runs closers (callText (first :: path) args) closers := by
  have plain := isPlain_of_word starts complete
  have inner := runs_argumentTexts written ')' closers
  have opener : Runs closers ['('] (')' :: closers) :=
    .single Trivia.nil (.opener rfl)
  have closer : Runs (')' :: closers) [')'] closers :=
    .single Trivia.nil (.closer rfl)
  have word : Runs closers (first :: path) closers := .of_plain plain
  exact word.append
    (opener.append (inner.append closer (.of_head (by decide) (by decide)))
      (.of_last rfl (by decide))) (.of_getLast? (getLast?_ne_slash plain))

theorem endsWord_opening (inner : Text) : EndsWord ('(' :: inner) :=
  endsWord_of_head inner (by decide) (by decide)

/-- A new call is read as a call, unless its callee is a truth value. -/
theorem exists_readsNode_callText (starts : isIdentifierStart first = true)
    (complete : identifierPathEnd path = [])
    (noWord : ∀ value, first :: path ≠ truthWord value)
    (written : ∀ arg ∈ args, Written arg) (rest : Text) :
    ∃ call,
      ReadsNode (callText (first :: path) args ++ rest) (.call call) rest := by
  obtain ⟨call, arguments⟩ :=
    exists_readsArguments written Trivia.nil (fun _ => rfl)
      (first :: path ++ []) false rest
  have node :=
    ReadsNode.call starts complete (endsWord_opening _) noWord
      (.plain Trivia.nil) arguments
  exact ⟨call, by simpa [callText] using node⟩

/-- A new call is read as a call, or kept as it is written if its callee is a
truth value. -/
theorem exists_readsValue_callText (starts : isIdentifierStart first = true)
    (complete : identifierPathEnd path = [])
    (written : ∀ arg ∈ args, Written arg) {rest : Text} (stops : Stops rest) :
    ∃ value,
      ReadsValue true (callText (first :: path) args ++ rest) value rest ∧
      value.IsOpaque := by
  by_cases word : ∃ value, first :: path = truthWord value
  · obtain ⟨value, same⟩ := word
    refine ⟨.verbatim (callText (first :: path) args), ?_, .inr ⟨_, rfl⟩⟩
    have node :
        ReadsNode (callText (first :: path) args ++ rest) (.boolean value)
          ('(' :: (argumentTexts args ++ [')'] ++ rest)) := by
      rw [callText, same, List.append_assoc]
      exact .boolean (endsWord_opening _)
    refine .beyond node ⟨'(', _, skipTrivia_token (by decide) (by decide) _,
      by decide, by decide⟩ ⟨by
      simp [callText],
      runs_callText starts complete written [], .of_getLast? ?_, stops⟩
    rw [callText, ← List.cons_append, ← List.append_assoc, List.getLast?_concat]
    decide
  · simp only [not_exists] at word
    obtain ⟨call, node⟩ :=
      exists_readsNode_callText starts complete word written rest
    exact ⟨.call call, .node node fun _ => stops, .inl ⟨call, rfl⟩⟩

theorem Written.call (starts : isIdentifierStart first = true)
    (complete : identifierPathEnd path = [])
    (written : ∀ arg ∈ args, Written arg) :
    Written (callText (first :: path) args) := by
  refine ⟨.of_identifierStart starts, runs_callText starts complete written, ?_⟩
  intro rest stops _
  obtain ⟨value, reads, -⟩ :=
    exists_readsValue_callText starts complete written stops
  exact ⟨value, reads⟩

end Calls

end ConfigEdit
