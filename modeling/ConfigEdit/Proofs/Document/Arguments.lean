import ConfigEdit.Proofs.Document.Lossless
import ConfigEdit.Proofs.Document.Relocation
import ConfigEdit.Scan.Arguments

/-!
# The arguments of a call, cut and read

There are two ways to the arguments of a call.  `splitArguments` cuts the text
between the parentheses where a walk over expressions stops, and the reader of
expressions reads one argument after the other.  `Separated` says how the text
is cut, and the arguments that are read separate their text in the same way,
unless one of them is angled.
-/

namespace ConfigEdit

/-- The texts before, between and behind spans, from a place before them on. -/
def Span.around {whole : Text} (place : Text) : List (Span whole) → List Text
  | [] => [place]
  | span :: others =>
      place.upTo span.start.1 :: Span.around span.finish.1 others

/-- A text is cut into runs with gaps before, between and behind them.  A gap is
trivia, with a comma in it if it stands between two runs. -/
inductive Separated : Text → List Text → List Text → Prop where
  | none {text : Text} : skipTrivia text = .ok [] → Separated text [] [text]
  | last {leading run trailing : Text} :
      Trivia leading → BeginsToken (run ++ trailing) → IsRun run trailing →
      skipTrivia trailing = .ok [] →
      Separated (leading ++ (run ++ trailing)) [run] [leading, trailing]
  | more {leading run trailing rest gap : Text} {runs gaps : List Text} :
      Trivia leading → BeginsToken (run ++ (trailing ++ ',' :: rest)) →
      IsRun run (trailing ++ ',' :: rest) → Trivia trailing →
      Separated rest runs (gap :: gaps) →
      Separated (leading ++ (run ++ (trailing ++ ',' :: rest))) (run :: runs)
        (leading :: (trailing ++ ',' :: gap) :: gaps)

namespace Span

variable {whole rest : Text}

theorem around_within
    (inside : rest <:+ whole) (place : Text) (spans : List (Span rest)) :
    Span.around place (spans.map (Span.within inside)) =
      Span.around place spans := by
  induction spans generalizing place with
  | nil => rfl
  | cons span others induction =>
      rw [List.map_cons, around, around, induction]
      rfl

theorem texts_within (inside : rest <:+ whole) (spans : List (Span rest)) :
    (spans.map (Span.within inside)).map Span.text = spans.map Span.text := by
  rw [List.map_map]
  rfl

/-- Only the first gap changes with the place from which on the texts are
taken. -/
theorem exists_around (spans : List (Span rest)) :
    ∃ gap gaps, Span.around rest spans = gap :: gaps ∧
      ∀ before,
        Span.around (before ++ rest) spans = (before ++ gap) :: gaps := by
  cases spans with
  | nil => exact ⟨rest, [], rfl, fun _ => rfl⟩
  | cons span others =>
      obtain ⟨gap, split⟩ := span.start.2
      refine ⟨gap, Span.around span.finish.1 others, ?_, fun before => ?_⟩
      · rw [around, upTo_of_eq_append split.symm]
      · have whole : before ++ rest = before ++ gap ++ span.start.1 := by
          rw [List.append_assoc, split]
        rw [around, upTo_of_eq_append whole]

end Span

/-- What `splitArguments` does first: it finds nothing, or a span of which it
knows what stands in front of it and behind it. -/
theorem splitArguments_cases {text : Text} {spans : List (Span text)}
    (found : splitArguments text = .ok spans) :
    (skipTrivia text = .ok [] ∧ spans = []) ∨
    ∃ span : Span text,
      (∃ leading, text = leading ++ span.start.1 ∧ Trivia leading) ∧
      BeginsToken span.start.1 ∧ span.start.1 = span.text ++ span.finish.1 ∧
      IsRun span.text span.finish.1 ∧
      (skipTrivia span.finish.1 = .ok [] ∧ spans = [span] ∨
        ∃ (rest : Text) (inside : rest <:+ text) (others : List (Span rest)),
          skipTrivia span.finish.1 = .ok (',' :: rest) ∧
          splitArguments rest = .ok others ∧
          spans = span :: others.map (Span.within inside)) := by
  rw [splitArguments] at found
  split at found
  · contradiction
  · next ended =>
      cases found
      exact .inl ⟨ended, rfl⟩
  · next first others began =>
      obtain ⟨leading, whole, -, complete, begins⟩ :=
        begins_of_skipTrivia began (List.cons_ne_nil _ _)
      split at found
      · contradiction
      · next finish walked =>
          refine .inr ⟨⟨⟨first :: others, skipTrivia_suffix began⟩, finish⟩,
            ⟨leading, whole, complete⟩, begins, ?_⟩
          have passed (moved : finish.1.length ≠ (first :: others).length) :
              first :: others =
                Text.upTo (first :: others) finish.1 ++ finish.1 ∧
                IsRun (Text.upTo (first :: others) finish.1) finish.1 := by
            obtain ⟨run, split, cut, isRun⟩ :=
              isRun_of_skipExpression walked moved
            rw [cut]
            exact ⟨split, isRun⟩
          split at found
          · contradiction
          · next ended =>
              cases found
              have moved : finish.1.length ≠ (first :: others).length := by
                intro same
                rw [finish.2.eq_of_length same, begins] at ended
                cases ended
              obtain ⟨split, isRun⟩ := passed moved
              exact ⟨split, isRun, .inl ⟨ended, rfl⟩⟩
          · next character rest behind =>
              split at found
              · next comma =>
                  subst comma
                  split at found
                  · next moved =>
                      split at found
                      · contradiction
                      · next spans further =>
                          cases found
                          obtain ⟨split, isRun⟩ := passed (Nat.ne_of_lt moved)
                          exact ⟨split, isRun,
                            .inr ⟨rest, _, spans, behind, further, rfl⟩⟩
                  · contradiction
              · contradiction

/-- Behind a span and the comma that ends it, less of the text is left. -/
theorem Span.length_rest_lt {whole rest : Text} (span : Span whole)
    (found : skipTrivia span.finish.1 = .ok (',' :: rest)) :
    rest.length < whole.length :=
  (((skipTrivia_suffix found).trans span.finish.2).trans span.start.2).length_le

theorem separated_of_splitArguments {text : Text} {spans : List (Span text)}
    (found : splitArguments text = .ok spans) :
    Separated text (spans.map Span.text) (Span.around text spans) := by
  rcases splitArguments_cases found with ⟨ended, rfl⟩ |
    ⟨span, ⟨leading, whole, complete⟩, begins, split, isRun,
      ⟨ended, rfl⟩ | ⟨rest, inside, others, comma, further, rfl⟩⟩
  · exact .none ended
  · have separated : Separated _ [span.text] [leading, span.finish.1] :=
      .last complete (split ▸ begins) isRun ended
    rw [← split, ← whole] at separated
    rw [List.map_singleton, Span.around, Span.around, upTo_of_eq_append whole]
    exact separated
  · have shorter : rest.length < text.length := span.length_rest_lt comma
    obtain ⟨trailing, between, -, closed, -⟩ :=
      begins_of_skipTrivia comma (List.cons_ne_nil _ _)
    obtain ⟨gap, gaps, around, moves⟩ := Span.exists_around others
    have others' := separated_of_splitArguments further
    rw [around] at others'
    have gaps' := moves (trailing ++ [','])
    rw [List.append_assoc, List.singleton_append, ← between] at gaps'
    rw [between] at isRun
    have start : span.text ++ (trailing ++ ',' :: rest) = span.start.1 := by
      rw [← between, ← split]
    have separated :=
      Separated.more complete (start ▸ begins) isRun closed others'
    rw [start, ← whole] at separated
    rw [List.map_cons, Span.texts_within, Span.around, Span.around_within,
      gaps', upTo_of_eq_append whole]
    simpa using separated
termination_by text.length

theorem IsRun.exists_walk {leading run rest : Text} (isRun : IsRun run rest)
    (complete : Trivia leading) (begins : BeginsToken (run ++ rest)) :
    ∃ first others, ∃ finish : Place (first :: others),
      run ++ rest = first :: others ∧
      skipTrivia (leading ++ (run ++ rest)) = .ok (first :: others) ∧
      skipExpression (first :: others) = .ok finish ∧ finish.1 = rest ∧
      finish.1.length < (first :: others).length := by
  have more : run ++ rest ≠ [] := by simp [isRun.more]
  have shorter : rest.length < (run ++ rest).length := by
    have some := List.length_pos_iff.2 isRun.more
    rw [List.length_append]
    omega
  have walked := isRun.skipExpression_eq
  have began := complete.skipTrivia_eq begins
  cases shape : run ++ rest with
  | nil => contradiction
  | cons first others =>
      rw [shape] at began shorter
      obtain ⟨finish, found, same⟩ : ∃ finish : Place (first :: others),
          skipExpression (first :: others) = .ok finish ∧ finish.1 = rest := by
        rw [← shape]
        exact ⟨_, walked, rfl⟩
      exact ⟨first, others, finish, rfl, began, found, same, same ▸ shorter⟩

theorem Separated.exists_splitArguments {text : Text} {runs gaps : List Text}
    (separated : Separated text runs gaps) :
    ∃ spans, splitArguments text = .ok spans ∧ spans.map Span.text = runs ∧
      Span.around text spans = gaps := by
  induction separated with
  | none ended =>
      refine ⟨[], ?_, rfl, rfl⟩
      rw [splitArguments]
      split
      · simp_all
      · rfl
      · simp_all
  | @last leading run trailing complete begins isRun ended =>
      obtain ⟨first, others, finish, shape, began, walked, rfl, -⟩ :=
        isRun.exists_walk complete begins
      have cut : Text.upTo (first :: others) finish.1 = run :=
        upTo_of_eq_append shape.symm
      have before :
          Text.upTo (leading ++ first :: others) (first :: others) = leading :=
        upTo_append _ _
      rw [shape] at began ⊢
      rw [splitArguments]
      split
      · next failed => simp [began] at failed
      · next empty => simp [began] at empty
      · next first' others' began' =>
          obtain ⟨rfl, rfl⟩ :=
            List.cons.inj (Except.ok.inj (began.symm.trans began'))
          simp only [walked]
          split
          · next failed => simp [ended] at failed
          · exact ⟨_, rfl,
              by simp [Span.text, cut], by simp [Span.around, before]⟩
          · next behind => simp [ended] at behind
  | @more leading run trailing rest gap runs gaps complete begins isRun closed
        further induction =>
      obtain ⟨spans, found, texts, around⟩ := induction
      obtain ⟨first, others, finish, shape, began, walked, same, moved⟩ :=
        isRun.exists_walk complete begins
      have comma : skipTrivia finish.1 = .ok (',' :: rest) := by
        rw [same]
        exact closed.skipTrivia_eq (skipTrivia_token (by decide) (by decide) _)
      have cut : Text.upTo (first :: others) finish.1 = run :=
        upTo_of_eq_append (same ▸ shape.symm)
      have before :
          Text.upTo (leading ++ first :: others) (first :: others) = leading :=
        upTo_append _ _
      rw [shape] at began ⊢
      rw [splitArguments]
      split
      · next failed => simp [began] at failed
      · next empty => simp [began] at empty
      · next first' others' began' =>
          obtain ⟨rfl, rfl⟩ :=
            List.cons.inj (Except.ok.inj (began.symm.trans began'))
          simp only [walked]
          split
          · next failed => simp [comma] at failed
          · next empty => simp [comma] at empty
          · next character rest' behind =>
              obtain ⟨rfl, rfl⟩ :=
                List.cons.inj (Except.ok.inj (comma.symm.trans behind))
              rw [if_pos rfl, if_pos moved, found]
              refine ⟨_, rfl, ?_, ?_⟩
              · rw [List.map_cons, Span.texts_within, texts, Span.text, cut]
              · obtain ⟨gap', gaps', around', moves⟩ := Span.exists_around spans
                obtain ⟨rfl, rfl⟩ := List.cons.inj (around'.symm.trans around)
                have moved' := moves (trailing ++ [','])
                rw [List.append_assoc, List.singleton_append, ← same] at moved'
                rw [Span.around, Span.around_within, before, moved']
                simp

theorem Separated.isRun {text : Text} {runs gaps : List Text}
    (separated : Separated text runs gaps) :
    ∀ run ∈ runs, BeginsToken run ∧ IsRun run [] := by
  have alone {run rest : Text} (begins : BeginsToken (run ++ rest))
      (isRun : IsRun run rest) : BeginsToken run ∧ IsRun run [] := by
    have token := begins.congr_right isRun.more (@Joins.nil_right run)
    rw [List.append_nil] at token
    exact ⟨token, isRun.congr_right (.inl rfl) .nil_right⟩
  induction separated with
  | none _ => simp
  | last _ begins isRun _ => simpa using alone begins isRun
  | more _ begins isRun _ _ induction =>
      intro run inside
      rcases List.mem_cons.1 inside with rfl | inside
      · exact alone begins isRun
      · exact induction run inside

theorem splitArguments_iff {text : Text} {runs gaps : List Text} :
    (∃ spans, splitArguments text = .ok spans ∧ spans.map Span.text = runs ∧
      Span.around text spans = gaps) ↔ Separated text runs gaps := by
  constructor
  · rintro ⟨spans, found, rfl, rfl⟩
    exact separated_of_splitArguments found
  · exact Separated.exists_splitArguments

/-- The texts before, between and behind arguments.  `before` stands in front of
the first and `ending` behind the last. -/
def Argument.gaps (before ending : Text) : List Argument → List Text
  | [] => [before ++ ending]
  | argument :: others =>
      (before ++ argument.leading) ::
        Argument.gaps (argument.trailing ++
          if others.isEmpty then [] else [',']) ending others

namespace Call

variable (call : Call)

/-- The text between the last argument and the closing parenthesis. -/
def ending : Text :=
  (if call.trailingComma && !call.args.isEmpty then [','] else []) ++ call.close

/-- The text between the parentheses. -/
def inside : Text := Argument.sources [] call.args ++ call.ending

/-- The texts before, between and behind the arguments. -/
def gaps : List Text := Argument.gaps [] call.ending call.args

theorem source_eq (call : Call) :
    (Expr.call call).source = call.callee ++ '(' :: (call.inside ++ [')']) := by
  simp [Expr.source_call, inside, ending]

end Call

theorem Argument.exists_gaps (ending : Text) (args : List Argument) :
    ∃ gap gaps, ∀ before,
      Argument.gaps before ending args = (before ++ gap) :: gaps := by
  cases args with
  | nil => exact ⟨ending, [], fun _ => rfl⟩
  | cons argument others => exact ⟨argument.leading, _, fun _ => rfl⟩

theorem Trivia.skipTrivia_self {text : Text} (complete : Trivia text) :
    skipTrivia text = .ok [] := by
  have whole := complete []
  rwa [List.append_nil] at whole

/-- Arguments that are read separate the text between the parentheses. -/
theorem ReadsArguments.separated {callee text rest : Text} {afterComma : Bool}
    {call : Call} (reads : ReadsArguments callee afterComma text call rest)
    (plain : Argument.anyAngled call.args = false) :
    Separated call.inside (call.args.map fun argument => argument.value.source)
      call.gaps := by
  cases reads with
  | close complete =>
      simpa [Call.inside, Call.gaps, Call.ending, Argument.sources,
        Argument.gaps] using Separated.none complete.skipTrivia_self
  | @last _ leading text trailing _ _ value complete begins reads closed =>
      rw [Argument.anyAngled, Argument.anyAngled, Bool.or_false] at plain
      have ended := closed.skipTrivia_self
      have isRun := reads.isRun_source plain
      have joins : Joins value.source trailing := by
        cases trailing with
        | nil => exact .nil_right
        | cons character others => exact isRun.joins.congr rfl
      have token := begins.token
      rw [reads.split.2] at token
      have separated :=
        Separated.last complete (token.congr_right isRun.more joins)
          (isRun.congr_right (.inl ended) joins) ended
      simpa [Call.inside, Call.gaps, Call.ending, Argument.sources,
        Argument.gaps] using separated
  | @more _ leading text trailing further _ _ value call complete begins reads
        closed others =>
      rw [Argument.anyAngled, Bool.or_eq_false_iff] at plain
      have shorter : further.length < leading.length + text.length := by
        rw [reads.split.2]
        simp only [List.length_append, List.length_cons]
        omega
      have rest' := others.separated plain.2
      have isRun := reads.isRun_source plain.1
      have joins : Joins value.source (trailing ++ ',' :: call.inside) :=
        isRun.joins.congr (by cases trailing <;> rfl)
      have token := begins.token
      rw [reads.split.2] at token
      obtain ⟨gap, gaps, shape⟩ := Argument.exists_gaps call.ending call.args
      rw [Call.gaps, shape] at rest'
      have separated :=
        Separated.more complete (token.congr_right isRun.more joins)
          (isRun.congr_right (.of_trivia closed (.inr rfl)) joins) closed rest'
      obtain ⟨callee, args, close, comma⟩ := call
      cases args with
      | nil =>
          obtain rfl : comma = true := others.split.2.2.1 rfl
          obtain ⟨rfl, rfl⟩ := List.cons.inj (shape [])
          simpa [Call.inside, Call.gaps, Call.ending, Argument.sources,
            Argument.gaps] using separated
      | cons argument further =>
          obtain ⟨rfl, rfl⟩ := List.cons.inj (shape [])
          cases argument
          simpa [Call.inside, Call.gaps, Call.ending, Argument.sources,
            Argument.gaps] using separated
termination_by text.length
decreasing_by subst_vars; simpa using shorter

theorem ReadsValue.exists_readsArguments {strict : Bool} {text rest : Text}
    {call : Call} (reads : ReadsValue strict text (.call call) rest) :
    ∃ callee inner, ReadsArguments callee false inner call rest := by
  cases reads with
  | node reads _ =>
      cases reads with
      | call _ _ _ _ _ arguments => exact ⟨_, _, arguments⟩

theorem Argument.AllFromText.map_print {args : List Argument}
    (fromText : AllFromText args) (options : PrintOptions) :
    args.map (fun argument => argument.value.print options) =
      args.map fun argument => argument.value.source := by
  induction args with
  | nil => rfl
  | cons argument others induction =>
      obtain ⟨leading, value, trailing⟩ := argument
      obtain ⟨first, further⟩ := fromText
      rw [List.map_cons, List.map_cons, induction further]
      exact congrArg (· :: _) first.printFrom_eq

/-- The two ways to the arguments of a call agree in a text without opening
angle brackets: cutting the text between the parentheses gives one span for each
argument, with the print of the argument as its text and what the call keeps
between its arguments around it. -/
theorem splitArguments_inside {text : Text} {call : Call}
    (parsed : Expr.parse text = .ok (.call call)) (plain : '<' ∉ text)
    (options : PrintOptions) :
    ∃ before behind,
      text = before ++ (call.callee ++ '(' :: (call.inside ++ ')' :: behind)) ∧
      Trivia before ∧ skipTrivia behind = .ok [] ∧
      ∃ spans, splitArguments call.inside = .ok spans ∧
        spans.length = call.args.length ∧
        spans.map Span.text =
          call.args.map (fun argument => argument.value.print options) ∧
        Span.around call.inside spans = call.gaps := by
  obtain ⟨before, behind, whole, complete, -, reads, ended⟩ :=
    Expr.exists_of_parseFault (Expr.parse_eq_ok.1 parsed)
  have notAngled : (Expr.call call).angled = false := by
    cases angled : (Expr.call call).angled with
    | false => rfl
    | true =>
        have inside := Expr.mem_source_of_angled angled
        exact absurd (by simp [whole, inside]) plain
  rw [Expr.angled_call, Bool.or_eq_false_iff] at notAngled
  rw [call.source_eq] at whole
  have fromText := (Expr.fromText_call call).1 reads.split.1
  obtain ⟨callee, inner, arguments⟩ := reads.exists_readsArguments
  obtain ⟨spans, found, texts, around⟩ :=
    (arguments.separated notAngled.2).exists_splitArguments
  refine ⟨before, behind,
    by simpa using whole, complete, ended, spans, found, ?_, ?_, around⟩
  · simpa using congrArg List.length texts
  · rw [texts, fromText.map_print]

/-- A call with a comment between its arguments and a comma behind the last. -/
def commentedCall : Call :=
  { callee := ['f']
    args :=
      [⟨[], .number ['1'], " /* , */ ".toList⟩,
        ⟨[' '],
          .object ⟨[.property ⟨⟨['a'], some ['a']⟩, .verbatim "[2, 3]".toList,
            some ⟨[' '], [':', ' '], []⟩⟩], some [' '], some false⟩, []⟩]
    close := [' ']
    trailingComma := true }

/-- Neither the comma in the comment nor the one in the brackets separates
arguments. -/
theorem splitArguments_inside_commented :
    ∃ spans, splitArguments commentedCall.inside = .ok spans ∧
      spans.map Span.text = [['1'], "{ a: [2, 3] }".toList] ∧
      Span.around commentedCall.inside spans =
        [[], " /* , */ , ".toList, ", ".toList] := by
  obtain ⟨-, -, -, -, -, spans, found, -, texts, around⟩ :=
    @splitArguments_inside "f(1 /* , */ , { a: [2, 3] }, )".toList commentedCall
      (by with_unfolding_all rfl) (by decide) .standard
  exact ⟨spans, found, texts, around⟩

end ConfigEdit
