import ConfigEdit.Proofs.Document.Arguments

/-!
# Cutting an argument list and joining it again

`splitArguments` leaves nothing out: the spans and what stands around them are
the whole text, and around the spans stand only trivia and the commas that
separate them.  Each span is an argument by itself, which is to say that a walk
over its text alone passes all of it.  The other way round, arguments that are
joined are cut again where they were joined.
-/

namespace ConfigEdit

/-- A text that is one argument: a token begins it, and a walk over the text
alone passes all of it. -/
structure IsArgument (text : Text) : Prop where
  more : text ≠ []
  begins : skipTrivia text = .ok text
  passed : ∃ finish, skipExpression text = .ok finish ∧ finish.1 = []

/-- Texts in turn, the first and the last of which stand around the others. -/
def Text.interleaved : List Text → List Text → Text
  | gap :: gaps, run :: runs => gap ++ (run ++ Text.interleaved gaps runs)
  | gaps, [] => gaps.flatten
  | [], runs => runs.flatten

/-- What stands behind arguments: trivia with one comma between two of them, and
with at most one comma behind the last. -/
inductive GapsBehind : List Text → Prop where
  | last {gap : Text} : skipTrivia gap = .ok [] → GapsBehind [gap]
  | lastComma {before behind : Text} :
      Trivia before → skipTrivia behind = .ok [] →
      GapsBehind [before ++ ',' :: behind]
  | more {before behind : Text} {gaps : List Text} :
      Trivia before → Trivia behind → GapsBehind gaps →
      GapsBehind ((before ++ ',' :: behind) :: gaps)

/-- What stands around arguments, from the text before the first of them on. -/
inductive GapsAround : List Text → Prop where
  | none {gap : Text} : skipTrivia gap = .ok [] → GapsAround [gap]
  | some {gap : Text} {gaps : List Text} :
      Trivia gap → GapsBehind gaps → GapsAround (gap :: gaps)

/-- The spans cut a text into arguments. -/
structure CutsArguments {text : Text} (spans : List (Span text)) : Prop where
  arguments : ∀ span ∈ spans, IsArgument span.text
  nonempty : ∀ span ∈ spans, span.offsets.1 < span.offsets.2
  ordered :
    spans.Pairwise fun before behind => before.offsets.2 < behind.offsets.1
  whole : Text.interleaved (Span.around text spans) (spans.map Span.text) = text
  gaps : GapsAround (Span.around text spans)

theorem isArgument_iff {text : Text} :
    IsArgument text ↔ BeginsToken text ∧ IsRun text [] := by
  constructor
  · rintro ⟨more, begins, finish, walked, ended⟩
    have moved : finish.1.length ≠ text.length := by
      simpa [ended, eq_comm] using more
    obtain ⟨run, split, -, isRun⟩ := isRun_of_skipExpression walked moved
    rw [ended] at split isRun
    rw [List.append_nil] at split
    exact ⟨begins, split ▸ isRun⟩
  · rintro ⟨begins, isRun⟩
    refine ⟨isRun.more, begins, ?_⟩
    have walked := isRun.skipExpression_eq
    rw [← List.append_nil text]
    exact ⟨_, walked, rfl⟩

theorem Text.interleaved_append (before gap : Text) (gaps runs : List Text) :
    Text.interleaved ((before ++ gap) :: gaps) runs =
      before ++ Text.interleaved (gap :: gaps) runs := by
  cases runs <;> simp [Text.interleaved]

namespace Separated

variable {text : Text} {runs gaps : List Text}

theorem interleaved_eq (separated : Separated text runs gaps) :
    Text.interleaved gaps runs = text := by
  induction separated with
  | none _ => simp [Text.interleaved]
  | last _ _ _ _ => simp [Text.interleaved]
  | @more _ _ trailing _ gap runs gaps _ _ _ _ _ induction =>
      have moved := Text.interleaved_append (trailing ++ [',']) gap gaps runs
      simp only [List.append_assoc, List.singleton_append] at moved
      rw [Text.interleaved, moved, induction]

theorem gapsAround (separated : Separated text runs gaps) :
    GapsAround gaps := by
  induction separated with
  | none ended => exact .none ended
  | last complete _ _ ended => exact .some complete (.last ended)
  | more complete _ _ closed _ induction =>
      refine .some complete ?_
      cases induction with
      | none ended => exact .lastComma closed ended
      | some first behind => exact .more closed first behind

end Separated

theorem Span.utf8Size_finish_lt
    {whole : Text} (span : Span whole) (more : span.text ≠ []) :
    span.finish.1.utf8Size < span.start.1.utf8Size := by
  have split : span.text ++ span.finish.1 = span.start.1 :=
    span.finish.taken_append
  have sizes := congrArg Text.utf8Size split
  rw [Text.utf8Size_append] at sizes
  obtain ⟨first, others, shape⟩ := List.exists_cons_of_ne_nil more
  have some := Char.utf8Size_pos first
  rw [shape, Text.utf8Size_cons] at sizes
  omega

theorem pairwise_of_splitArguments {text : Text} {spans : List (Span text)}
    (found : splitArguments text = .ok spans) :
    spans.Pairwise fun before behind =>
      behind.start.1.utf8Size < before.finish.1.utf8Size := by
  rcases splitArguments_cases found with ⟨-, rfl⟩ |
    ⟨span, -, -, -, -, ⟨-, rfl⟩ | ⟨rest, inside, others, comma, further, rfl⟩⟩
  · exact .nil
  · exact List.pairwise_singleton _ _
  · have shorter : rest.length < text.length := span.length_rest_lt comma
    rw [List.pairwise_cons]
    refine ⟨fun other member => ?_, ?_⟩
    · obtain ⟨other, -, rfl⟩ := List.mem_map.1 member
      have left := Text.utf8Size_le_of_suffix other.start.2
      have passed := Text.utf8Size_le_of_suffix (skipTrivia_suffix comma)
      have one := Char.utf8Size_pos ','
      rw [Text.utf8Size_cons] at passed
      change other.start.1.utf8Size < _
      omega
    · rw [List.pairwise_map]
      exact pairwise_of_splitArguments further
termination_by text.length

theorem cutsArguments_of_splitArguments {text : Text} {spans : List (Span text)}
    (found : splitArguments text = .ok spans) : CutsArguments spans := by
  have separated := separated_of_splitArguments found
  have arguments : ∀ span ∈ spans, IsArgument span.text := fun span member =>
    isArgument_iff.2 (separated.isRun _ (List.mem_map_of_mem member))
  refine
    { arguments
      nonempty := fun span member => ?_
      ordered := (pairwise_of_splitArguments found).imp
        fun {before behind} apart => ?_
      whole := separated.interleaved_eq
      gaps := separated.gapsAround }
  · have longer := span.utf8Size_finish_lt (arguments span member).more
    have inside := Text.utf8Size_le_of_suffix span.start.2
    simp only [Span.offsets]
    omega
  · have inside :=
      Text.utf8Size_le_of_suffix (before.finish.2.trans before.start.2)
    simp only [Span.offsets]
    omega

/-- Arguments that are joined are separated where they were joined. -/
theorem exists_separated_joined
    {items : List Text} (arguments : ∀ item ∈ items, IsArgument item)
    {leading : Text} (complete : Trivia leading) :
    ∃ gap gaps, Separated (leading ++ Text.joined [',', ' '] items) items
      (gap :: gaps) := by
  induction items generalizing leading with
  | nil =>
      refine ⟨leading ++ [], [], .none ?_⟩
      rw [Text.joined, List.append_nil]
      exact complete.skipTrivia_self
  | cons item others induction =>
      obtain ⟨begins, isRun⟩ :=
        isArgument_iff.1 (arguments item List.mem_cons_self)
      cases others with
      | nil =>
          have separated :=
            Separated.last complete (by rwa [List.append_nil]) isRun rfl
          rw [List.append_nil] at separated
          exact ⟨_, _, separated⟩
      | cons next others =>
          have gap : Trivia [' '] := .of_all rfl
          obtain ⟨gap', gaps, separated⟩ :=
            induction (fun other inside =>
              arguments other (List.mem_cons_of_mem _ inside)) gap
          have joins (rest : Text) : Joins item (',' :: rest) :=
            fun _ => by simp
          rw [← List.append_nil item] at begins
          have separated :=
            Separated.more complete (begins.congr_right isRun.more (joins _))
              (isRun.congr_right (.of_trivia Trivia.nil (.inr rfl)) (joins _))
              Trivia.nil separated
          refine ⟨leading, ([] ++ ',' :: gap') :: gaps, ?_⟩
          simpa [Text.joined] using separated

/-- `splitArguments` cuts its text into arguments, with nothing but trivia and
commas around them; and arguments that are joined are cut where they were
joined. -/
theorem splitArguments_partitions :
    (∀ (text : Text) (spans : List (Span text)),
      splitArguments text = .ok spans →
      CutsArguments spans) ∧
    ∀ items : List Text, (∀ item ∈ items, IsArgument item) →
      ∃ spans, splitArguments (Text.joined [',', ' '] items) = .ok spans ∧
        spans.map Span.text = items := by
  refine ⟨fun text spans found => cutsArguments_of_splitArguments found,
    fun items arguments => ?_⟩
  obtain ⟨gap, gaps, separated⟩ := exists_separated_joined arguments Trivia.nil
  obtain ⟨spans, found, texts, -⟩ := separated.exists_splitArguments
  exact ⟨spans, found, texts⟩

/-- A comma in a string, in brackets, in a comment or in a substitution
separates no arguments, and neither does a bracket in a string close
anything. -/
theorem splitArguments_partitions_nested :
    ∃ spans, splitArguments
      "f(1, ')'), `a,${g(b, c)}`, [2] /* , */ + 3".toList = .ok spans ∧
      spans.map Span.text =
        ["f(1, ')')".toList, "`a,${g(b, c)}`".toList,
          "[2] /* , */ + 3".toList] ∧
      CutsArguments spans := by
  obtain ⟨spans, found, texts⟩ := splitArguments_partitions.2
    ["f(1, ')')".toList, "`a,${g(b, c)}`".toList, "[2] /* , */ + 3".toList] (by
      intro item inside
      simp only [List.mem_cons, List.not_mem_nil, or_false] at inside
      rcases inside with rfl | rfl | rfl
      all_goals
        exact ⟨by decide, by decide +kernel, ⟨[], List.nil_suffix⟩,
          by decide +kernel, rfl⟩)
  exact ⟨spans, found, texts, splitArguments_partitions.1 _ _ found⟩

end ConfigEdit
