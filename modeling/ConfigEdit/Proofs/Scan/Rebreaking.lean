import ConfigEdit.Proofs.Scan.Tokens
import ConfigEdit.Proofs.Scan.Words
import ConfigEdit.Proofs.Text.Rebreaking

/-!
# Walks over other line breaks

A line break ends a line comment, and everywhere else it is a gap between tokens
or a part of a template literal or of a block comment, in which any character
will do.  So what the walks pass of a text they also pass with the line breaks
written in another way.
-/

namespace ConfigEdit

open Text (rebreak Paired Rebreakable)

variable {lineBreak : LineBreak} {text rest : Text} {character : Char}

/-- A character that begins a token is no part of a line break. -/
theorem rebreak_cons_of_not_gap (notGap : isGap character = false) :
    rebreak lineBreak (character :: text) =
      character :: text.rebreak lineBreak := by
  apply Text.rebreak_cons <;> rintro rfl <;> simp [isGap] at notGap

private theorem skipTrivia_breaks (lineBreak : LineBreak) (rest : Text) :
    skipTrivia (lineBreak.text ++ rest) = skipTrivia rest := by
  cases lineBreak
  · exact skipTrivia_gap (by decide) rest
  · exact (skipTrivia_gap (by decide) _).trans (skipTrivia_gap (by decide) rest)

private theorem skipLineComment_breaks (lineBreak : LineBreak) (rest : Text) :
    skipLineComment (lineBreak.text ++ rest) = skipTrivia rest := by
  cases lineBreak
  · rw [LineBreak.text, List.singleton_append, skipLineComment]
  · rw [LineBreak.text, List.cons_append, skipLineComment_other (by decide),
      List.singleton_append, skipLineComment]

private theorem skipBlockComment_breaks
    (opener : Text) (lineBreak : LineBreak) (rest : Text) :
    skipBlockComment opener (lineBreak.text ++ rest) =
      skipBlockComment opener rest := by
  have pass {character : Char} (notStar : character ≠ '*') (rest : Text) :
      skipBlockComment opener (character :: rest) =
        skipBlockComment opener rest :=
    skipBlockComment_other fun _ star _ => notStar star
  cases lineBreak
  · exact pass (by decide) rest
  · exact (pass (by decide) _).trans (pass (by decide) rest)

/-- What one walk passes of a text another one passes with other line breaks. -/
private def SkipsAlike (lineBreak : LineBreak)
    (skip other : Text → Except Fault Text) (text : Text) : Prop :=
  text.Paired → ∀ rest, skip text = .ok rest →
    other (text.rebreak lineBreak) = .ok (rest.rebreak lineBreak)

/-- A slash or a star that begins no mark of a comment begins none with other
line breaks. -/
private theorem noMark_rebreak {first second : Char} (lineBreak : LineBreak)
    {others : Text} (paired : others.Paired) (notFeed : second ≠ '\n')
    (notReturn : second ≠ '\r')
    (noMark : ∀ behind, character = first → others = second :: behind → False)
    (behind : Text) (same : character = first)
    (split : others.rebreak lineBreak = second :: behind) : False := by
  have head :=
    paired.head?_of_rebreak (congrArg List.head? split) notFeed notReturn
  obtain ⟨tail, shape⟩ := List.head?_eq_some_iff.1 head
  exact noMark tail same shape

private theorem skip_rebreak (lineBreak : LineBreak) :
    (∀ text, SkipsAlike lineBreak skipTrivia skipTrivia text) ∧
    (∀ opener text other,
      SkipsAlike lineBreak (skipBlockComment opener)
        (skipBlockComment other) text) ∧
    ∀ text, SkipsAlike lineBreak skipLineComment skipLineComment text := by
  refine @skipTrivia.mutual_induct
    (fun text => SkipsAlike lineBreak skipTrivia skipTrivia text)
    (fun opener text => ∀ other,
      SkipsAlike lineBreak (skipBlockComment opener)
        (skipBlockComment other) text)
    (fun text => SkipsAlike lineBreak skipLineComment skipLineComment text)
    ?ended ?line ?block ?gap ?token ?unclosed ?closed ?inBlock ?lineEnded
    ?lineBreak ?inLine
  case ended | lineEnded =>
    rintro _ rest ⟨⟩
    rfl
  case line =>
    intro others alike paired rest found
    rw [Text.rebreak_cons (by decide) (by decide),
      Text.rebreak_cons (by decide) (by decide), skipTrivia]
    exact alike (paired.of_suffix ⟨['/', '/'], rfl⟩) rest found
  case block =>
    intro others alike paired rest found
    rw [Text.rebreak_cons (by decide) (by decide),
      Text.rebreak_cons (by decide) (by decide), skipTrivia]
    exact alike _ (paired.of_suffix ⟨['/', '*'], rfl⟩) rest found
  case gap =>
    intro character others _ _ gap alike paired rest found
    rw [skipTrivia_gap gap] at found
    have later := alike (paired.of_suffix (List.suffix_cons _ _)) rest found
    rcases Text.rebreak_cons_cases lineBreak character others with
      ⟨-, same⟩ | ⟨-, same⟩ | ⟨-, -, same⟩
    · rw [same, skipTrivia_breaks, later]
    · rw [same, later]
    · rw [same, skipTrivia_gap gap, later]
  case token =>
    intro character others notLine notBlock notGap paired rest found
    have inner := paired.of_suffix (List.suffix_cons character others)
    rw [skipTrivia_stays notLine notBlock notGap] at found
    cases found
    rw [rebreak_cons_of_not_gap (by simpa using notGap)]
    exact skipTrivia_stays
      (noMark_rebreak lineBreak inner (by decide) (by decide) notLine)
      (noMark_rebreak lineBreak inner (by decide) (by decide) notBlock) notGap
  case unclosed => rintro opener other _ rest ⟨⟩
  case closed =>
    intro opener others alike other paired rest found
    rw [Text.rebreak_cons (by decide) (by decide),
      Text.rebreak_cons (by decide) (by decide), skipBlockComment]
    exact alike (paired.of_suffix ⟨['*', '/'], rfl⟩) rest found
  case inBlock =>
    intro opener character others notEnd alike other paired rest found
    have inner := paired.of_suffix (List.suffix_cons character others)
    rw [skipBlockComment_other notEnd] at found
    have later := alike other inner rest found
    rcases Text.rebreak_cons_cases lineBreak character others with
      ⟨-, same⟩ | ⟨-, same⟩ | ⟨-, -, same⟩
    · rw [same, skipBlockComment_breaks, later]
    · rw [same, later]
    · rw [same, skipBlockComment_other
        (noMark_rebreak lineBreak inner (by decide) (by decide) notEnd), later]
  case lineBreak =>
    intro others alike paired rest found
    rw [Text.rebreak_feed, skipLineComment_breaks]
    exact alike (paired.of_suffix (List.suffix_cons _ _)) rest found
  case inLine =>
    intro character others notBreak alike paired rest found
    rw [skipLineComment_other notBreak] at found
    have later := alike (paired.of_suffix (List.suffix_cons _ _)) rest found
    rcases Text.rebreak_cons_cases lineBreak character others with
      ⟨isBreak, -⟩ | ⟨-, same⟩ | ⟨-, -, same⟩
    · exact absurd isBreak notBreak
    · rw [same, later]
    · rw [same, skipLineComment_other notBreak, later]

theorem skipTrivia_rebreak (lineBreak : LineBreak) (paired : text.Paired)
    (found : skipTrivia text = .ok rest) :
    skipTrivia (text.rebreak lineBreak) = .ok (rest.rebreak lineBreak) :=
  (skip_rebreak lineBreak).1 text paired rest found

theorem BeginsToken.rebreak (lineBreak : LineBreak) (begins : BeginsToken text)
    (paired : text.Paired) :
    BeginsToken (text.rebreak lineBreak) :=
  skipTrivia_rebreak lineBreak paired begins

theorem Trivia.rebreak (lineBreak : LineBreak) {trivia : Text}
    (complete : Trivia trivia) (begins : BeginsToken text) (more : text ≠ [])
    (paired : (trivia ++ text).Paired) :
    Trivia (trivia.rebreak lineBreak) := by
  have skipped :=
    skipTrivia_rebreak lineBreak paired (complete.skipTrivia_eq begins)
  rw [Text.rebreak_append] at skipped
  exact .of_skipTrivia skipped
    ((paired.of_suffix (List.suffix_append trivia text)).rebreak_ne_nil more)

theorem rebreak_of_plain
    (plain : ∀ character ∈ text, isPlain character = true ∧ character ≠ '/') :
    text.rebreak lineBreak = text := by
  apply Text.rebreak_of_flat <;> intro inside <;>
    have special := (plain _ inside).1 <;>
    simp [isPlain, isGap] at special

theorem Stops.rebreak
    (lineBreak : LineBreak) (stops : Stops text) (paired : text.Paired) :
    Stops (text.rebreak lineBreak) := by
  rcases stops with ended | ⟨character, others, found, ends⟩
  · exact .inl (skipTrivia_rebreak lineBreak paired ended)
  · have later := skipTrivia_rebreak lineBreak paired found
    rw [rebreak_cons_of_not_gap (notGap_of_ends ends).1] at later
    exact .inr ⟨character, _, later, ends⟩

theorem EndsAt.rebreak (lineBreak : LineBreak) {continues : Char → Bool}
    (ends : EndsAt continues text) (paired : text.Paired)
    (noFeed : continues '\n' = false) (noReturn : continues '\r' = false) :
    EndsAt continues (text.rebreak lineBreak) := by
  intro character head
  by_cases feed : character = '\n'
  · rwa [feed]
  · by_cases isReturn : character = '\r'
    · rwa [isReturn]
    · exact ends character (paired.head?_of_rebreak head feed isReturn)

/-- A word is ended by a character that is no part of it, and by a point that no
identifier follows. -/
theorem endsWord_cons_iff :
    EndsWord (character :: text) ↔ isIdentifierPart character = false ∧
      (character = '.' → EndsAt isIdentifierStart text) := by
  constructor
  · intro ends
    refine ⟨ends.not_part, ?_⟩
    rintro rfl next head
    obtain ⟨others, rfl⟩ := List.head?_eq_some_iff.1 head
    rw [EndsWord, identifierPathEnd, if_neg (by decide)] at ends
    split at ends
    · have shorter := (identifierPathEnd_suffix others).length_le
      rw [ends] at shorter
      simp only [List.length_cons] at shorter
      omega
    · next notPoint => simpa using notPoint
  · rintro ⟨notPart, ends⟩
    cases text with
    | nil => simp [EndsWord, identifierPathEnd, notPart]
    | cons next others =>
        rw [EndsWord, identifierPathEnd, if_neg (by simp [notPart]), if_neg]
        rw [Bool.and_eq_true, decide_eq_true_eq]
        rintro ⟨point, starts⟩
        rw [ends point next rfl] at starts
        contradiction

theorem EndsWord.rebreak
    (lineBreak : LineBreak) (ends : EndsWord text) (paired : text.Paired) :
    EndsWord (text.rebreak lineBreak) := by
  have breaks
      (rest : Text) : EndsWord (Text.rebreak lineBreak ('\n' :: rest)) := by
    cases lineBreak <;> exact endsWord_of_head _ (by decide) (by decide)
  cases text with
  | nil => exact .nil
  | cons first others =>
      rcases Text.rebreak_cons_cases lineBreak first others with
        ⟨rfl, -⟩ | ⟨rfl, same⟩ | ⟨-, -, same⟩
      · exact breaks others
      · obtain ⟨behind, rfl⟩ :=
          List.head?_eq_some_iff.1 (paired _ (List.suffix_refl _))
        rw [same]
        exact breaks behind
      · obtain ⟨notPart, further⟩ := endsWord_cons_iff.1 ends
        have inner := paired.of_suffix (List.suffix_cons first others)
        rw [same]
        exact endsWord_cons_iff.2 ⟨notPart, fun point =>
          (further point).rebreak lineBreak inner (by decide) (by decide)⟩

theorem ClosesString.flat
    {mark : Char} {body : Text} (closes : ClosesString mark body)
    (able : Rebreakable (mark :: (body ++ mark :: rest))) :
    '\n' ∉ body ∧ '\r' ∉ body := by
  have whole : mark :: (body ++ [mark]) ++ rest =
      mark :: (body ++ mark :: rest) := by simp
  have noFeed : '\n' ∉ mark :: (body ++ [mark]) :=
    Text.Uncontinued.notMem (by rw [whole]; exact able.uncontinued)
      (by rw [whole]; exact closes rest)
  simp only [List.mem_cons, List.mem_append, List.not_mem_nil, or_false, not_or]
    at noFeed
  refine ⟨noFeed.2.1, fun inside => ?_⟩
  obtain ⟨before, behind, rfl⟩ := List.append_of_mem inside
  have next := able.paired (behind ++ mark :: rest) ⟨mark :: before, by simp⟩
  cases behind with
  | nil =>
      simp only [List.nil_append, List.head?_cons, Option.some.injEq] at next
      exact noFeed.1 next.symm
  | cons character others =>
      simp only [List.cons_append, List.head?_cons, Option.some.injEq] at next
      exact noFeed.2.1 (by simp [next])

theorem ClosesString.rebreak_eq {mark : Char} {body : Text}
    (closes : ClosesString mark body) (quotes : isQuotationMark mark = true)
    (able : Rebreakable (mark :: (body ++ mark :: rest))) :
    rebreak lineBreak (mark :: (body ++ mark :: rest)) =
      mark :: (body ++ mark :: rest.rebreak lineBreak) := by
  obtain ⟨noFeed, noReturn⟩ := closes.flat able
  have notGap := (notGap_of_isQuotationMark quotes).1
  rw [rebreak_cons_of_not_gap notGap, Text.rebreak_append,
    rebreak_cons_of_not_gap notGap, Text.rebreak_of_flat noFeed noReturn]

theorem Joins.rebreak
    (lineBreak : LineBreak) {left right : Text} (joins : Joins left right)
    (notGap : ∀ last ∈ left.getLast?, isGap last = false)
    (paired : right.Paired) :
    Joins (left.rebreak lineBreak) (right.rebreak lineBreak) := by
  intro slash
  have last : left.getLast? = some '/' := by
    rcases List.eq_nil_or_concat left with rfl | ⟨before, last, rfl⟩
    · simp at slash
    · rw [List.concat_eq_append, Text.rebreak_append,
        rebreak_cons_of_not_gap (notGap last (by simp))] at slash
      simpa using slash
  obtain ⟨notLine, notBlock⟩ := joins last
  exact ⟨fun head =>
    notLine (paired.head?_of_rebreak head (by decide) (by decide)),
    fun head => notBlock (paired.head?_of_rebreak head (by decide) (by decide))⟩

/-- Template literals in texts up to a length are passed with other line
breaks. -/
private def TemplatesAlike (lineBreak : LineBreak) (bound : Nat) : Prop :=
  ∀ text : Text, text.length < bound → text.Rebreakable →
    ∀ rest, templateEnd? text = some rest →
      templateEnd? (text.rebreak lineBreak) = some (rest.rebreak lineBreak)

section Templates

variable {bound : Nat} (templates : TemplatesAlike lineBreak bound)
  {before behind : List Char} {body token run : Text} {closer : Char}

include templates

private theorem closesTemplate_of_alike (closes : ClosesTemplate body)
    (short : (body ++ '\x60' :: rest).length < bound)
    (able : Rebreakable (body ++ '\x60' :: rest)) :
    ClosesTemplate (body.rebreak lineBreak) := by
  have walked := templates _ short able rest (closes rest)
  obtain ⟨other, split, closes⟩ := templateEnd?_eq_some walked
  rw [Text.rebreak_append, Text.rebreak_cons (by decide) (by decide)] at split
  rwa [List.append_cancel_right split]

private theorem token_of_alike (step : Token before token behind)
    (short : (token ++ rest).length ≤ bound)
    (able : Rebreakable (token ++ rest)) :
    Token before (token.rebreak lineBreak) behind := by
  obtain ⟨first, last, head, -, notGap, -⟩ := step.exists_ends
  cases step with
  | opener opens =>
      cases head
      rw [rebreak_cons_of_not_gap notGap]
      exact .opener opens
  | closer closes =>
      cases head
      rw [rebreak_cons_of_not_gap notGap]
      exact .closer closes
  | separator separates open' =>
      cases head
      rw [rebreak_cons_of_not_gap notGap]
      exact .separator separates open'
  | plain stands =>
      cases head
      rw [rebreak_cons_of_not_gap notGap]
      exact .plain stands
  | @string _ _ body quotes closes =>
      cases head
      have whole : first :: (body ++ [first]) ++ rest =
          first :: (body ++ first :: rest) := by simp
      obtain ⟨noFeed, noReturn⟩ := closes.flat (whole ▸ able)
      rw [rebreak_cons_of_not_gap notGap, Text.rebreak_append,
        rebreak_cons_of_not_gap notGap, Text.rebreak_of_flat noFeed noReturn]
      exact .string quotes closes
  | @template _ body closes =>
      have whole : '\x60' :: (body ++ ['\x60']) ++ rest =
          '\x60' :: (body ++ '\x60' :: rest) := by
        simp
      rw [whole] at short able
      rw [Text.rebreak_cons (by decide) (by decide), Text.rebreak_append,
        Text.rebreak_cons (by decide) (by decide)]
      exact .template
        (closesTemplate_of_alike templates closes short able.of_cons)

private theorem runs_of_alike
    (runs : Runs before run behind) (joins : Joins run rest)
    (short : (run ++ rest).length ≤ bound) (able : Rebreakable (run ++ rest)) :
    Runs before (run.rebreak lineBreak) behind := by
  induction runs with
  | nil => exact .nil
  | @cons before between behind trivia token others complete step next runs
      induction =>
      obtain ⟨tokenJoins, joins⟩ := next.of_append joins step.ne_nil
      rw [List.append_assoc, List.append_assoc] at short able
      rw [List.length_append] at short
      have more : token ++ (others ++ rest) ≠ [] :=
        List.append_ne_nil_of_left_ne_nil step.ne_nil _
      have complete' := complete.rebreak lineBreak
        (step.beginsToken tokenJoins) more able.paired
      have step' := token_of_alike templates step (by omega) able.of_append
      have joined := tokenJoins.rebreak lineBreak (fun last ends => ?_)
        able.of_append.of_append.paired
      · rw [Text.rebreak_append] at joined
        rw [List.length_append] at short
        rw [Text.rebreak_append, Text.rebreak_append]
        exact .cons complete' step' joined.of_append_right
          (induction joins (by omega) able.of_append.of_append)
      · obtain ⟨-, other, -, ends', -, notGap⟩ := step.exists_ends
        rw [ends', Option.mem_some_iff] at ends
        rwa [← ends]

private theorem groupEnd?_of_alike
    {text rest : Text} (short : text.length ≤ bound)
    (able : text.Rebreakable) (walked : groupEnd? closer text = some rest) :
    groupEnd? closer (text.rebreak lineBreak) =
      some (rest.rebreak lineBreak) := by
  obtain ⟨finish, character, after, ended, found, further⟩ :=
    groupEnd?_eq_some walked
  obtain ⟨run, rfl, runs, joins, stops⟩ := flatEnd?_eq_some ended
  obtain ⟨trivia, rfl, complete⟩ :=
    exists_trivia_of_skipTrivia found (List.cons_ne_nil _ _)
  have ends := stops.ends found
  have notGap := (notGap_of_ends ends).1
  have able' := able.of_append
  have runs' := runs_of_alike templates runs joins short able
  have joins' := joins.rebreak lineBreak runs.last_not_gap able'.paired
  have complete' := complete.rebreak lineBreak (beginsToken_of_skipTrivia found)
    (List.cons_ne_nil _ _) able'.paired
  rw [Text.rebreak_append, rebreak_cons_of_not_gap notGap] at joins'
  rw [Text.rebreak_append, Text.rebreak_append, rebreak_cons_of_not_gap notGap,
    runs'.groupEnd?_append complete' ends joins']
  rcases further with ⟨rfl, rfl⟩ | ⟨different, separates, later⟩
  · rw [if_pos rfl]
  · rw [if_neg different, if_pos separates]
    simp only [List.length_append, List.length_cons] at short
    exact groupEnd?_of_alike (by omega) able'.of_append.of_cons later
termination_by text.length
decreasing_by
  subst_vars
  simp only [List.length_append, List.length_cons]
  omega

private theorem templateEnd?_of_alike (short : text.length ≤ bound)
    (able : text.Rebreakable) (walked : templateEnd? text = some rest) :
    templateEnd? (text.rebreak lineBreak) = some (rest.rebreak lineBreak) := by
  -- A line break in a template literal is passed, also behind a backslash.
  have breaks (others : Text) :
      templateEnd? (lineBreak.text ++ others) = templateEnd? others := by
    cases lineBreak <;> simp [LineBreak.text, templateEnd?_cons]
  have escaped (others : Text) :
      templateEnd? ('\\' :: (lineBreak.text ++ others)) =
        templateEnd? others := by
    cases lineBreak <;> simp [LineBreak.text, templateEnd?_cons]
  cases templateEnd?_eq_some_iff.1 walked with
  | mark =>
      rw [Text.rebreak_cons (by decide) (by decide)]
      exact templateEnd?_eq_some_iff.2 .mark
  | @escape second others further =>
      simp only [List.length_cons] at short
      have later := templates others (by omega) able.of_cons.of_cons _ further
      rw [Text.rebreak_cons (by decide) (by decide)]
      rcases Text.rebreak_cons_cases lineBreak second others with
        ⟨rfl, same⟩ | ⟨rfl, same⟩ | ⟨-, -, same⟩
      · rw [same, escaped]
        exact later
      · obtain ⟨after, rfl⟩ :=
          List.head?_eq_some_iff.1
            (able.of_cons.paired others (List.suffix_refl _))
        rw [Text.rebreak_feed, breaks] at later
        rw [same, Text.rebreak_feed, escaped]
        exact later
      · rw [same]
        exact templateEnd?_eq_some_iff.2 (.escape later)
  | @substitution inner after ended further =>
      have group := groupEnd?_of_alike templates
        (by simp only [List.length_cons] at short; omega)
        able.of_cons.of_cons ended
      obtain ⟨inside, rfl, -⟩ := exists_closesGroup_of_groupEnd? ended
      simp only [List.length_cons, List.length_append] at short
      have later := templates after
        (by omega) able.of_cons.of_cons.of_append.of_cons _ further
      rw [Text.rebreak_cons (by decide) (by decide),
        Text.rebreak_cons (by decide) (by decide)]
      exact templateEnd?_eq_some_iff.2 (.substitution group later)
  | @other character others notBackslash notMark notSubstitution further =>
      have later := templates others short able.of_cons _ further
      rcases Text.rebreak_cons_cases lineBreak character others with
        ⟨rfl, same⟩ | ⟨rfl, same⟩ | ⟨-, -, same⟩
      · rw [same, breaks]
        exact later
      · rw [same]
        exact later
      · rw [same]
        refine templateEnd?_eq_some_iff.2
          (.other notBackslash notMark (fun dollar opens => ?_) later)
        exact notSubstitution dollar
          (able.of_cons.paired.head?_of_rebreak opens (by decide) (by decide))

end Templates

private theorem templatesAlike (lineBreak : LineBreak) (bound : Nat) :
    TemplatesAlike lineBreak bound := by
  induction bound with
  | zero => exact fun text short => absurd short (Nat.not_lt_zero _)
  | succ bound templates =>
      exact fun text short able rest walked =>
        templateEnd?_of_alike templates (Nat.le_of_lt_succ short) able walked

theorem ClosesTemplate.rebreak
    (lineBreak : LineBreak) {body : Text} (closes : ClosesTemplate body)
    (able : Rebreakable (body ++ '\x60' :: rest)) :
    ClosesTemplate (body.rebreak lineBreak) :=
  closesTemplate_of_alike (templatesAlike lineBreak _) closes
    (Nat.lt_succ_self _) able

theorem Runs.rebreak (lineBreak : LineBreak) {before behind : List Char}
    {run : Text} (runs : Runs before run behind) (joins : Joins run rest)
    (able : Rebreakable (run ++ rest)) :
    Runs before (run.rebreak lineBreak) behind :=
  runs_of_alike (templatesAlike lineBreak _) runs joins (Nat.le_refl _) able

end ConfigEdit
