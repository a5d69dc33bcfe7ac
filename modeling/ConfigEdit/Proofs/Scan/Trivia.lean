import ConfigEdit.Scan.Trivia

/-!
# Complete trivia

`skipTrivia` looks at what follows the trivia only when a line comment is still
open at its end.  `Trivia text` says that nothing is open: the text is stepped
over as a whole, whatever follows it.  What `skipTrivia` steps over in front of
a token is complete in this sense, and the place it stops at begins a token.
-/

namespace ConfigEdit

/-- A text that is stepped over as a whole, whatever follows it. -/
def Trivia (text : Text) : Prop :=
  ∀ rest, skipTrivia (text ++ rest) = skipTrivia rest

/-- The text is at its end or begins with a token. -/
def BeginsToken (text : Text) : Prop := skipTrivia text = .ok text

/-- The text is stepped over together with whatever it opens, when it is read
as the inside of a line comment. -/
private def ClosesLine (text : Text) : Prop :=
  ∀ rest, skipLineComment (text ++ rest) = skipTrivia rest

private def ClosesBlock (text : Text) : Prop :=
  ∀ opener rest, skipBlockComment opener (text ++ rest) = skipTrivia rest

theorem skipTrivia_token {character : Char} (notGap : isGap character = false)
    (notSlash : character ≠ '/') (rest : Text) :
    skipTrivia (character :: rest) = .ok (character :: rest) :=
  skipTrivia_stays (fun _ slash _ => notSlash slash)
    (fun _ slash _ => notSlash slash) (by simp [notGap])

theorem skipTrivia_slash {rest : Text} (notLine : rest.head? ≠ some '/')
    (notBlock : rest.head? ≠ some '*') :
    skipTrivia ('/' :: rest) = .ok ('/' :: rest) :=
  skipTrivia_stays (fun _ _ split => notLine (by rw [split]; rfl))
    (fun _ _ split => notBlock (by rw [split]; rfl)) (by decide)

namespace Trivia

theorem nil : Trivia [] := fun _ => rfl

theorem append
    {left right : Text} (first : Trivia left) (second : Trivia right) :
    Trivia (left ++ right) := by
  intro rest
  rw [List.append_assoc, first, second]

theorem cons {character : Char} {text : Text} (gap : isGap character = true)
    (trivia : Trivia text) : Trivia (character :: text) := by
  intro rest
  rw [List.cons_append, skipTrivia_gap gap, trivia]

theorem of_gaps
    {text : Text} (gaps : ∀ character ∈ text, isGap character = true) :
    Trivia text := by
  induction text with
  | nil => exact nil
  | cons character rest induction =>
      exact cons (gaps character List.mem_cons_self)
        (induction fun other member =>
          gaps other (List.mem_cons_of_mem _ member))

theorem of_all {text : Text} (gaps : text.all isGap = true) : Trivia text :=
  of_gaps (List.all_eq_true.1 gaps)

end Trivia

theorem beginsToken_nil : BeginsToken [] := rfl

/-- A reader steps over the front of a text, which is complete if anything is
left, and stops at a token. -/
private def StopsBehind (completes : Text → Prop) (text : Text)
    (read : Except Fault Text) : Prop :=
  ∀ rest, read = .ok rest → BeginsToken rest ∧
    ∃ before, text = before ++ rest ∧ (rest ≠ [] → completes before)

private theorem StopsBehind.here {completes : Text → Prop} {text : Text}
    (token : BeginsToken text) (complete : text ≠ [] → completes []) :
    StopsBehind completes text (.ok text) := by
  rintro rest ⟨⟩
  exact ⟨token, [], rfl, complete⟩

/-- The reader comes to what another reader reads behind the characters in
front. -/
private theorem StopsBehind.behind
    {completes further : Text → Prop} {others : Text} {read : Except Fault Text}
    (stops : StopsBehind completes others read) (front : Text)
    (complete : ∀ before rest, others = before ++ rest → completes before →
      further (front ++ before)) :
    StopsBehind further (front ++ others) read := by
  intro rest found
  obtain ⟨token, before, rfl, completes⟩ := stops rest found
  refine ⟨token, front ++ before, by simp, fun more => ?_⟩
  exact complete before rest rfl (completes more)

private theorem ClosesBlock.ne_nil {text : Text} (closes : ClosesBlock text) :
    text ≠ [] := by
  rintro rfl
  have closed := closes [] []
  simp [skipBlockComment, skipTrivia] at closed

/-- What the three readers step over is complete, and they stop at a token. -/
private theorem skip_complete :
    (∀ text, StopsBehind Trivia text (skipTrivia text)) ∧
    (∀ opener text,
      StopsBehind ClosesBlock text (skipBlockComment opener text)) ∧
    ∀ text, StopsBehind ClosesLine text (skipLineComment text) := by
  refine @skipTrivia.mutual_induct
    (fun text => StopsBehind Trivia text (skipTrivia text))
    (fun opener text =>
      StopsBehind ClosesBlock text (skipBlockComment opener text))
    (fun text => StopsBehind ClosesLine text (skipLineComment text))
    ?ended ?line ?block ?gap ?token ?unclosed ?closed ?inBlock ?lineEnded
    ?lineBreak ?inLine
  case ended => exact .here beginsToken_nil fun _ => Trivia.nil
  case line =>
    intro others stops
    refine stops.behind ['/', '/'] fun before _ _ closes rest => ?_
    simpa [skipTrivia] using closes rest
  case block =>
    intro others stops
    refine stops.behind ['/', '*'] fun before _ _ closes rest => ?_
    simpa [skipTrivia] using closes _ rest
  case gap =>
    intro character others _ _ gap stops
    rw [skipTrivia_gap gap]
    exact stops.behind [character] fun before _ _ complete => complete.cons gap
  case token =>
    intro character others notLine notBlock notGap
    have token : BeginsToken (character :: others) :=
      skipTrivia_stays notLine notBlock notGap
    rw [token]
    exact .here token fun _ => Trivia.nil
  case unclosed => rintro opener rest ⟨⟩
  case closed =>
    intro opener others stops
    refine stops.behind ['*', '/'] fun before _ _ complete opener rest => ?_
    simpa [skipBlockComment] using complete rest
  case inBlock =>
    intro opener character others notEnd stops
    rw [skipBlockComment_other notEnd]
    refine stops.behind [character]
      fun before behind split closes opener rest => ?_
    obtain ⟨next, more, rfl⟩ := List.exists_cons_of_ne_nil closes.ne_nil
    rw [List.singleton_append, List.cons_append, skipBlockComment_other]
    · exact closes opener rest
    · rintro tail rfl inside
      obtain ⟨rfl, -⟩ := List.cons.inj inside
      exact notEnd (more ++ behind) rfl split
  case lineEnded => exact .here beginsToken_nil fun more => absurd rfl more
  case lineBreak =>
    intro others stops
    refine stops.behind ['\n'] fun before _ _ complete rest => ?_
    simpa [skipLineComment] using complete rest
  case inLine =>
    intro character others notBreak stops
    rw [skipLineComment_other notBreak]
    refine stops.behind [character] fun before _ _ closes rest => ?_
    rw [List.singleton_append, List.cons_append, skipLineComment_other notBreak]
    exact closes rest

/-- What is stepped over up to the end of a text is stepped over up to a line
feed that is put there. -/
private theorem skip_ended :
    (∀ text, skipTrivia text = .ok [] → Trivia (text ++ ['\n'])) ∧
    (∀ opener text,
      skipBlockComment opener text = .ok [] → ClosesBlock (text ++ ['\n'])) ∧
    ∀ text, skipLineComment text = .ok [] → ClosesLine (text ++ ['\n']) := by
  refine @skipTrivia.mutual_induct
    (fun text => skipTrivia text = .ok [] → Trivia (text ++ ['\n']))
    (fun opener text =>
      skipBlockComment opener text = .ok [] → ClosesBlock (text ++ ['\n']))
    (fun text => skipLineComment text = .ok [] → ClosesLine (text ++ ['\n']))
    ?ended ?line ?block ?gap ?token ?unclosed ?closed ?inBlock ?lineEnded
    ?lineBreak ?inLine
  case ended =>
    intro _
    exact .of_all rfl
  case line =>
    intro others induction found rest
    simpa [skipTrivia] using induction found rest
  case block =>
    intro others induction found rest
    simpa [skipTrivia] using induction found _ rest
  case gap =>
    intro character others _ _ gap induction found
    rw [skipTrivia_gap gap] at found
    exact (induction found).cons gap
  case token =>
    intro character others notLine notBlock notGap found
    rw [skipTrivia_stays notLine notBlock notGap] at found
    cases found
  case unclosed => rintro opener ⟨⟩
  case closed =>
    intro opener others induction found other rest
    simpa [skipBlockComment] using induction found rest
  case inBlock =>
    intro opener character others notEnd induction found other rest
    rw [skipBlockComment_other notEnd] at found
    rw [List.cons_append, List.cons_append, skipBlockComment_other]
    · exact induction found other rest
    · rintro tail rfl inside
      cases others with
      | nil => simp at inside
      | cons next others =>
          obtain ⟨rfl, -⟩ := List.cons.inj inside
          exact notEnd others rfl rfl
  case lineEnded =>
    intro _ rest
    simp [skipLineComment]
  case lineBreak =>
    intro others induction found rest
    simpa [skipLineComment] using induction found rest
  case inLine =>
    intro character others notBreak induction found rest
    rw [skipLineComment_other notBreak] at found
    rw [List.cons_append, List.cons_append, skipLineComment_other notBreak]
    exact induction found rest

/-- Trivia up to the end of a text is complete together with a line feed behind
it. -/
theorem Trivia.of_ended {text : Text} (ended : skipTrivia text = .ok []) :
    Trivia (text ++ ['\n']) :=
  skip_ended.1 text ended

theorem beginsToken_of_skipTrivia
    {text rest : Text} (found : skipTrivia text = .ok rest) :
    BeginsToken rest :=
  (skip_complete.1 text rest found).1

theorem exists_trivia_of_skipTrivia
    {text rest : Text} (found : skipTrivia text = .ok rest)
    (more : rest ≠ []) : ∃ before, text = before ++ rest ∧ Trivia before := by
  obtain ⟨-, before, split, closes⟩ := skip_complete.1 text rest found
  exact ⟨before, split, closes more⟩

theorem BeginsToken.not_gap {character : Char} {rest : Text}
    (begins : BeginsToken (character :: rest)) : isGap character = false := by
  cases gap : isGap character with
  | false => rfl
  | true =>
  rw [BeginsToken, skipTrivia_gap gap] at begins
  have bound := (skipTrivia_suffix begins).length_le
  simp only [List.length_cons] at bound
  omega

/-- A slash is a token only where it begins no comment. -/
theorem BeginsToken.after_slash
    {rest : Text} (begins : BeginsToken ('/' :: rest)) :
    rest.head? ≠ some '/' ∧ rest.head? ≠ some '*' := by
  constructor
  · intro second
    obtain ⟨others, rfl⟩ : ∃ others, rest = '/' :: others := by
      cases rest <;> simp_all
    rw [BeginsToken, skipTrivia] at begins
    obtain ⟨-, before, split, -⟩ := skip_complete.2.2 others _ begins
    have lengths := congrArg List.length split
    simp only [List.length_append, List.length_cons] at lengths
    omega
  · intro second
    obtain ⟨others, rfl⟩ : ∃ others, rest = '*' :: others := by
      cases rest <;> simp_all
    rw [BeginsToken, skipTrivia] at begins
    obtain ⟨-, before, split, -⟩ := skip_complete.2.1 _ others _ begins
    have lengths := congrArg List.length split
    simp only [List.length_append, List.length_cons] at lengths
    omega

theorem Trivia.skipTrivia_eq {trivia rest : Text} (complete : Trivia trivia)
    (token : BeginsToken rest) : skipTrivia (trivia ++ rest) = .ok rest := by
  rw [complete, token]

/-- One token behind a text is enough to see that the text is complete. -/
theorem Trivia.of_skipTrivia {text rest : Text}
    (found : skipTrivia (text ++ rest) = .ok rest) (more : rest ≠ []) :
    Trivia text := by
  obtain ⟨before, split, trivia⟩ := exists_trivia_of_skipTrivia found more
  rwa [List.append_cancel_right split]

end ConfigEdit
