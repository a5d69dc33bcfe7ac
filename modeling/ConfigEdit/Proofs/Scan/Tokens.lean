import ConfigEdit.Proofs.Scan.Places
import ConfigEdit.Proofs.Scan.Trivia
import Mathlib.Data.List.Basic

/-!
# Runs of tokens

A walk over an expression passes tokens with trivia between them.  `Token`
says what one token does to the brackets that are open, and `Runs` what a text
of tokens does to them.  The only token that looks at what follows it is the
slash, which must not begin a comment: `Joins` says so for two neighbours.

`flatEnd?_eq_some` splits a successful walk into the run that it has passed and
the place where it stops; `Runs.flatEnd?` carries the run over to any other
text behind it.  Together they say that a walk knows nothing of the text behind
the place where it stops.
-/

namespace ConfigEdit

/-- The right text does not turn a slash at the end of the left one into the
beginning of a comment. -/
def Joins (left right : Text) : Prop :=
  left.getLast? = some '/' → right.head? ≠ some '/' ∧ right.head? ≠ some '*'

/-- Between two of these marks, the text is the inside of a string literal. -/
def ClosesString (mark : Char) (body : Text) : Prop :=
  ∀ rest, skipString (mark :: (body ++ mark :: rest)) = .ok rest

/-- Between two of its marks, the text is the inside of a template literal. -/
def ClosesTemplate (body : Text) : Prop :=
  ∀ rest, templateEnd? (body ++ '\x60' :: rest) = some rest

/-- Behind an opening bracket and in front of its closer, the text is the
inside of a group. -/
def ClosesGroup (closer : Char) (body : Text) : Prop :=
  ∀ rest, groupEnd? closer (body ++ closer :: rest) = some rest

/-- Characters that stand for themselves, whatever brackets are open. -/
def isPlain (character : Char) : Bool :=
  !isGap character && (closerOf? character).isNone && !isCloser character &&
    !isSeparator character && !isQuotationMark character && character ≠ '\x60'

/-- One token, with the closers of the open brackets before and behind it. -/
inductive Token : List Char → Text → List Char → Prop where
  | opener {closers : List Char} {character closer : Char} :
      closerOf? character = some closer →
      Token closers [character] (closer :: closers)
  | closer {closers : List Char} {character : Char} :
      isCloser character = true →
      Token (character :: closers) [character] closers
  | separator {closers : List Char} {character : Char} :
      isSeparator character = true → closers ≠ [] →
      Token closers [character] closers
  | string {closers : List Char} {mark : Char} {body : Text} :
      isQuotationMark mark = true → ClosesString mark body →
      Token closers (mark :: (body ++ [mark])) closers
  | template {closers : List Char} {body : Text} :
      ClosesTemplate body →
      Token closers ('\x60' :: (body ++ ['\x60'])) closers
  | plain {closers : List Char} {character : Char} :
      isPlain character = true →
      Token closers [character] closers

/-- Tokens with trivia in front of each. -/
inductive Runs : List Char → Text → List Char → Prop where
  | nil {closers : List Char} : Runs closers [] closers
  | cons {before between behind : List Char} {trivia token rest : Text} :
      Trivia trivia → Token before token between → Joins token rest →
      Runs between rest behind →
      Runs before (trivia ++ (token ++ rest)) behind

/-- An expression ends here: at the end of the text or, behind trivia, before a
closer or a separator. -/
def Stops (text : Text) : Prop :=
  skipTrivia text = .ok [] ∨
    ∃ character rest, skipTrivia text = .ok (character :: rest) ∧
      (isCloser character = true ∨ isSeparator character = true)

theorem Stops.ends {text rest : Text} {character : Char} (stops : Stops text)
    (found : skipTrivia text = .ok (character :: rest)) :
    isCloser character = true ∨ isSeparator character = true := by
  rcases stops with ended | ⟨other, others, same, ends⟩
  · rw [ended] at found
    cases found
  · rw [same] at found
    cases found
    exact ends

namespace Joins

variable {left right other : Text}

theorem nil_right : Joins left [] := fun _ => by simp

theorem of_getLast? (last : left.getLast? ≠ some '/') : Joins left right :=
  fun slash => absurd slash last

theorem congr (joins : Joins left right) (same : right.head? = other.head?) :
    Joins left other := by
  intro slash
  rw [← same]
  exact joins slash

theorem append_right (joins : Joins left right) (more : right ≠ []) :
    Joins left (right ++ other) :=
  joins.congr (List.head?_append_of_ne_nil _ more).symm

theorem of_append_left
    (joins : Joins (other ++ left) right) (more : left ≠ []) :
    Joins left right := by
  intro slash
  exact joins (by rw [List.getLast?_append_of_ne_nil _ more, slash])

theorem append_left (joins : Joins left right) (more : left ≠ []) :
    Joins (other ++ left) right := by
  intro slash
  exact joins (by rwa [List.getLast?_append_of_ne_nil _ more] at slash)

theorem of_append_right (joins : Joins left (right ++ other)) :
    Joins left right := by
  cases right with
  | nil => exact nil_right
  | cons character others => exact joins.congr rfl

/-- A text that is joined to what stands behind it joins its parts to what
stands behind them. -/
theorem of_append {before rest : Text} (next : Joins left right)
    (joins : Joins (before ++ (left ++ right)) rest) (more : left ≠ []) :
    Joins left (right ++ rest) ∧ Joins right rest := by
  cases right with
  | nil =>
      rw [List.append_nil] at joins
      exact ⟨joins.of_append_left more, .of_getLast? (by simp)⟩
  | cons character others =>
      rw [← List.append_assoc] at joins
      exact ⟨next.append_right (List.cons_ne_nil _ _),
        joins.of_append_left (List.cons_ne_nil _ _)⟩

end Joins

theorem mem_of_isCloser
    {character : Char} (closes : isCloser character = true) :
    character = ')' ∨ character = ']' ∨ character = '}' := by
  simpa [isCloser, or_assoc] using closes

theorem mem_of_isSeparator
    {character : Char} (separates : isSeparator character = true) :
    character = ',' ∨ character = ';' := by
  simpa [isSeparator] using separates

theorem mem_of_isQuotationMark
    {character : Char} (quotes : isQuotationMark character = true) :
    character = '\x27' ∨ character = '\x22' := by
  simpa [isQuotationMark] using quotes

theorem mem_of_closerOf? {character closer : Char}
    (opens : closerOf? character = some closer) :
    character = '(' ∧ closer = ')' ∨ character = '[' ∧ closer = ']' ∨
      character = '{' ∧ closer = '}' := by
  rw [closerOf?.eq_def] at opens
  split at opens <;> simp_all [eq_comm]

/-! No bracket, quotation mark or separator is a gap or begins a comment. -/

theorem notGap_of_isCloser
    {character : Char} (closes : isCloser character = true) :
    isGap character = false ∧ character ≠ '/' := by
  rcases mem_of_isCloser closes with rfl | rfl | rfl <;> decide

theorem notGap_of_isSeparator
    {character : Char} (separates : isSeparator character = true) :
    isGap character = false ∧ character ≠ '/' := by
  rcases mem_of_isSeparator separates with rfl | rfl <;> decide

theorem notGap_of_isQuotationMark
    {character : Char} (quotes : isQuotationMark character = true) :
    isGap character = false ∧ character ≠ '/' := by
  rcases mem_of_isQuotationMark quotes with rfl | rfl <;> decide

theorem notGap_of_closerOf? {character closer : Char}
    (opens : closerOf? character = some closer) :
    isGap character = false ∧ character ≠ '/' := by
  rcases mem_of_closerOf? opens with ⟨rfl, -⟩ | ⟨rfl, -⟩ | ⟨rfl, -⟩ <;> decide

theorem notGap_of_ends {character : Char}
    (ends : isCloser character = true ∨ isSeparator character = true) :
    isGap character = false ∧ character ≠ '/' :=
  ends.elim notGap_of_isCloser notGap_of_isSeparator

theorem beginsToken_of_notGap
    {character : Char} (plain : isGap character = false ∧ character ≠ '/')
    (rest : Text) : BeginsToken (character :: rest) :=
  skipTrivia_token plain.1 plain.2 rest

theorem flatEnd?_of_stops {text : Text} (stops : Stops text) :
    flatEnd? [] text = some text := by
  rw [flatEnd?_eq]
  rcases stops with ended | ⟨character, rest, found, closes | separates⟩
  · simp [ended]
  · rcases mem_of_isCloser closes with rfl | rfl | rfl <;>
      simp [found, closerOf?, isCloser]
  · rcases mem_of_isSeparator separates with rfl | rfl <;>
      simp [found, closerOf?, isCloser, isSeparator]

namespace Token

variable {before behind : List Char} {token : Text}

theorem ne_nil (step : Token before token behind) : token ≠ [] := by
  cases step <;> simp

theorem exists_ends (step : Token before token behind) :
    ∃ first last, token.head? = some first ∧ token.getLast? = some last ∧
      isGap first = false ∧ isGap last = false := by
  cases step with
  | opener opens =>
      have notGap := (notGap_of_closerOf? opens).1
      exact ⟨_, _, rfl, rfl, notGap, notGap⟩
  | closer closes =>
      have notGap := (notGap_of_isCloser closes).1
      exact ⟨_, _, rfl, rfl, notGap, notGap⟩
  | separator separates _ =>
      have notGap := (notGap_of_isSeparator separates).1
      exact ⟨_, _, rfl, rfl, notGap, notGap⟩
  | string quotes closes =>
      have notGap := (notGap_of_isQuotationMark quotes).1
      exact ⟨_, _, rfl,
        by rw [← List.cons_append, List.getLast?_concat], notGap, notGap⟩
  | template closes =>
      exact ⟨_, _, rfl,
        by rw [← List.cons_append, List.getLast?_concat], by decide⟩
  | plain stands =>
      refine ⟨_, _, rfl, rfl, ?_⟩
      simp only [isPlain, Bool.and_eq_true] at stands
      simpa using stands.1.1.1.1.1

/-- A token begins or ends with a slash only if it is one. -/
theorem eq_slash (step : Token before token behind)
    (slash : token.head? = some '/' ∨ token.getLast? = some '/') :
    token = ['/'] := by
  cases step with
  | opener | closer | separator | plain => simpa using slash
  | string quotes closes =>
      rw [← List.cons_append, List.getLast?_concat] at slash
      rcases mem_of_isQuotationMark quotes with rfl | rfl <;> simp at slash
  | template closes =>
      rw [← List.cons_append, List.getLast?_concat] at slash
      simp at slash

theorem beginsToken (step : Token before token behind) {rest : Text}
    (joins : Joins token rest) : BeginsToken (token ++ rest) := by
  obtain ⟨first, last, head, -, notGap, -⟩ := step.exists_ends
  by_cases slash : first = '/'
  · subst slash
    have same := step.eq_slash (.inl head)
    subst same
    obtain ⟨notLine, notBlock⟩ := joins rfl
    exact skipTrivia_slash notLine notBlock
  · cases token with
    | nil => simp at head
    | cons character others =>
        cases head
        exact skipTrivia_token notGap slash _

/-- A walk goes on behind a token with the brackets that are open there. -/
theorem flatEnd?_eq_of_token (step : Token before token behind)
    {text rest : Text} (found : skipTrivia text = .ok (token ++ rest)) :
    flatEnd? before text = flatEnd? behind rest := by
  rw [flatEnd?_eq]
  cases step with
  | opener opens => simp [found, opens]
  | closer closes =>
      rcases mem_of_isCloser closes with rfl | rfl | rfl <;>
        simp [found, closerOf?, isCloser]
  | separator separates open' =>
      rcases mem_of_isSeparator separates with rfl | rfl <;>
        simp [found, closerOf?, isCloser, open', isQuotationMark]
  | string quotes closes =>
      have ended := closes rest
      rcases mem_of_isQuotationMark quotes with rfl | rfl <;>
        simp [found, closerOf?, isCloser, isSeparator, isQuotationMark, ended,
          Except.toOption]
  | template closes =>
      have ended := closes rest
      simp [found, closerOf?, isCloser, isSeparator, isQuotationMark, ended]
  | plain stands =>
      simp only [isPlain, Bool.and_eq_true, Option.isNone_iff_eq_none,
        Bool.not_eq_eq_eq_not, Bool.not_true, decide_eq_true_eq] at stands
      simp [found, stands]

end Token

namespace Runs

variable {before between behind : List Char} {text left right rest : Text}

theorem eq_of_nil (run : Runs before [] behind) : before = behind := by
  generalize empty : ([] : Text) = text at run
  cases run with
  | nil => rfl
  | cons complete step next run =>
      exact absurd empty.symm (by simp [step.ne_nil])

/-- A walk goes on behind a run with the brackets that are open there. -/
theorem flatEnd?_append
    (run : Runs before text behind) (joins : Joins text rest) :
    flatEnd? before (text ++ rest) = flatEnd? behind rest := by
  induction run with
  | nil => rfl
  | @cons before between behind trivia token others complete step next run
      induction =>
      obtain ⟨tokenJoins, joins⟩ := next.of_append joins step.ne_nil
      have found : skipTrivia (trivia ++ (token ++ others) ++ rest) =
          .ok (token ++ (others ++ rest)) := by
        rw [List.append_assoc, complete, List.append_assoc]
        exact step.beginsToken tokenJoins
      rw [step.flatEnd?_eq_of_token found]
      exact induction joins

theorem flatEnd?_of_stops (run : Runs before text []) (joins : Joins text rest)
    (stops : Stops rest) : flatEnd? before (text ++ rest) = some rest := by
  rw [run.flatEnd?_append joins, ConfigEdit.flatEnd?_of_stops stops]

/-- A group goes on behind a run with the character that ends it. -/
theorem groupEnd?_append {trivia : Text} {character : Char} {other : Text}
    (run : Runs [] text []) (complete : Trivia trivia)
    (ends : isCloser character = true ∨ isSeparator character = true)
    (joins : Joins text (trivia ++ character :: other)) (closer : Char)
    (rest : Text) :
    groupEnd? closer (text ++ (trivia ++ character :: rest)) =
      if character = closer then some rest
      else if isSeparator character then groupEnd? closer rest else none := by
  have found :
      skipTrivia (trivia ++ character :: rest) = .ok (character :: rest) :=
    complete.skipTrivia_eq (beginsToken_of_notGap (notGap_of_ends ends) rest)
  have same : (trivia ++ character :: other).head? =
      (trivia ++ character :: rest).head? := by
    cases trivia <;> rfl
  rw [groupEnd?_eq,
    run.flatEnd?_of_stops (joins.congr same) (.inr ⟨_, _, found, ends⟩)]
  simp [found]

theorem append
    (first : Runs before left between) (second : Runs between right behind)
    (joins : Joins left right) : Runs before (left ++ right) behind := by
  induction first with
  | nil => exact second
  | @cons before middle between trivia token others complete step next run
      induction =>
      obtain ⟨tokenJoins, joins⟩ := next.of_append joins step.ne_nil
      rw [List.append_assoc, List.append_assoc]
      exact .cons complete step tokenJoins (induction second joins)

theorem weaken (run : Runs before text behind) (outer : List Char) :
    Runs (before ++ outer) text (behind ++ outer) := by
  induction run with
  | nil => exact .nil
  | cons complete step next run induction =>
      refine .cons complete ?_ next induction
      cases step with
      | opener opens => exact .opener opens
      | closer closes => exact .closer closes
      | separator separates open' =>
          exact .separator separates (by simp [open'])
      | string quotes closes => exact .string quotes closes
      | template closes => exact .template closes
      | plain stands => exact .plain stands

theorem single {trivia token : Text} (complete : Trivia trivia)
    (step : Token before token behind) :
    Runs before (trivia ++ token) behind := by
  have run : Runs before (trivia ++ (token ++ [])) behind :=
    .cons complete step Joins.nil_right .nil
  rwa [List.append_nil] at run

theorem trivia_append {trivia : Text} (complete : Trivia trivia)
    (run : Runs before text behind) (more : text ≠ []) :
    Runs before (trivia ++ text) behind := by
  cases run with
  | nil => contradiction
  | cons inner step next run =>
      rw [← List.append_assoc]
      exact .cons (complete.append inner) step next run

theorem exists_getLast? (run : Runs before text behind) (more : text ≠ []) :
    ∃ last, text.getLast? = some last ∧ isGap last = false := by
  induction run with
  | nil => contradiction
  | @cons before between behind trivia token others complete step next run
      induction =>
      cases others with
      | nil =>
          obtain ⟨-, last, -, ends, -, notGap⟩ := step.exists_ends
          refine ⟨last, ?_, notGap⟩
          rw [List.append_nil,
            List.getLast?_append_of_ne_nil _ step.ne_nil, ends]
      | cons character others =>
          obtain ⟨last, ends, notGap⟩ := induction (List.cons_ne_nil _ _)
          refine ⟨last, ?_, notGap⟩
          rw [← List.append_assoc,
            List.getLast?_append_of_ne_nil _ (List.cons_ne_nil _ _), ends]

theorem last_not_gap (run : Runs before text behind) :
    ∀ last ∈ text.getLast?, isGap last = false := by
  intro last ends
  have more : text ≠ [] := by
    rintro rfl
    simp at ends
  obtain ⟨other, ends', notGap⟩ := run.exists_getLast? more
  rw [ends', Option.mem_some_iff] at ends
  rwa [← ends]

end Runs

private theorem skipStringBody_split {mark : Char}
    (quotes : isQuotationMark mark = true) {opener text rest : Text}
    (found : skipStringBody opener mark text = .ok rest) :
    ∃ body, text = body ++ mark :: rest ∧
      ∀ opener rest,
        skipStringBody opener mark (body ++ mark :: rest) = .ok rest := by
  fun_induction skipStringBody opener mark text with
  | case1 => contradiction
  | case2 => contradiction
  | case3 => contradiction
  | case4 character others induction =>
      obtain ⟨body, rfl, closes⟩ := induction found
      refine ⟨'\\' :: character :: body, rfl, fun opener rest => ?_⟩
      simpa [skipStringBody] using closes opener rest
  | case5 others =>
      cases found
      refine ⟨[], rfl, fun opener rest => ?_⟩
      rcases mem_of_isQuotationMark quotes with rfl | rfl <;>
        simp [skipStringBody]
  | case6 character others notBreak notLast notEscape different induction =>
      obtain ⟨body, rfl, closes⟩ := induction found
      refine ⟨character :: body, rfl, fun opener rest => ?_⟩
      have notBackslash : character ≠ '\\' := by
        rintro rfl
        cases body with
        | nil => exact notEscape _ _ rfl rfl
        | cons next others => exact notEscape _ _ rfl rfl
      rw [List.cons_append, skipStringBody]
      · rw [if_neg different]
        exact closes opener rest
      · exact notBreak
      · intro same
        exact absurd same notBackslash
      · intro _ _ same
        exact absurd same notBackslash

theorem skipString_eq_ok {mark : Char} {text rest : Text}
    (found : skipString (mark :: text) = .ok rest) :
    isQuotationMark mark = true ∧
      ∃ body, text = body ++ mark :: rest ∧ ClosesString mark body := by
  rw [skipString] at found
  split at found
  · next quotes =>
      obtain ⟨body, split, closes⟩ := skipStringBody_split quotes found
      refine ⟨quotes, body, split, fun rest => ?_⟩
      rw [skipString, if_pos quotes]
      exact closes _ rest
  · contradiction

/-- A walk that passes one token and then a run stops where the run does. -/
private theorem passed_cons
    {closers between : List Char} {trivia token after rest : Text}
    (complete : Trivia trivia) (begins : BeginsToken (token ++ after))
    (step : Token closers token between)
    (passed : ∃ run,
      after = run ++ rest ∧ Runs between run [] ∧ Joins run rest ∧
      Stops rest) :
    ∃ run, trivia ++ (token ++ after) = run ++ rest ∧ Runs closers run [] ∧
      Joins run rest ∧ Stops rest := by
  obtain ⟨run, rfl, runs, joins, stops⟩ := passed
  have tokenJoins : Joins token (run ++ rest) := by
    intro slash
    have same := step.eq_slash (.inr slash)
    subst same
    exact begins.after_slash
  cases run with
  | nil =>
      refine ⟨trivia ++ token,
        by simp, ?_, tokenJoins.append_left step.ne_nil, stops⟩
      rw [← runs.eq_of_nil]
      exact .single complete step
  | cons character others =>
      refine ⟨trivia ++ (token ++ character :: others), by simp, ?_, ?_, stops⟩
      · refine .cons complete step ?_ runs
        exact tokenJoins.congr rfl
      · rw [← List.append_assoc]
        exact joins.append_left (List.cons_ne_nil _ _)

/-- The ways in which a walk over an expression gets to its end: it is there, or
it goes on behind the next token. -/
private inductive FlatStep : List Char → Text → Text → Prop where
  | stop {text : Text} : Stops text → FlatStep [] text text
  | token {closers between : List Char} {text token after rest : Text} :
      skipTrivia text = .ok (token ++ after) → Token closers token between →
      flatEnd? between after = some rest → FlatStep closers text rest
  | template {closers : List Char} {text after behind rest : Text} :
      skipTrivia text = .ok ('\x60' :: after) →
      templateEnd? after = some behind →
      flatEnd? closers behind = some rest → FlatStep closers text rest

private theorem flatStep_of_flatEnd? {closers : List Char} {text rest : Text}
    (walked : flatEnd? closers text = some rest) :
    FlatStep closers text rest := by
  rw [flatEnd?_eq] at walked
  split at walked
  · contradiction
  · next ended =>
      split at walked
      · next empty =>
          cases walked
          exact empty ▸ .stop (.inl ended)
      · contradiction
  next character after found =>
  have step {token behind : Text} {between : List Char}
      (split : character :: after = token ++ behind) :
      Token closers token between → flatEnd? between behind = some rest →
        FlatStep closers text rest := .token (split ▸ found)
  split at walked
  · next closer opens => exact step rfl (.opener opens) walked
  next notOpener =>
  by_cases closes : isCloser character = true
  · rw [if_pos closes] at walked
    cases closers with
    | nil =>
        cases walked
        exact .stop (.inr ⟨character, after, found, .inl closes⟩)
    | cons closer others =>
        obtain ⟨rfl, further⟩ := Option.ite_none_right_eq_some.1 walked
        exact step rfl (.closer closes) further
  rw [if_neg closes] at walked
  by_cases ends : isSeparator character = true ∧ closers = []
  · rw [if_pos ends] at walked
    obtain ⟨separates, rfl⟩ := ends
    cases walked
    exact .stop (.inr ⟨character, after, found, .inr separates⟩)
  rw [if_neg ends] at walked
  by_cases quotes : isQuotationMark character = true
  · rw [if_pos quotes] at walked
    obtain ⟨behind, ended, further⟩ := Option.bind_eq_some_iff.1 walked
    obtain ⟨-, body, rfl, closes⟩ := skipString_eq_ok (eq_ok_of_toOption ended)
    have split : character :: (body ++ character :: behind) =
        character :: (body ++ [character]) ++ behind := by simp
    exact step split (.string quotes closes) further
  rw [if_neg quotes] at walked
  by_cases mark : character = '\x60'
  · rw [if_pos mark] at walked
    obtain ⟨behind, ended, further⟩ := Option.bind_eq_some_iff.1 walked
    exact .template (mark ▸ found) ended further
  rw [if_neg mark] at walked
  by_cases separates : isSeparator character = true
  · exact step rfl (.separator separates fun empty => ends ⟨separates, empty⟩)
      walked
  · have notGap := (beginsToken_of_skipTrivia found).not_gap
    exact step rfl (.plain (by simp_all [isPlain])) walked

/-- What the three walks have passed of a text, whatever follows it. -/
private structure WalksSplit (text : Text) : Prop where
  template : ∀ {rest}, templateEnd? text = some rest →
    ∃ body, text = body ++ '\x60' :: rest ∧ ClosesTemplate body
  group : ∀ {closer rest}, groupEnd? closer text = some rest →
    ∃ body, text = body ++ closer :: rest ∧ ClosesGroup closer body
  flat : ∀ {closers rest}, flatEnd? closers text = some rest →
    ∃ run, text = run ++ rest ∧ Runs closers run [] ∧ Joins run rest ∧
      Stops rest

section WalksSplit

variable {text rest : Text}
  (shorter : ∀ other : Text, other.length < text.length → WalksSplit other)

include shorter

private theorem exists_closesTemplate (walked : templateEnd? text = some rest) :
    ∃ body, text = body ++ '\x60' :: rest ∧ ClosesTemplate body := by
  cases templateEnd?_eq_some_iff.1 walked with
  | mark => exact ⟨[], rfl, fun _ => templateEnd?_eq_some_iff.2 .mark⟩
  | @escape escaped others further =>
      obtain ⟨body, rfl, closes⟩ :=
        (shorter others (by simp only [List.length_cons]; omega)).template
          further
      exact ⟨'\\' :: escaped :: body, rfl,
        fun rest => templateEnd?_eq_some_iff.2 (.escape (closes rest))⟩
  | @substitution inner behind ended further =>
      obtain ⟨inside, rfl, closesGroup⟩ :=
        (shorter inner (by simp only [List.length_cons]; omega)).group ended
      obtain ⟨body, rfl, closes⟩ := (shorter behind (by
        simp only [List.length_cons, List.length_append]
        omega)).template further
      refine ⟨'$' :: '{' :: (inside ++ '}' :: body), by simp, fun rest => ?_⟩
      have passed := templateEnd?_eq_some_iff.2
        (.substitution (closesGroup (body ++ '\x60' :: rest)) (closes rest))
      simpa using passed
  | @other character others notBackslash notMark notSubstitution further =>
      obtain ⟨body, rfl, closes⟩ :=
        (shorter others (by simp only [List.length_cons]; omega)).template
          further
      refine ⟨character :: body, rfl,
        fun following => templateEnd?_eq_some_iff.2
          (.other notBackslash notMark (fun dollar => ?_) (closes following))⟩
      -- The next character is the same for every text behind the literal.
      cases body with
      | nil => simp
      | cons next others => exact notSubstitution dollar

private theorem exists_passed
    {closers : List Char} (walked : flatEnd? closers text = some rest) :
    ∃ run, text = run ++ rest ∧ Runs closers run [] ∧ Joins run rest ∧
      Stops rest := by
  cases flatStep_of_flatEnd? walked with
  | stop stops => exact ⟨[], rfl, .nil, .of_getLast? (by simp), stops⟩
  | @token _ between _ token after _ found step further =>
      obtain ⟨trivia, rfl, complete⟩ :=
        exists_trivia_of_skipTrivia found
          (List.append_ne_nil_of_left_ne_nil step.ne_nil after)
      have some := List.length_pos_of_ne_nil step.ne_nil
      have passed :=
        (shorter after (by simp only [List.length_append]; omega)).flat further
      exact passed_cons complete (beginsToken_of_skipTrivia found) step passed
  | @template _ _ after behind _ found ended further =>
      obtain ⟨trivia, rfl, complete⟩ :=
        exists_trivia_of_skipTrivia found (List.cons_ne_nil '\x60' after)
      obtain ⟨body, rfl, closes⟩ := (shorter after (by
        simp only [List.length_append, List.length_cons]
        omega)).template ended
      have passed := (shorter behind (by
        simp only [List.length_append, List.length_cons]
        omega)).flat further
      have step : Token closers ('\x60' :: (body ++ ['\x60'])) closers :=
        .template closes
      have begins : BeginsToken (('\x60' :: (body ++ ['\x60'])) ++ behind) := by
        simpa using beginsToken_of_skipTrivia found
      simpa using passed_cons complete begins step passed

private theorem exists_closesGroup
    {closer : Char} (walked : groupEnd? closer text = some rest) :
    ∃ body, text = body ++ closer :: rest ∧ ClosesGroup closer body := by
  obtain ⟨finish, character, after, ended, found, further⟩ :=
    groupEnd?_eq_some walked
  obtain ⟨run, rfl, runs, joins, stops⟩ := exists_passed shorter ended
  obtain ⟨trivia, rfl, complete⟩ :=
    exists_trivia_of_skipTrivia found (List.cons_ne_nil _ _)
  rcases further with ⟨rfl, rfl⟩ | ⟨different, separates, later⟩
  · refine ⟨run ++ trivia, by simp, fun following => ?_⟩
    rw [List.append_assoc,
      runs.groupEnd?_append complete (stops.ends found) joins, if_pos rfl]
  · obtain ⟨body, rfl, closes⟩ := (shorter after (by
      simp only [List.length_append, List.length_cons]
      omega)).group later
    refine ⟨run ++ (trivia ++ character :: body), by simp, fun following => ?_⟩
    rw [List.append_assoc, List.append_assoc, List.cons_append,
      runs.groupEnd?_append complete (stops.ends found) joins, if_neg different,
      if_pos separates]
    exact closes following

end WalksSplit

private theorem walksSplit (text : Text) : WalksSplit text := by
  have shorter :
      ∀ other : Text, other.length < text.length → WalksSplit other :=
    fun other _ => walksSplit other
  exact ⟨exists_closesTemplate shorter, exists_closesGroup shorter,
    exists_passed shorter⟩
termination_by text.length

theorem templateEnd?_eq_some
    {text rest : Text} (walked : templateEnd? text = some rest) :
    ∃ body, text = body ++ '\x60' :: rest ∧ ClosesTemplate body :=
  (walksSplit text).template walked

theorem exists_closesGroup_of_groupEnd? {closer : Char} {text rest : Text}
    (walked : groupEnd? closer text = some rest) :
    ∃ body, text = body ++ closer :: rest ∧ ClosesGroup closer body :=
  (walksSplit text).group walked

theorem flatEnd?_eq_some {closers : List Char} {text rest : Text}
    (walked : flatEnd? closers text = some rest) :
    ∃ run, text = run ++ rest ∧ Runs closers run [] ∧ Joins run rest ∧
      Stops rest :=
  (walksSplit text).flat walked

end ConfigEdit
