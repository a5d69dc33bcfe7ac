import ConfigEdit.Proofs.Document.Lossless
import ConfigEdit.Proofs.Outcome

/-!
# What stands in front of the exports

The walk over a document counts its open brackets and nothing more, while a
group is passed by a walk that knows which bracket closes which.  In brackets
the two pass the same tokens (`parseSegments_of_runs`), so the walk over a
document passes a group whole and comes out of it with the brackets that were
open before.  The same holds of trivia, strings and template literals, whatever
is in them: in front of a text they neither hide a default export nor add one.
-/

namespace ConfigEdit

/-- The default exports of a document. -/
def Document.exports (document : Document) : List DefaultExport :=
  document.segments.filterMap fun
    | .defaultExport value => some value
    | .text _ => none

/-- A text that is passed to its end as trivia, or as one token or group.  That
a template literal begins with its mark, `skipTemplate` takes for granted. -/
inductive PassedWhole : Text → Prop where
  | trivia {text : Text} : skipTrivia text = .ok [] → PassedWhole text
  | string {text : Text} : skipString text = .ok [] → PassedWhole text
  | template {rest : Text} :
      skipTemplate ('\x60' :: rest) = .ok [] → PassedWhole ('\x60' :: rest)
  | group {text : Text} : skipGroup text = .ok [] → PassedWhole text

section Walk

variable {start text rest : Text} {depth : Nat}

/-- In brackets, it does not matter whether a point stands in front. -/
theorem parseSegments_point (inside : depth ≠ 0) (point : Bool) :
    parseSegments start depth point text =
      parseSegments start depth false text := by
  cases found : skipTrivia text with
  | error fault => rw [parseSegments_error found, parseSegments_error found]
  | ok token =>
      cases token with
      | nil => rw [parseSegments_ended found, parseSegments_ended found]
      | cons character others =>
          rw [parseSegments_token found, parseSegments_token found]
          simp [inside]

/-- Only what follows the trivia at its beginning matters of a text. -/
theorem parseSegments_congr
    {other : Text} (same : skipTrivia text = skipTrivia other) :
    parseSegments start depth false text =
      parseSegments start depth false other := by
  cases found : skipTrivia other with
  | error fault =>
      rw [parseSegments_error found, parseSegments_error (same.trans found)]
  | ok token =>
      cases token with
      | nil =>
          rw [parseSegments_ended found, parseSegments_ended (same.trans found)]
      | cons character others =>
          rw [parseSegments_token found, parseSegments_token (same.trans found)]
          simp

theorem parseSegments_dropWhile (inside : depth ≠ 0) (text : Text) :
    parseSegments start depth false (text.dropWhile isIdentifierPart) =
      parseSegments start depth false text := by
  induction text with
  | nil => rfl
  | cons character others induction =>
      rw [List.dropWhile_cons]
      split
      · next part =>
          obtain ⟨plain, notSlash⟩ := isPlain_of_part part
          simp only [isPlain, Bool.and_eq_true, Option.isNone_iff_eq_none,
            Bool.not_eq_true', decide_eq_true_eq] at plain
          obtain ⟨⟨⟨⟨⟨notGap, notOpener⟩, notCloser⟩, -⟩, notQuotes⟩,
            notTemplate⟩ := plain
          rw [parseSegments_token (skipTrivia_token notGap notSlash others)]
          simp only [notQuotes, notTemplate, notOpener, notCloser,
            Bool.false_eq_true, if_false, Option.isSome_none, ne_eq, inside,
            not_false_eq_true, decide_true, Bool.true_or, if_true,
            parseSegments_point inside (decide (character = '.'))]
          split
          · rfl
          · exact induction
      · rfl

theorem parseSegments_plain
    (inside : depth ≠ 0) {trivia : Text} {character : Char}
    (complete : Trivia trivia) (begins : BeginsToken (character :: rest))
    (notQuotes : isQuotationMark character = false)
    (notTemplate : character ≠ '\x60') (notOpener : closerOf? character = none)
    (notCloser : isCloser character = false) :
    parseSegments start depth false (trivia ++ character :: rest) =
      parseSegments start depth false rest := by
  cases starts : isIdentifierStart character with
  | false =>
      rw [parseSegments_of_step (.other complete begins notQuotes notTemplate
        notOpener notCloser starts), parseSegments_point inside]
  | true =>
      rw [parseSegments_token (complete.skipTrivia_eq begins),
        ← parseSegments_dropWhile inside rest]
      simp [notQuotes, notTemplate, notOpener, notCloser, starts, inside]

/-- In brackets, the walk over a document passes a token as the walk over an
expression does. -/
theorem parseSegments_of_token {before behind : List Char} {trivia token : Text}
    (complete : Trivia trivia) (step : Token before token behind)
    (joins : Joins token rest) :
    parseSegments start (before.length + (depth + 1)) false
      (trivia ++ (token ++ rest)) =
      parseSegments start (behind.length + (depth + 1)) false rest := by
  have begins := step.beginsToken joins
  cases step with
  | @opener _ character closer opens =>
      rw [List.singleton_append, parseSegments_of_step (.opener complete opens),
        List.length_cons, Nat.add_right_comm]
  | @closer _ character closes =>
      rw [List.singleton_append, List.length_cons, Nat.add_right_comm,
        parseSegments_of_step (.closer complete closes)]
  | @separator _ character separates _ =>
      refine parseSegments_plain (by omega) complete begins ?_ ?_ ?_ ?_
      all_goals rcases mem_of_isSeparator separates with rfl | rfl <;> decide
  | @string _ mark body quotes closes =>
      have shape : mark :: (body ++ [mark]) ++ rest =
          mark :: (body ++ mark :: rest) := by simp
      rw [shape, parseSegments_of_step (.string complete quotes closes)]
  | @template _ body closes =>
      have shape : '\x60' :: (body ++ ['\x60']) ++ rest =
          '\x60' :: (body ++ '\x60' :: rest) := by
        simp
      rw [shape, parseSegments_of_step (.template complete closes)]
  | @plain _ character stands =>
      simp only [isPlain, Bool.and_eq_true, Option.isNone_iff_eq_none,
        Bool.not_eq_true', decide_eq_true_eq] at stands
      exact parseSegments_plain (by omega) complete begins stands.1.2 stands.2
        stands.1.1.1.1.2 stands.1.1.1.2

theorem parseSegments_of_runs {before behind : List Char} {run : Text}
    (runs : Runs before run behind) (joins : Joins run rest) :
    parseSegments start (before.length + (depth + 1)) false (run ++ rest) =
      parseSegments start (behind.length + (depth + 1)) false rest := by
  induction runs with
  | nil => rfl
  | @cons before between behind trivia token others complete step next runs
        induction =>
      obtain ⟨tokenJoins, joins⟩ := next.of_append joins step.ne_nil
      rw [List.append_assoc, List.append_assoc,
        parseSegments_of_token complete step tokenJoins]
      exact induction joins

end Walk

/-- The walk over a document comes out of a group with the brackets that are
open around it. -/
theorem parseSegments_of_groupEnd? {start text rest : Text} {depth : Nat}
    {closer : Char} (closes : isCloser closer = true)
    (walked : groupEnd? closer text = some rest) :
    parseSegments start (depth + 1) false text =
      parseSegments start depth false rest := by
  obtain ⟨finish, character, after, ended, found, further⟩ :=
    groupEnd?_eq_some walked
  obtain ⟨run, rfl, runs, joins, -⟩ := flatEnd?_eq_some ended
  obtain ⟨trivia, rfl, complete⟩ :=
    exists_trivia_of_skipTrivia found (List.cons_ne_nil _ _)
  have passed :=
    @parseSegments_of_runs start (trivia ++ character :: after) depth []
      [] run runs joins
  simp only [List.length_nil, Nat.zero_add] at passed
  rw [passed]
  rcases further with ⟨rfl, rfl⟩ | ⟨-, separates, walked⟩
  · exact parseSegments_of_step (.closer complete closes)
  · have item :
        parseSegments start (depth + 1) false (trivia ++ character :: after) =
          parseSegments start (depth + 1) false after := by
      refine parseSegments_plain (by omega) complete
        (beginsToken_of_skipTrivia found) ?_ ?_ ?_ ?_
      all_goals rcases mem_of_isSeparator separates with rfl | rfl <;> decide
    rw [item]
    exact parseSegments_of_groupEnd? closes walked
termination_by text.length
decreasing_by subst_vars; simp; omega

/-- What is passed whole leaves the walk over a document where it was, as long
as a line feed ends it. -/
theorem parseSegments_of_passedWhole
    {before : Text} (passed : PassedWhole before) (start text : Text) :
    parseSegments start 0 false (before ++ '\n' :: text) =
      parseSegments start 0 false text := by
  have feed : parseSegments start 0 false ('\n' :: text) =
      parseSegments start 0 false text :=
    parseSegments_congr (skipTrivia_gap rfl text)
  cases passed with
  | trivia ended =>
      have complete := Trivia.of_ended ended text
      rw [List.append_assoc, List.singleton_append] at complete
      exact parseSegments_congr complete
  | string ended =>
      cases before with
      | nil => simp [skipString] at ended
      | cons mark rest =>
          obtain ⟨quotes, body, rfl, closes⟩ := skipString_eq_ok ended
          have step : SegmentStep 0 false
              (mark :: (body ++ mark :: '\n' :: text)) 0 false
              ('\n' :: text) := .string Trivia.nil quotes closes
          rw [← feed, ← parseSegments_of_step step]
          simp
  | @template rest ended =>
      obtain ⟨body, rfl, closes⟩ :=
        templateEnd?_eq_some (skipTemplate_eq_ok.1 ended)
      have step : SegmentStep 0 false
          ('\x60' :: (body ++ '\x60' :: '\n' :: text)) 0 false
          ('\n' :: text) := .template Trivia.nil closes
      rw [← feed, ← parseSegments_of_step step]
      simp
  | group ended =>
      cases before with
      | nil => simp [skipGroup, Fault.here] at ended
      | cons opener inner =>
          cases opens : closerOf? opener with
          | none => simp [skipGroup, opens] at ended
          | some closer =>
              obtain ⟨body, rfl, closes⟩ :=
                exists_closesGroup_of_groupEnd?
                  ((skipGroup_eq_ok opens).1 ended)
              have closing : isCloser closer = true := by
                rcases mem_of_closerOf? opens with
                  ⟨-, rfl⟩ | ⟨-, rfl⟩ | ⟨-, rfl⟩ <;> rfl
              have step : SegmentStep 0 false
                  (opener :: (body ++ closer :: '\n' :: text)) 1 false
                  (body ++ closer :: '\n' :: text) := .opener Trivia.nil opens
              have inside :=
                @parseSegments_of_groupEnd? start _ _ 0 closer closing
                  (closes ('\n' :: text))
              rw [← feed, ← inside, ← parseSegments_of_step step]
              simp

theorem exports_textThen (text : Text) (others : List Segment) :
    (Document.mk (Segment.textThen text others)).exports =
      (Document.mk others).exports := by
  cases text <;> rfl

/-- The exports do not depend on where the text in front of the first of them
begins. -/
theorem exists_exports_eq {start text : Text} {depth : Nat} {afterPoint : Bool}
    {segments : List Segment}
    (found : parseSegments start depth afterPoint text = .ok segments)
    (other : Text) :
    ∃ others, parseSegments other depth afterPoint text = .ok others ∧
      (Document.mk others).exports = (Document.mk segments).exports := by
  rcases parseSegments_cases found with ⟨rfl, ended, rfl⟩ |
    ⟨later, point, next, step, shorter, found⟩ |
    ⟨rfl, front, expression, value, finish, after, head, read, further, rfl⟩
  · refine ⟨_, parseSegments_ended ended, ?_⟩
    rw [exports_textThen, exports_textThen]
  · rw [parseSegments_of_step step]
    exact exists_exports_eq found other
  · refine ⟨_, parseSegments_of_export head read further, ?_⟩
    rw [exports_textThen, exports_textThen]
termination_by text.length

/-- Trivia, a string, a template literal or a group in front of a text, on lines
of its own, changes neither whether the text is read as a document nor its
default exports. -/
theorem Document.exports_behind
    {before : Text} (passed : PassedWhole before) (text : Text) :
    ((∃ document, Document.parse (before ++ '\n' :: text) = .ok document) ↔
      ∃ document, Document.parse text = .ok document) ∧
    ∀ whole document, Document.parse (before ++ '\n' :: text) = .ok whole →
      Document.parse text = .ok document →
      whole.exports = document.exports := by
  have walk (start : Text) := parseSegments_of_passedWhole passed start text
  refine ⟨⟨?_, ?_⟩, ?_⟩
  · rintro ⟨⟨segments⟩, found⟩
    rw [parse_eq_ok, walk] at found
    obtain ⟨others, found, -⟩ := exists_exports_eq found text
    exact ⟨⟨others⟩, parse_eq_ok.2 found⟩
  · rintro ⟨⟨segments⟩, found⟩
    rw [parse_eq_ok] at found
    obtain ⟨others, found, -⟩ :=
      exists_exports_eq found (before ++ '\n' :: text)
    rw [← walk] at found
    exact ⟨⟨others⟩, parse_eq_ok.2 found⟩
  · rintro ⟨segments⟩ ⟨others⟩ found found'
    rw [parse_eq_ok, walk] at found
    rw [parse_eq_ok] at found'
    obtain ⟨same, again, equal⟩ := exists_exports_eq found text
    rw [found', Except.ok.injEq] at again
    rw [again, equal]

/-- The words of an export in a string, in a comment and in a substitution
export nothing. -/
theorem Document.exports_behind_hidden :
    PassedWhole
      "\x7b ')'; `export default $\x7bx /* \x7d */\x7d`; export default 1 \x7d".toList ∧
    ∃ whole document,
      Document.parse
        ("\x7b ')'; `export default $\x7bx /* \x7d */\x7d`; export default 1 \x7d".toList ++
              '\n' :: "export default f(\x7b a: 1 \x7d)".toList) = .ok whole ∧
      Document.parse "export default f(\x7b a: 1 \x7d)".toList = .ok document ∧
      whole.exports = document.exports := by
  have passed : PassedWhole
      "\x7b ')'; `export default $\x7bx /* \x7d */\x7d`; export default 1 \x7d".toList :=
    .group (by decide +kernel)
  obtain ⟨found, same⟩ :=
    exports_behind passed "export default f(\x7b a: 1 \x7d)".toList
  obtain ⟨document, parsed⟩ : ∃ document,
      Document.parse "export default f(\x7b a: 1 \x7d)".toList =
        .ok document :=
    exists_eq_ok (by decide +kernel)
  obtain ⟨whole, read⟩ := found.2 ⟨document, parsed⟩
  exact ⟨passed, whole, document, read, parsed,
    same whole document read parsed⟩

end ConfigEdit
