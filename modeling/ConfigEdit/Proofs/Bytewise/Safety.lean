import ConfigEdit.Proofs.Bytewise.Documents
import ConfigEdit.Proofs.Document.Sites

/-!
# Reading is safe

The walks over a document, over an expression and over an argument list end on
every text, with a result or with an error.  None of them leaves the text, cuts
a character or takes from an empty count, and an error is reported at a boundary
between characters.
-/

namespace ConfigEdit

/-- A walk over the bytes of a text that always ends, as the reader of the text
does, and never in a defect. -/
structure ReadsSafely (text : Text) {result : Type} (walk : Walk result)
    (outcome : Except SyntaxError result) : Prop where
  ends : walk.run = some (outcome.mapError Halt.refused)
  withinText : ∀ error, outcome = .error error → error.offset ≤ text.utf8Size
  atBoundary : ∀ error, outcome = .error error → text.IsBoundary error.offset

namespace Walk

open Tape

variable {text : Text} {found result : Type}

/-- A fault is reported at the offset of its place. -/
theorem offset_located (fault : Fault) :
    (fault.located text).offset = text.offsetOf fault.site :=
  Nat.min_eq_left (offsetOf_le text fault.site)

/-- A walk that ends as a reader does whose faults lie in the text. -/
theorem readsSafely_of_eq {walk : Walk result} {offsets : found → result}
    {outcome : Except Fault found} (same : walk = ofScan text offsets outcome)
    (sited : Sited text outcome) :
    ReadsSafely text walk
      ((outcome.mapError (Fault.located text)).map offsets) := by
  subst same
  cases outcome with
  | ok value => exact ⟨rfl, nofun, nofun⟩
  | error fault =>
      have offset := @offset_located text fault
      refine ⟨rfl, ?_, ?_⟩
      · rintro _ ⟨⟩
        exact offset ▸ offsetOf_le text fault.site
      · rintro _ ⟨⟩
        exact ⟨fault.site, sited fault rfl, offset.symm⟩

theorem document_eq (text : Text) :
    document text = ofScan text id (Document.parseFault text) := by
  have whole := List.suffix_refl text
  have point : PointBefore text false text := by
    intro _ _ _
    simp [Text.upTo]
  have read := segments_eq 0 whole whole point
  rw [offsetOf_self] at read
  rw [document, read, Document.parseFault]
  cases parseSegments text 0 false text <;> rfl

theorem wholeExpression_eq (text : Text) :
    wholeExpression text = ofScan text id (Expr.parseFault text) := by
  have began := trivia_eq (List.suffix_refl text)
  rw [offsetOf_self] at began
  rw [wholeExpression, began, Expr.parseFault.eq_def]
  split
  · next fault found =>
      rw [found]
      rfl
  · next found =>
      simp only [found, ofScan_ok, pure_bind, offsetOf_nil]
      rw [if_pos (Nat.le_refl _), ofScan_error]
      simp only [Fault.here, offsetOf_self]
  · next start more found =>
      obtain ⟨first, others, rfl⟩ := List.exists_cons_of_ne_nil more
      have inside : first :: others <:+ text := skipTrivia_suffix found
      have here : ¬text.utf8Size ≤ text.offsetOf (first :: others) :=
        Nat.not_le_of_lt (offsetOf_lt inside)
      simp only [found, ofScan_ok, pure_bind, if_neg here, value_eq true inside]
      cases parseValue true (first :: others) with
      | error fault => rfl
      | ok parsed =>
          obtain ⟨value, finish⟩ := parsed
          have ended : finish.1 <:+ text := finish.2.trans inside
          simp only [ofScan_ok, pure_bind, placed, trivia_eq ended]
          split
          · next fault found =>
              rw [found]
              rfl
          · next found =>
              simp only [found, ofScan_ok, pure_bind, offsetOf_nil]
              exact if_pos (Nat.le_refl _)
          · next rest more found =>
              obtain ⟨next, behind, rfl⟩ := List.exists_cons_of_ne_nil more
              have reached : next :: behind <:+ text :=
                (skipTrivia_suffix found).trans ended
              simp only [found, ofScan_ok, pure_bind]
              exact if_neg (Nat.not_le_of_lt (offsetOf_lt reached))

theorem arguments_zero_eq (text : Text) :
    arguments text 0 =
      ofScan text (List.map Span.offsets) (splitArguments text) := by
  have read := arguments_eq (List.suffix_refl text)
  rwa [offsetOf_self] at read

end Walk

open Walk Walk.Tape in
/-- Over the bytes of every text the readers of documents, of expressions and of
argument lists end with what is read or with an error, never leave the text,
never cut a character and never take from an empty count; and an error lies
between two characters of the text. -/
theorem reading_safe (text : Text) :
    ReadsSafely text (document text) (Document.parse text) ∧
      ReadsSafely text (wholeExpression text) (Expr.parse text) ∧
      ReadsSafely text (arguments text 0)
        (((splitArguments text).mapError (Fault.located text)).map
          (List.map Span.offsets)) := by
  refine ⟨?_, ?_, ?_⟩
  · simpa only [Except.map_id, id, Document.parse] using
      readsSafely_of_eq (document_eq text) (parseDocument_sited text)
  · simpa only [Except.map_id, id, Expr.parse] using
      readsSafely_of_eq (wholeExpression_eq text) (parseExpression_sited text)
  · exact readsSafely_of_eq (arguments_zero_eq text) (splitArguments_sited text)

end ConfigEdit
