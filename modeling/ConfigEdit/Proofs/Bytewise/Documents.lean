import ConfigEdit.Proofs.Bytewise.Values
import ConfigEdit.Proofs.Document.Lossless
import ConfigEdit.Proofs.Document.Segments
import ConfigEdit.Proofs.Scan.Boundaries

/-!
# Documents over bytes

The walk over a document ends as the reader of the text does.  The reader of
characters carries a flag for a point right before the place; the walk looks at
the byte in front of the cursor.  The two agree wherever an identifier may begin
(`PointBefore`): what is stepped over as trivia does not end in a point, and nor
does an exported expression that an identifier follows.
-/

namespace ConfigEdit

/-- A token, or trivia in front of it that do not end in a point. -/
def BehindNoPoint (token text : Text) : Prop :=
  text = token ∨ ∃ before last, text = before ++ last :: token ∧ last ≠ '.'

theorem BehindNoPoint.exists_last
    {token next : Text} (ends : BehindNoPoint token next)
    (front : Text) {last : Char} (different : last ≠ '.') :
    ∃ before other,
      front ++ last :: next = before ++ other :: token ∧ other ≠ '.' := by
  rcases ends with rfl | ⟨before, other, rfl, notPoint⟩
  · exact ⟨front, last, rfl, different⟩
  · exact ⟨front ++ last :: before, other, by simp, notPoint⟩

private theorem skip_behindNoPoint {token : Text} (more : token ≠ []) :
    (∀ text, skipTrivia text = .ok token → BehindNoPoint token text) ∧
    (∀ opener text, skipBlockComment opener text = .ok token →
      ∃ before last, text = before ++ last :: token ∧ last ≠ '.') ∧
    ∀ text, skipLineComment text = .ok token →
      ∃ before last, text = before ++ last :: token ∧ last ≠ '.' := by
  refine @skipTrivia.mutual_induct
    (fun text => skipTrivia text = .ok token → BehindNoPoint token text)
    (fun opener text => skipBlockComment opener text = .ok token →
      ∃ before last, text = before ++ last :: token ∧ last ≠ '.')
    (fun text => skipLineComment text = .ok token →
      ∃ before last, text = before ++ last :: token ∧ last ≠ '.')
    ?ended ?line ?block ?gap ?token ?unclosed ?closed ?inBlock ?lineEnded
    ?lineBreak ?inLine
  case ended | lineEnded =>
    rintro ⟨⟩
    contradiction
  case line =>
    intro others induction found
    obtain ⟨before, last, rfl, different⟩ := induction found
    exact .inr ⟨'/' :: '/' :: before, last, rfl, different⟩
  case block =>
    intro others induction found
    obtain ⟨before, last, rfl, different⟩ := induction found
    exact .inr ⟨'/' :: '*' :: before, last, rfl, different⟩
  case gap =>
    intro character others _ _ gap induction found
    rw [skipTrivia_gap gap] at found
    refine .inr ((induction found).exists_last [] ?_)
    rintro rfl
    simp [isGap] at gap
  case token =>
    intro character others notLine notBlock notGap found
    rw [skipTrivia_stays notLine notBlock notGap] at found
    exact .inl (Except.ok.inj found)
  case unclosed => rintro opener ⟨⟩
  case closed =>
    intro opener others induction found
    exact (induction found).exists_last ['*'] (by decide)
  case inBlock =>
    intro opener character others notEnd induction found
    rw [skipBlockComment_other notEnd] at found
    obtain ⟨before, last, rfl, different⟩ := induction found
    exact ⟨character :: before, last, rfl, different⟩
  case lineBreak =>
    intro others induction found
    exact (induction found).exists_last [] (by decide)
  case inLine =>
    intro character others notBreak induction found
    rw [skipLineComment_other notBreak] at found
    obtain ⟨before, last, rfl, different⟩ := induction found
    exact ⟨character :: before, last, rfl, different⟩

/-- Trivia in front of a token end in a gap or with the slash of a block
comment. -/
theorem behindNoPoint_of_skipTrivia
    {text token : Text} (found : skipTrivia text = .ok token)
    (more : token ≠ []) : BehindNoPoint token text :=
  (skip_behindNoPoint more).1 text found

/-- An exported expression that an identifier follows does not end in a
point. -/
theorem ReadsValue.getLast?_ne_point {text rest : Text} {value : Expr}
    (reads : ReadsValue false text value rest) {first : Char}
    (head : rest.head? = some first) (starts : isIdentifierStart first = true) :
    value.source.getLast? ≠ some '.' := by
  -- An expression that is passed as a run stops in front of no identifier.
  have noRun (stops : Stops rest) : False := by
    have part := (isBoundary_cases (stops.beginsAtBoundary first head)).1
    simp [isIdentifierPart, starts] at part
  cases reads with
  | verbatim _ isRun => exact (noRun isRun.stops).elim
  | node reads _ =>
      cases reads with
      | object reads =>
          rw [Expr.source_object]
          simp [List.getLast?_append, List.getLast?_cons]
      | @string mark body rest quotes closes =>
          rcases mem_of_isQuotationMark quotes with rfl | rfl <;>
            simp [Expr.source, List.getLast?_cons]
      | number numeral isRun => exact (noRun isRun.stops).elim
      | @boolean value rest ends =>
          cases value <;> simp [Expr.source, truthWord]
      | call =>
          rw [Expr.source_call]; simp [List.getLast?_append, List.getLast?_cons]

namespace Walk

open Tape

variable {text rest : Text} {character : Char}

theorem two_le_utf8Size (beyond : 128 ≤ character.toNat) :
    2 ≤ character.utf8Size := by
  have code : character.val.toNat = character.toNat := rfl
  rw [← String.length_utf8EncodeChar]
  simp only [String.utf8EncodeChar, code]
  split
  · omega
  · split
    · simp
    · split <;> simp

theorem behindPoint_eq (inside : rest <:+ text) :
    behindPoint text (text.offsetOf rest) =
      return decide ((text.upTo rest).getLast? = some '.') := by
  obtain ⟨before, rfl⟩ := inside
  rw [behindPoint, upTo_append]
  rcases List.eq_nil_or_concat before with rfl | ⟨others, last, rfl⟩
  · simp [offsetOf_self]
  rw [List.concat_eq_append, List.append_assoc, List.singleton_append,
    List.getLast?_concat]
  have inside : last :: rest <:+ others ++ last :: rest :=
    List.suffix_append _ _
  have size := offsetOf_cons inside
  have more := last.utf8Size_pos
  rw [if_pos (by omega), byteAt]
  by_cases ascii : last.toNat < 128
  · have before : Text.offsetOf (others ++ last :: rest) rest - 1 =
        Text.offsetOf (others ++ last :: rest) (last :: rest) := by
      rw [size, utf8Size_of_ascii ascii, Nat.add_sub_cancel]
    rw [before, peek_offsetOf_cons inside, leadByte_of_ascii ascii]
    simp
  · have beyond : 128 ≤ last.toNat := Nat.le_of_not_lt ascii
    have two := two_le_utf8Size beyond
    obtain ⟨byte, found, outside⟩ := exists_peek_inside inside
      (last.utf8Size - 1) (by omega) (by omega)
    have before : Text.offsetOf (others ++ last :: rest) rest - 1 =
        Text.offsetOf (others ++ last :: rest) (last :: rest) +
          (last.utf8Size - 1) := by omega
    rw [before, found]
    simp [ne_of_beyond '.' (by decide) outside,
      ne_of_beyond '.' (by decide) beyond]

/-- The flag of the reader says whether a point stands in front of the place, if
an identifier may begin there. -/
def PointBefore (text : Text) (afterPoint : Bool) (rest : Text) : Prop :=
  ∀ first ∈ rest.head?, isIdentifierStart first = true →
    afterPoint = decide ((text.upTo rest).getLast? = some '.')

theorem upTo_cons (inside : character :: rest <:+ text) :
    text.upTo rest = text.upTo (character :: rest) ++ [character] := by
  obtain ⟨before, rfl⟩ := inside
  rw [upTo_append]
  exact upTo_of_eq_append (by simp)

theorem PointBefore.of_character (inside : character :: rest <:+ text) :
    PointBefore text (decide (character = '.')) rest := by
  intro first _ _
  rw [upTo_cons inside, List.getLast?_concat]
  simp

theorem PointBefore.of_different (inside : character :: rest <:+ text)
    (different : character ≠ '.') : PointBefore text false rest := by
  simpa [different] using PointBefore.of_character inside

theorem PointBefore.of_string (inside : character :: rest <:+ text)
    {after : Text} (quotes : isQuotationMark character = true)
    (ended : skipString (character :: rest) = .ok after) :
    PointBefore text false after := by
  obtain ⟨-, body, split, -⟩ := skipString_eq_ok ended
  have marked : character :: after <:+ rest := ⟨body, split.symm⟩
  refine .of_different (marked.trans ((List.suffix_cons _ _).trans inside)) ?_
  rintro rfl
  simp [isQuotationMark] at quotes

theorem PointBefore.of_template
    (inside : '\x60' :: rest <:+ text) {after : Place rest}
    (ended : skipTemplateBody ('\x60' :: rest) (.start rest) = .ok after) :
    PointBefore text false after.1 := by
  have walked := skipTemplateBody_toOption ('\x60' :: rest) (.start rest)
  rw [ended] at walked
  obtain ⟨body, split, -⟩ := templateEnd?_eq_some walked.symm
  have marked : '\x60' :: after.1 <:+ rest := ⟨body, split.symm⟩
  exact .of_different (marked.trans ((List.suffix_cons _ _).trans inside))
    (by decide)

theorem PointBefore.of_opener (inside : character :: rest <:+ text)
    (opens : (closerOf? character).isSome = true) :
    PointBefore text false rest := by
  refine .of_different inside ?_
  rintro rfl
  simp [closerOf?] at opens

theorem PointBefore.of_closer (inside : character :: rest <:+ text)
    (closes : isCloser character = true) : PointBefore text false rest := by
  refine .of_different inside ?_
  rintro rfl
  simp [isCloser] at closes

theorem PointBefore.of_append {before : Text} (inside : before ++ rest <:+ text)
    (more : before ≠ []) (different : before.getLast? ≠ some '.') :
    PointBefore text false rest := by
  obtain ⟨others, last, rfl⟩ := (List.eq_nil_or_concat before).resolve_left more
  rw [List.concat_eq_append] at *
  rw [List.getLast?_concat] at different
  rw [List.append_assoc, List.singleton_append] at inside
  exact .of_different ((List.suffix_append _ _).trans inside)
    (by simpa using different)

theorem PointBefore.of_identifier (afterPoint : Bool) :
    PointBefore text afterPoint (rest.dropWhile isIdentifierPart) := by
  intro first head starts
  have stays := List.head?_dropWhile_not isIdentifierPart rest
  rw [head] at stays
  simp [isIdentifierPart, starts] at stays

theorem PointBefore.of_readsValue {value : Expr} {expression : Text}
    (reads : ReadsValue false expression value rest)
    (inside : expression <:+ text) :
    PointBefore text false rest := by
  intro first head starts
  obtain ⟨last, ends, -⟩ := reads.exists_getLast?
  have more : value.source ≠ [] := by
    intro empty
    simp [empty] at ends
  exact PointBefore.of_append (reads.split.2 ▸ inside) more
    (reads.getLast?_ne_point head starts) first head starts

/-- In front of a token the flag and the byte before it say the same. -/
theorem PointBefore.eq_decide
    {afterPoint : Bool} (point : PointBefore text afterPoint rest)
    (inside : rest <:+ text) {first : Char} {others : Text}
    (starts : isIdentifierStart first = true)
    (found : skipTrivia rest = .ok (first :: others)) :
    (afterPoint && decide (rest.length = others.length + 1)) =
      decide ((text.upTo (first :: others)).getLast? = some '.') := by
  rcases behindNoPoint_of_skipTrivia found (List.cons_ne_nil _ _) with
    same | ⟨before, last, split, different⟩
  · rw [same] at point
    simp [point first rfl starts, same]
  · have reached : last :: first :: others <:+ text :=
      (List.suffix_append before _).trans (split ▸ inside)
    have longer : rest.length ≠ others.length + 1 := by
      simp only [split, List.length_append, List.length_cons]
      omega
    rw [upTo_cons reached, List.getLast?_concat]
    simp [longer, different]

theorem textThen_eq {start : Text} (inside : start <:+ text)
    (later : rest <:+ start) (others : List Segment) :
    textThen text (text.offsetOf start) (text.offsetOf rest) others =
      return Segment.textThen (start.upTo rest) others := by
  have empty :
      (start.upTo rest).isEmpty = !decide (rest.length < start.length) := by
    rw [Bool.eq_iff_iff, List.isEmpty_iff_length_eq_zero, Text.upTo,
      List.length_take]
    simp only [Bool.not_eq_true', decide_eq_false_iff_not]
    omega
  rw [textThen, Segment.textThen, empty]
  simp only [offsetOf_lt_iff inside later, slice_offsetOf inside later,
    pure_bind]
  split <;> simp_all

mutual

theorem segments_eq {start rest : Text} (depth : Nat) {afterPoint : Bool}
    (begins : start <:+ text) (inside : rest <:+ start)
    (point : PointBefore text afterPoint rest) :
    segments text (text.offsetOf start) depth (text.offsetOf rest) =
      ofScan text id (parseSegments start depth afterPoint rest) := by
  have whole : rest <:+ text := inside.trans begins
  rw [segments, trivia_eq whole]
  cases found : skipTrivia rest with
  | error fault =>
      rw [parseSegments_error found]
      rfl
  | ok behind =>
      cases behind with
      | nil =>
          rw [parseSegments_ended found]
          have all : start.upTo [] = start := by simp [Text.upTo]
          simp only [ofScan_ok, pure_bind, peek_offsetOf_nil,
            ← offsetOf_nil text, textThen_eq begins List.nil_suffix, all]
          split <;> rfl
      | cons first others =>
          have reached : first :: others <:+ rest := skipTrivia_suffix found
          have stands : first :: others <:+ text := reached.trans whole
          have behind : others <:+ start :=
            (List.suffix_cons _ _).trans (reached.trans inside)
          have shorter : others.length < rest.length := reached.length_le
          rw [parseSegments_token found]
          simp only [ofScan_ok, pure_bind, peek_offsetOf_cons stands,
            isQuotationMark_leadByte, leadByte_eq_iff '\x60' (by decide),
            closerOf?_leadByte, isCloser_leadByte, isIdentifierStart_leadByte]
          by_cases quotes : isQuotationMark first = true
          · rw [if_pos quotes, if_pos quotes, string_eq stands]
            cases ended : skipString (first :: others) with
            | error fault => rfl
            | ok after =>
                have later : after <:+ others := skipString_suffix ended
                have : after.length < rest.length :=
                  Nat.lt_of_le_of_lt later.length_le shorter
                simp only [ofScan_ok, pure_bind]
                exact segments_eq _ begins (later.trans behind)
                  (.of_string stands quotes ended)
          rw [if_neg quotes, if_neg quotes]
          by_cases mark : first = '\x60'
          · subst mark
            rw [if_pos rfl, if_pos rfl, template_eq stands (by decide)]
            cases ended :
              skipTemplateBody ('\x60' :: others) (.start others) with
            | error fault => rfl
            | ok after =>
                have : after.1.length < rest.length :=
                  Nat.lt_of_le_of_lt after.2.length_le shorter
                simp only [ofScan_ok, pure_bind]
                exact segments_eq _ begins (after.2.trans behind)
                  (.of_template stands ended)
          rw [if_neg mark, if_neg mark]
          by_cases opens : (closerOf? first).isSome = true
          · obtain ⟨closer, opens'⟩ := Option.isSome_iff_exists.1 opens
            rw [if_pos opens, if_pos opens,
              bump_behind stands (ascii_of_closerOf? opens')]
            exact segments_eq _ begins behind (.of_opener stands opens)
          rw [if_neg opens, if_neg opens]
          by_cases closes : isCloser first = true
          · have ascii := ascii_of_isCloser closes
            rw [if_pos closes, if_pos closes, leadByte_of_ascii ascii]
            cases depth with
            | zero => rfl
            | succ depth =>
                simp only [Nat.succ_ne_zero, if_false, lower, pure_bind,
                  bump_behind stands ascii, Nat.add_sub_cancel]
                exact segments_eq _ begins behind (.of_closer stands closes)
          rw [if_neg closes, if_neg closes]
          by_cases starts : isIdentifierStart first = true
          case neg =>
            have ascii : first.toNat < 128 :=
              Nat.lt_of_not_le fun beyond =>
                starts (isIdentifierStart_beyond beyond)
            rw [if_neg starts, if_neg starts, bump_behind stands ascii]
            exact segments_eq _ begins behind (.of_character stands)
          have wordEnd : others.dropWhile isIdentifierPart <:+ others :=
            List.dropWhile_suffix _
          have : (others.dropWhile isIdentifierPart).length < rest.length :=
            Nat.lt_of_le_of_lt wordEnd.length_le shorter
          have afterWord := wordEnd.trans behind
          rw [if_pos starts, if_pos starts, identifier_eq stands,
            scanIdentifier?, if_pos starts]
          simp only [pure_bind, behindPoint_eq stands,
            point.eq_decide whole starts found, Option.getD_some]
          split
          · exact segments_eq _ begins afterWord (.of_identifier _)
          next atRoot =>
          obtain rfl : depth = 0 := by simp_all
          exact exported_eq begins stands (reached.trans inside)
termination_by 2 * rest.length

theorem exported_eq
    {start others : Text} {first : Char} (begins : start <:+ text)
    (stands : first :: others <:+ text) (inside : first :: others <:+ start) :
    exported text (text.offsetOf start) (text.offsetOf (first :: others))
        (text.offsetOf (others.dropWhile isIdentifierPart)) =
      ofScan text id (parseExport start (first :: others)
        (others.dropWhile isIdentifierPart)) := by
  have wordEnd : others.dropWhile isIdentifierPart <:+ others :=
    List.dropWhile_suffix _
  have shorter : (others.dropWhile isIdentifierPart).length ≤ others.length :=
    wordEnd.length_le
  have behind : others <:+ text := (List.suffix_cons _ _).trans stands
  have afterWord : others.dropWhile isIdentifierPart <:+ start :=
    wordEnd.trans ((List.suffix_cons _ _).trans inside)
  have plain := segments_eq 0 begins afterWord (.of_identifier false)
  rw [exported, trivia_eq (wordEnd.trans behind), parseExport]
  cases second : skipTrivia (others.dropWhile isIdentifierPart) with
  | error fault => rfl
  | ok token =>
      have tokenInside : token <:+ others :=
        (skipTrivia_suffix second).trans wordEnd
      simp only [ofScan_ok, pure_bind, identifier_eq (tokenInside.trans behind),
        clamp_offsetOf]
      cases scanned : scanIdentifier? token with
      | none => simpa using plain
      | some pair =>
          obtain ⟨next, afterDefault⟩ := pair
          simp only [pure_bind]
          by_cases isDefault : next = ['d', 'e', 'f', 'a', 'u', 'l', 't']
          case neg => simpa [isDefault] using plain
          subst isDefault
          have defaultEnd : afterDefault <:+ others :=
            (scanIdentifier?_suffix scanned).trans tokenInside
          simp only [ne_eq, not_true_eq_false, if_false,
            trivia_eq (defaultEnd.trans behind)]
          cases third : skipTrivia afterDefault with
          | error fault => rfl
          | ok expression =>
              cases expression with
              | nil =>
                  simp only [ofScan_ok, pure_bind, offsetOf_nil]
                  rw [if_pos (Nat.le_refl _)]
                  rfl
              | cons mark inner =>
                  have expressionEnd : mark :: inner <:+ others :=
                    (skipTrivia_suffix third).trans defaultEnd
                  have expressionHere : mark :: inner <:+ first :: others :=
                    expressionEnd.trans (List.suffix_cons _ _)
                  have reached : mark :: inner <:+ text :=
                    expressionHere.trans stands
                  have more : ¬text.utf8Size ≤ text.offsetOf (mark :: inner) :=
                    Nat.not_le_of_lt (offsetOf_lt reached)
                  simp only [ofScan_ok, pure_bind, if_neg more,
                    textThen_eq begins inside,
                    slice_offsetOf stands expressionHere,
                    value_eq false reached]
                  cases read : parseValue false (mark :: inner) with
                  | error fault => rfl
                  | ok found =>
                      obtain ⟨value, finish⟩ := found
                      have smaller : finish.1.length ≤ others.length :=
                        Nat.le_trans finish.2.length_le expressionEnd.length_le
                      have further := segments_eq 0 (finish.2.trans reached)
                        (List.suffix_refl finish.1)
                        (.of_readsValue (readsValue_of_parseValue read) reached)
                      simp only [ofScan_ok, pure_bind, placed, further]
                      cases parseSegments finish.1 0 false finish.1 with
                      | error fault => rfl
                      | ok segments =>
                          simp only [ofScan_ok, pure_bind, id]
                          rw [textThen_append _ (_ :: _)]
termination_by 2 * others.length + 1

end

end Walk

end ConfigEdit
