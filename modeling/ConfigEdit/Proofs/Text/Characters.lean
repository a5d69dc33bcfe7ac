import ConfigEdit.Scan.Expression
import ConfigEdit.Text.Identifier
import ConfigEdit.Text.Numeral

/-!
# First characters

The first character of an expression decides how it is read.  No character
begins two kinds of tokens, and no gap is a part of a numeral.
-/

namespace ConfigEdit

/-- A character that numbers begin with begins nothing else. -/
theorem numberStart_cases {first : Char}
    (starts : (first.isDigit || first = '.' || first = '-') = true) :
    isGap first = false ∧ first ≠ '/' ∧ isCloser first = false ∧
    isSeparator first = false ∧
    first ≠ '{' ∧ isQuotationMark first = false := by
  simp only [Bool.or_eq_true, decide_eq_true_eq] at starts
  rcases starts with (digit | rfl) | rfl
  · simp [isGap, isCloser, isSeparator, isQuotationMark, ne_of_class digit]
  · decide
  · decide

theorem isDigit_eq_false_of_identifierStart {first : Char}
    (starts : isIdentifierStart first = true) : first.isDigit = false := by
  have alpha : first.isAlpha =
      (decide (first.val ≥ 'A'.val ∧ first.val ≤ 'Z'.val) ||
        (decide (first.val ≥ 'a'.val) && decide (first.val ≤ 'z'.val))) := rfl
  simp only [isIdentifierStart, alpha, Bool.or_eq_true, Bool.and_eq_true,
    decide_eq_true_eq, ge_iff_le, UInt32.le_iff_toNat_le] at starts
  simp only [Char.isDigit, Bool.and_eq_false_iff, decide_eq_false_iff_not,
    ge_iff_le, UInt32.le_iff_toNat_le]
  have digits : '0'.val.toNat = 48 ∧ '9'.val.toNat = 57 := by decide
  have letters : 'A'.val.toNat = 65 ∧ 'a'.val.toNat = 97 := by decide
  rcases starts with ((letter | rfl) | rfl) | beyond
  · omega
  · decide
  · decide
  · simp only [Char.toNat] at beyond
    omega

theorem identifierStart_cases
    {first : Char} (starts : isIdentifierStart first = true) :
    isGap first = false ∧ first ≠ '/' ∧ first ≠ '{' ∧
    isQuotationMark first = false ∧
    (first.isDigit || first = '.' || first = '-') = false := by
  have different (character : Char) (no : isIdentifierStart character = false) :
      first ≠ character := ne_of_class starts no
  simp [isGap, isQuotationMark, isDigit_eq_false_of_identifierStart starts,
    different ' ' (by decide), different '\t' (by decide),
    different '\n' (by decide), different '\x0c' (by decide),
    different '\r' (by decide), different '/' (by decide),
    different '{' (by decide), different '\x27' (by decide),
    different '\x22' (by decide),
    different '.' (by decide), different '-' (by decide)]

theorem Text.numberStart_of_isDecimal {first : Char} {rest : Text}
    (decimal : Text.isDecimal (first :: rest) = true) :
    (first.isDigit || first = '.') = true := by
  rw [Text.isDecimal] at decimal
  cases rest with
  | nil =>
      simp only [Text.afterFraction?] at decimal
      split at decimal <;> simp_all
  | cons second others =>
      rw [Text.afterFraction?] at decimal
      by_cases digit : first.isDigit = true
      · simp [digit]
      · by_cases point : first = '.'
        · simp [point]
        · simp [digit, point] at decimal

theorem numberStart_of_isNumeral {first : Char} {run : Text}
    (numeral : Text.isNumeral (first :: run) = true) :
    (first.isDigit || first = '.' || first = '-') = true := by
  by_cases minus : first = '-'
  · simp [minus]
  · have same := Text.withoutMinus_of_ne minus run
    have head : ∀ rest, Text.withoutBigMark (first :: run) = rest →
        rest = [] ∨ ∃ others, rest = first :: others := by
      rintro rest rfl
      rw [Text.withoutBigMark]
      split
      · cases run <;> simp
      · simp
    rw [Text.isNumeral, same] at numeral
    split at numeral
    · next mark digits shape =>
        rcases head _ shape with none' | ⟨others, equal⟩
        · contradiction
        · cases equal
          decide
    · rcases head _ rfl with none' | ⟨others, equal⟩
      · rw [none'] at numeral
        contradiction
      · rw [equal] at numeral
        have starts := Text.numberStart_of_isDecimal numeral
        simp [starts]

namespace Text

section Gaps

variable {character : Char} {text : Text} (gap : isGap character = true)

include gap

private theorem gap_cases :
    character.isDigit = false ∧ isHexDigit character = false ∧
    isOctalDigit character = false ∧ isBinaryDigit character = false ∧
    ∀ other ∈
        ['_', '.', '-', '+', '0', 'e', 'E', 'n', 'x', 'X', 'o', 'O', 'b', 'B'],
      character ≠ other := by
  simp only [isGap, Bool.or_eq_true, decide_eq_true_eq] at gap
  rcases gap with (((rfl | rfl) | rfl) | rfl) | rfl <;>
    exact ⟨by decide, by decide, by decide, by decide, by simp⟩

omit gap in
private theorem notMem_of_all
    {isDigit : Char → Bool} (notDigit : isDigit character = false)
    (all : text.all isDigit = true) : character ∉ text := by
  intro inside
  simp [List.all_eq_true.1 all character inside] at notDigit

private theorem gap_notMem_of_dropDigits (rest : character ∉ dropDigits text) :
    character ∉ text := by
  obtain ⟨notDigit, -, -, -, notMark⟩ := gap_cases gap
  have split : text =
      text.takeWhile (fun other => other.isDigit || other = '_') ++
        dropDigits text := (List.takeWhile_append_dropWhile).symm
  rw [split, List.mem_append, not_or]
  exact ⟨notMem_of_all (by simp [notDigit, notMark '_' (by decide)])
    List.all_takeWhile, rest⟩

private theorem gap_notMem_of_isExponent (exponent : isExponent text = true) :
    character ∉ text := by
  obtain ⟨notDigit, -, -, -, notMark⟩ := gap_cases gap
  have different {mark : Char}
      (isMark : mark = 'e' ∨ mark = 'E') : character ≠ mark := by
    rcases isMark with rfl | rfl <;> exact notMark _ (by decide)
  match text with
  | [] => simp
  | [mark] => simp [isExponent] at exponent
  | mark :: sign :: digits =>
      simp only [isExponent, Bool.and_eq_true, Bool.or_eq_true,
        decide_eq_true_eq] at exponent
      obtain ⟨isMark, exponent⟩ := exponent
      rw [List.mem_cons, not_or]
      refine ⟨different isMark, ?_⟩
      split at exponent
      · next signs =>
          rw [Bool.and_eq_true] at exponent
          rw [List.mem_cons, not_or]
          refine ⟨?_, notMem_of_all notDigit exponent.2⟩
          rcases signs with rfl | rfl <;> exact notMark _ (by decide)
      · exact notMem_of_all notDigit exponent

private theorem gap_notMem_of_afterFraction?
    {rest : Text} (found : afterFraction? text = some rest)
    (notRest : character ∉ rest) : character ∉ text := by
  obtain ⟨notDigit, -, -, -, notMark⟩ := gap_cases gap
  have notFirst {first : Char}
      (digit : first.isDigit = true) : character ≠ first :=
    (ne_of_class digit notDigit).symm
  match text with
  | [] => simp
  | [first] =>
      rw [afterFraction?] at found
      split at found
      · next digit => simpa using notFirst digit
      · contradiction
  | first :: second :: others =>
      rw [afterFraction?] at found
      rw [List.mem_cons, not_or]
      split at found
      · next digit =>
          refine ⟨notFirst digit, gap_notMem_of_dropDigits gap ?_⟩
          split at found
          · next fraction shape =>
              cases found
              rw [shape, List.mem_cons, not_or]
              exact ⟨notMark _ (by decide),
                gap_notMem_of_dropDigits gap notRest⟩
          · cases found
            exact notRest
      · split at found
        · next point =>
            rw [Bool.and_eq_true, decide_eq_true_eq] at point
            cases found
            rw [point.1, List.mem_cons, not_or]
            exact ⟨notMark _ (by decide), notFirst point.2,
              gap_notMem_of_dropDigits gap notRest⟩
        · contradiction

private theorem gap_notMem_of_isDecimal (decimal : isDecimal text = true) :
    character ∉ text := by
  rw [isDecimal] at decimal
  split at decimal
  · next rest found =>
      exact gap_notMem_of_afterFraction? gap found
        (gap_notMem_of_isExponent gap decimal)
  · contradiction

theorem gap_notMem_of_isNumeral (numeral : isNumeral text = true) :
    character ∉ text := by
  obtain ⟨notDigit, notHex, notOctal, notBinary, notMark⟩ := gap_cases gap
  have run {isDigit : Char → Bool} {digits : Text}
      (no : isDigit character = false)
      (isRun : isDigitRun isDigit digits = true) : character ∉ digits := by
    rw [isDigitRun, Bool.and_eq_true] at isRun
    exact notMem_of_all (by simp [no, notMark '_' (by decide)]) isRun.2
  have core : character ∉ withoutBigMark (withoutMinus text) := by
    rw [isNumeral] at numeral
    split at numeral
    · next mark digits shape =>
        rw [shape]
        have marked {small large : Char}
            (isMark : (mark = small || mark = large) = true)
            (notSmall : character ≠ small) (notLarge : character ≠ large)
            (rest : character ∉ digits) :
            character ∉ '0' :: mark :: digits := by
          rw [Bool.or_eq_true, decide_eq_true_eq, decide_eq_true_eq] at isMark
          rw [List.mem_cons, List.mem_cons, not_or, not_or]
          refine ⟨notMark _ (by decide), ?_, rest⟩
          rcases isMark with rfl | rfl <;> assumption
        split at numeral
        · next isHex =>
            exact marked isHex (notMark _ (by decide)) (notMark _ (by decide))
              (run notHex numeral)
        · split at numeral
          · next isOctal =>
              exact marked isOctal (notMark _ (by decide))
                (notMark _ (by decide)) (run notOctal numeral)
          · split at numeral
            · next isBinary =>
                exact marked isBinary (notMark _ (by decide))
                  (notMark _ (by decide)) (run notBinary numeral)
            · exact gap_notMem_of_isDecimal gap numeral
    · exact gap_notMem_of_isDecimal gap numeral
  have unsigned : character ∉ withoutMinus text := by
    intro inside
    rw [withoutBigMark] at core
    split at core
    · next last =>
        obtain ⟨before, shape⟩ := List.getLast?_eq_some_iff.1 last
        rw [shape, List.dropLast_concat] at core
        rw [shape, List.mem_append, List.mem_singleton] at inside
        exact inside.elim core (notMark _ (by decide))
    · exact core inside
  intro inside
  rw [withoutMinus.eq_def] at unsigned
  split at unsigned
  · exact (List.mem_cons.1 inside).elim (notMark _ (by decide)) unsigned
  · exact unsigned inside

end Gaps

end Text

end ConfigEdit
