import ConfigEdit.Proofs.Number.Reading
import ConfigEdit.Proofs.Text.Characters
import Mathlib.Data.Nat.Digits.Defs

/-!
# Literals of integers

A literal without a fraction and an exponent stands for an integer: the value of
its digits in its base, with its sign.  It is read as that integer, unless it
names a base and its magnitude takes more than 63 bits; such a literal has no
number.
-/

namespace ConfigEdit

namespace Text

/-- The base that the mark behind a zero names. -/
def baseOfMark? (mark : Char) : Option Nat :=
  if mark = 'x' || mark = 'X' then some 16
  else if mark = 'o' || mark = 'O' then some 8
  else if mark = 'b' || mark = 'B' then some 2
  else none

/-- The base that a literal names.  Decimal literals name none. -/
def base? (text : Text) : Option Nat :=
  match text.withoutMinus with
  | '0' :: mark :: _ => baseOfMark? mark
  | _ => none

/-- The digits and separators of a literal, without its sign and its base. -/
def figures (text : Text) : Text :=
  if text.base?.isSome then text.withoutMinus.drop 2 else text.withoutMinus

/-- A literal without its separators. -/
def withoutSeparators (text : Text) : Text := text.filter (· ≠ '_')

/-- The value of a digit, in any base up to sixteen. -/
def figureValue (character : Char) : Nat := (digitValue? 16 character).getD 0

/-- The value of the digits of a literal in its base. -/
def integerMagnitude (text : Text) : Nat :=
  Nat.ofDigits (text.base?.getD 10)
    (text.figures.withoutSeparators.reverse.map figureValue)

/-- The integer that a literal stands for. -/
def integerValue (text : Text) : Int :=
  if text.head? = some '-' then -Int.ofNat text.integerMagnitude
  else Int.ofNat text.integerMagnitude

/-- Literals of integers: with a digit, without the mark `n`, and, where no base
is named, without a fraction and an exponent. -/
structure IsInteger (text : Text) : Prop where
  numeral : text.isNumeral = true
  unmarked : text.getLast? ≠ some 'n'
  whole : text.base? = none → '.' ∉ text ∧ 'e' ∉ text ∧ 'E' ∉ text
  digit : text.figures.withoutSeparators ≠ []

theorem isInteger_iff {text : Text} :
    text.IsInteger ↔ text.isNumeral = true ∧ text.getLast? ≠ some 'n' ∧
      (text.base? = none → '.' ∉ text ∧ 'e' ∉ text ∧ 'E' ∉ text) ∧
      text.figures.withoutSeparators ≠ [] := by
  constructor
  · intro integer
    exact ⟨integer.numeral, integer.unmarked, integer.whole, integer.digit⟩
  · intro ⟨numeral, unmarked, whole, digit⟩
    exact ⟨numeral, unmarked, whole, digit⟩

instance (text : Text) : Decidable text.IsInteger :=
  decidable_of_iff' _ isInteger_iff

/-- Literals that name a base and whose magnitude takes more than 63 bits. -/
def IsWide (text : Text) : Prop :=
  text.base? ≠ none ∧ 9223372036854775808 ≤ text.integerMagnitude

instance (text : Text) : Decidable text.IsWide :=
  inferInstanceAs (Decidable (_ ∧ _))

end Text

section Digits

variable {base : Nat} {character : Char}

theorem digitValue?_plus (base : Nat) : digitValue? base '+' = none := by
  simp [digitValue?]

theorem digitValue?_minus (base : Nat) : digitValue? base '-' = none := by
  simp [digitValue?]

theorem digitValue?_eq_figureValue (bound : base ≤ 16) {value : Nat}
    (found : digitValue? base character = some value) :
    value = Text.figureValue character := by
  rw [Text.figureValue]
  simp only [digitValue?] at found ⊢
  split_ifs at found ⊢ <;> simp_all <;> omega

theorem intOfText?_of_natOfDigits? {digits : Text} {value : Nat}
    (found : natOfDigits? base digits = some value) :
    intOfText? base digits = some ↑value := by
  rw [intOfText?.eq_def]
  split
  · rw [natOfDigits?, foldDigits?, digitValue?_plus] at found
    · contradiction
    · simp
  · rw [natOfDigits?, foldDigits?, digitValue?_minus] at found
    · contradiction
    · simp
  · rw [found]
    rfl

/-- Digits are read as their value in the base, behind the digits of `high`. -/
theorem foldDigits?_eq_ofDigits (bound : base ≤ 16) {digits : Text}
    (all : ∀ character ∈ digits, (digitValue? base character).isSome = true)
    (high : Nat) :
    foldDigits? base high digits = some
      (Nat.ofDigits base (digits.reverse.map Text.figureValue) +
        base ^ digits.length * high) := by
  induction digits generalizing high with
  | nil => simp [foldDigits?]
  | cons character others induction =>
      obtain ⟨value, found⟩ :=
        Option.isSome_iff_exists.1 (all character List.mem_cons_self)
      have same := digitValue?_eq_figureValue bound found
      have further := induction (fun other inside =>
        all other (List.mem_cons_of_mem _ inside)) (high * base + value)
      rw [foldDigits?, found]
      simp only [further, List.reverse_cons, List.map_append, List.map_cons,
        List.map_nil, Nat.ofDigits_append, Nat.ofDigits_singleton,
        List.length_map, List.length_reverse, List.length_cons, ← same,
        Nat.pow_succ]
      congr 1
      ring

theorem isSome_digitValue? (bound : base ≤ 10) (low : 48 ≤ character.toNat)
    (high : character.toNat < 48 + base) :
    (digitValue? base character).isSome = true := by
  have digit : character.isDigit = true := by
    have ends : '0'.toNat = 48 ∧ '9'.toNat = 57 := by decide
    rw [Char.isDigit_iff_toNat]
    omega
  have value : character.toNat - 48 < base := by omega
  simp [digitValue?, digit, value]

end Digits

namespace Text

variable {text : Text} {base : Nat}

theorem withoutMinus_cases (text : Text) :
    (text.head? = some '-' ∧ text = '-' :: text.withoutMinus) ∨
      (text.head? ≠ some '-' ∧ text = text.withoutMinus) := by
  rw [withoutMinus.eq_def]
  split
  · exact .inl ⟨rfl, rfl⟩
  · next noMinus =>
      refine .inr ⟨?_, rfl⟩
      intro head
      obtain ⟨others, same⟩ := List.head?_eq_some_iff.1 head
      exact noMinus others same

theorem withoutMinus_filter {first : Char} {others : Text}
    (shape : text.withoutMinus = first :: others) (notMinus : first ≠ '-')
    (notSeparator : first ≠ '_') :
    text.withoutSeparators.withoutMinus = text.withoutMinus.withoutSeparators ∧
      (text.withoutSeparators.head? = some '-' ↔ text.head? = some '-') := by
  rcases text.withoutMinus_cases with ⟨minus, same⟩ | ⟨noMinus, same⟩
  · have signed : text.withoutSeparators =
        '-' :: text.withoutMinus.withoutSeparators := by
      conv_lhs => rw [same]
      rfl
    rw [signed]
    exact ⟨rfl, by simp [minus]⟩
  · rw [shape] at same
    have begins : withoutSeparators (first :: others) =
        first :: withoutSeparators others :=
      List.filter_cons_of_pos (by simpa using notSeparator)
    rw [shape, same, begins]
    constructor
    · exact withoutMinus_of_ne notMinus (withoutSeparators others)
    · simp [notMinus]

theorem baseOfMark?_le {mark : Char} (named : baseOfMark? mark = some base) :
    base ≤ 16 := by
  rw [baseOfMark?] at named
  split_ifs at named <;> cases named <;> decide

theorem baseOfMark?_ne {mark : Char} (named : baseOfMark? mark = some base) :
    mark ≠ '_' := by
  rintro rfl
  simp [baseOfMark?] at named

theorem isDigitRun_of_baseOfMark? {mark : Char} {digits : Text}
    (named : baseOfMark? mark = some base)
    (shape : withoutBigMark text.withoutMinus = '0' :: mark :: digits)
    (numeral : text.isNumeral = true) :
    isDigitRun (fun character => (digitValue? base character).isSome) digits =
      true := by
  have weaken {isDigit : Char → Bool}
      (digit : ∀ character,
        isDigit character = true → (digitValue? base character).isSome = true)
      (isRun : isDigitRun isDigit digits = true) :
      isDigitRun (fun character => (digitValue? base character).isSome) digits =
        true := by
    simp only [isDigitRun, Bool.and_eq_true, List.all_eq_true, Bool.or_eq_true]
      at isRun ⊢
    exact ⟨isRun.1, fun character inside =>
      (isRun.2 character inside).imp_left (digit character)⟩
  rw [isNumeral, shape] at numeral
  simp only at numeral
  rw [baseOfMark?] at named
  split at named
  · next isHex =>
      cases named
      rw [if_pos isHex] at numeral
      apply weaken _ numeral
      intro character digit
      rwa [← isHexDigit_eq_isSome]
  · next notHex =>
      rw [if_neg notHex] at numeral
      split at named
      · next isOctal =>
          cases named
          rw [if_pos isOctal] at numeral
          apply weaken _ numeral
          intro character digit
          simp only [isOctalDigit, Bool.and_eq_true, decide_eq_true_eq] at digit
          apply isSome_digitValue? (by decide) digit.1
          exact Nat.lt_succ_of_le digit.2
      · next notOctal =>
          rw [if_neg notOctal] at numeral
          split at named
          · next isBinary =>
              cases named
              rw [if_pos isBinary] at numeral
              apply weaken _ numeral
              intro character digit
              simp only [isBinaryDigit, Bool.or_eq_true, decide_eq_true_eq]
                at digit
              rcases digit with rfl | rfl
              · rfl
              · rfl
          · contradiction

/-- Without a fraction and an exponent a decimal number is a run of digits and
separators that begins with a digit. -/
theorem isDigitRun_of_isDecimal (decimal : text.isDecimal = true)
    (noPoint : '.' ∉ text) (noSmall : 'e' ∉ text) (noLarge : 'E' ∉ text) :
    ∃ first others, text = first :: others ∧ first.isDigit = true ∧
      isDigitRun Char.isDigit text = true := by
  have ended {rest : Text} (suffix : rest <:+ text)
      (exponent : isExponent rest = true) : rest = [] := by
    cases rest with
    | nil => rfl
    | cons mark others =>
        have inside : mark ∈ text := suffix.subset List.mem_cons_self
        simp only [isExponent, Bool.and_eq_true, Bool.or_eq_true,
          decide_eq_true_eq] at exponent
        rcases exponent.1 with rfl | rfl
        · contradiction
        · contradiction
  rw [isDecimal] at decimal
  cases text with
  | nil => contradiction
  | cons first rest =>
      cases rest with
      | nil =>
          rw [afterFraction?] at decimal
          by_cases digit : first.isDigit = true
          · exact ⟨first, [], rfl, digit, by simp [isDigitRun, digit]⟩
          · simp [digit] at decimal
      | cons second others =>
          rw [afterFraction?] at decimal
          by_cases digit : first.isDigit = true
          · rw [if_pos digit] at decimal
            have suffix :
                dropDigits (second :: others) <:+ first :: second :: others :=
              (List.dropWhile_suffix _).trans (List.suffix_cons first _)
            have nothing : dropDigits (second :: others) = [] := by
              split at decimal
              · next rest found =>
                  split at found
                  · next fraction shape =>
                      exact absurd (suffix.subset (shape ▸ List.mem_cons_self))
                        noPoint
                  · cases found
                    exact ended suffix decimal
              · contradiction
            refine ⟨first, second :: others, rfl, digit, ?_⟩
            rw [dropDigits, List.dropWhile_eq_nil_iff] at nothing
            simp only [isDigitRun, List.isEmpty_cons, Bool.not_false,
              Bool.true_and, List.all_cons, digit, Bool.true_or]
            simpa [isDigitRun] using nothing
          · have notPoint : first ≠ '.' := by
              rintro rfl
              exact noPoint List.mem_cons_self
            simp [digit, notPoint] at decimal

namespace IsInteger

theorem withoutBigMark_eq (integer : text.IsInteger) :
    withoutBigMark text.withoutMinus = text.withoutMinus := by
  rw [withoutBigMark, if_neg]
  intro last
  apply integer.unmarked
  obtain ⟨before, shape⟩ := List.getLast?_eq_some_iff.1 last
  rcases text.withoutMinus_cases with ⟨-, same⟩ | ⟨-, same⟩
  · rw [same, shape]
    exact List.getLast?_concat (l := '-' :: before)
  · rw [same, shape]
    exact List.getLast?_concat

theorem exists_based
    (integer : text.IsInteger) (named : text.base? = some base) :
    ∃ mark digits,
      text.withoutMinus = '0' :: mark :: digits ∧ baseOfMark? mark = some base ∧
      text.figures = digits ∧
      isDigitRun (fun character => (digitValue? base character).isSome) digits =
        true := by
  have figures : text.figures = text.withoutMinus.drop 2 := by
    rw [Text.figures, named]
    rfl
  rw [base?] at named
  split at named
  · next mark digits shape =>
      refine ⟨mark, digits, shape, named, ?_, ?_⟩
      · rw [figures, shape]
        rfl
      · apply isDigitRun_of_baseOfMark? named _ integer.numeral
        rw [integer.withoutBigMark_eq, shape]
  · contradiction

theorem exists_decimal
    (integer : text.IsInteger) (unnamed : text.base? = none) :
    ∃ first others, text.withoutMinus = first :: others ∧ first.isDigit = true ∧
      text.figures = first :: others ∧
      isDigitRun Char.isDigit (first :: others) = true := by
  have figures : text.figures = text.withoutMinus := by
    rw [Text.figures, unnamed]
    rfl
  have decimal : text.withoutMinus.isDecimal = true := by
    have numeral := integer.numeral
    rw [isNumeral, integer.withoutBigMark_eq] at numeral
    rw [base?] at unnamed
    split at numeral
    · next mark digits shape =>
        simp only [shape, baseOfMark?] at unnamed
        rw [shape]
        split_ifs at unnamed with notHex notOctal notBinary
        rwa [if_neg notHex, if_neg notOctal, if_neg notBinary] at numeral
    · exact numeral
  have subset :
      ∀ character, character ∉ text → character ∉ text.withoutMinus := by
    intro character outside inside
    apply outside
    rcases text.withoutMinus_cases with ⟨-, same⟩ | ⟨-, same⟩
    · rw [same]
      exact List.mem_cons_of_mem _ inside
    · rw [same]
      exact inside
  obtain ⟨noPoint, noSmall, noLarge⟩ := integer.whole unnamed
  obtain ⟨first, others, shape, digit, isRun⟩ := isDigitRun_of_isDecimal decimal
    (subset _ noPoint) (subset _ noSmall) (subset _ noLarge)
  rw [shape] at isRun
  exact ⟨first, others, shape, digit, figures.trans shape, isRun⟩

theorem base_le (integer : text.IsInteger) : text.base?.getD 10 ≤ 16 := by
  cases named : text.base? with
  | none => decide
  | some base =>
      obtain ⟨mark, digits, -, isMark, -⟩ := integer.exists_based named
      exact baseOfMark?_le isMark

theorem isSome_digitValue? (integer : text.IsInteger) :
    ∀ character ∈ text.figures.withoutSeparators,
      (digitValue? (text.base?.getD 10) character).isSome = true := by
  have run {isDigit : Char → Bool}
      (isRun : isDigitRun isDigit text.figures = true) :
      ∀ character ∈ text.figures.withoutSeparators,
        isDigit character = true := by
    intro character inside
    obtain ⟨inside, notSeparator⟩ := List.mem_filter.1 inside
    rw [isDigitRun, Bool.and_eq_true, List.all_eq_true] at isRun
    have digit := isRun.2 character inside
    simp only [decide_eq_true_eq] at notSeparator
    simpa [notSeparator] using digit
  cases named : text.base? with
  | none =>
      obtain ⟨first, others, -, -, figures, isRun⟩ :=
        integer.exists_decimal named
      intro character inside
      obtain ⟨value, found, -⟩ :=
        exists_digitValue?_of_isDigit (run (figures ▸ isRun) character inside)
      rw [Option.getD_none, found]
      rfl
  | some base =>
      obtain ⟨mark, digits, -, -, figures, isRun⟩ := integer.exists_based named
      exact run (figures ▸ isRun)

theorem natOfDigits?_figures (integer : text.IsInteger) :
    natOfDigits? (text.base?.getD 10) text.figures.withoutSeparators =
      some text.integerMagnitude := by
  rw [natOfDigits?_of_ne_nil integer.digit,
    foldDigits?_eq_ofDigits integer.base_le integer.isSome_digitValue?,
    Nat.mul_zero, Nat.add_zero]
  rfl

end IsInteger

end Text

namespace Number

variable {text : Text} {base : Nat}

theorem ofLiteral?_of_base
    (integer : text.IsInteger) (named : text.base? = some base) :
    ofLiteral? text =
      ofBase? base (text.head? = some '-') text.figures.withoutSeparators := by
  obtain ⟨mark, digits, shape, isMark, figures, -⟩ := integer.exists_based named
  obtain ⟨unsigned, sign⟩ :=
    Text.withoutMinus_filter shape (by decide) (by decide)
  have body : text.withoutSeparators.withoutMinus =
      '0' :: mark :: text.figures.withoutSeparators := by
    have kept := Text.baseOfMark?_ne isMark
    rw [unsigned, shape, figures]
    simp [Text.withoutSeparators, kept]
  have noBigMark :
      ('0' :: mark :: text.figures.withoutSeparators).getLast? ≠ some 'n' := by
    obtain ⟨first, others, cons⟩ := List.exists_cons_of_ne_nil integer.digit
    intro last
    rw [cons, List.getLast?_cons_cons, List.getLast?_cons_cons, ← cons] at last
    have digit := integer.isSome_digitValue? 'n' (List.mem_of_getLast? last)
    have bound := integer.base_le
    simp [digitValue?] at digit
    omega
  have cleaned : text.filter (· ≠ '_') = text.withoutSeparators := rfl
  rw [ofLiteral?]
  simp only [cleaned, body, sign]
  rw [if_neg noBigMark]
  rw [Text.baseOfMark?] at isMark
  split_ifs at isMark with isHex isOctal isBinary
  · cases isMark
    rw [if_pos isHex]
  · cases isMark
    rw [if_neg isHex, if_pos isOctal]
  · cases isMark
    rw [if_neg isHex, if_neg isOctal, if_pos isBinary]

theorem ofLiteral?_of_decimal
    (integer : text.IsInteger) (unnamed : text.base? = none) :
    ofLiteral? text = ofDecimal? text.withoutSeparators := by
  obtain ⟨first, others, shape, digit, figures, -⟩ :=
    integer.exists_decimal unnamed
  obtain ⟨unsigned, -⟩ :=
    Text.withoutMinus_filter shape (ne_of_class digit rfl)
      (ne_of_class digit rfl)
  have twice :
      text.withoutSeparators.filter (· ≠ '_') = text.withoutSeparators := by
    rw [Text.withoutSeparators, List.filter_filter]
    simp
  have again : ofLiteral? text = ofLiteral? text.withoutSeparators := by
    rw [ofLiteral?, ofLiteral?, twice]
    rfl
  have digits : Text.IsDigits text.figures.withoutSeparators := by
    have folded : foldDigits? 10 0 text.figures.withoutSeparators =
        some text.integerMagnitude := by
      rw [← natOfDigits?_of_ne_nil integer.digit]
      simpa [unnamed] using integer.natOfDigits?_figures
    exact ⟨integer.digit, all_isDigit_of_foldDigits? folded⟩
  let parts : Text.DecimalParts :=
    ⟨text.figures.withoutSeparators, [], [], digits, .inl rfl, .inl rfl⟩
  have written : text.withoutSeparators.withoutMinus = parts.text := by
    rw [unsigned, shape, ← figures]
    simp [parts, Text.DecimalParts.text]
  rw [again]
  apply parts.ofLiteral?_eq
  rw [← written]
  rcases text.withoutSeparators.withoutMinus_cases with ⟨-, same⟩ | ⟨-, same⟩
  · exact .inr same
  · exact .inl same

/-- A decimal literal is read as its integer if that fits. -/
theorem ofLiteral?_of_unnamed (integer : text.IsInteger)
    (unnamed : text.base? = none) (fits : FitsInteger text.integerValue) :
    ofLiteral? text = some (.integer text.integerValue fits) := by
  obtain ⟨first, others, shape, digit, figures, -⟩ :=
    integer.exists_decimal unnamed
  obtain ⟨unsigned, sign⟩ :=
    Text.withoutMinus_filter shape (ne_of_class digit rfl)
      (ne_of_class digit rfl)
  have digits : natOfDigits? 10 text.withoutSeparators.withoutMinus =
      some text.integerMagnitude := by
    rw [unsigned, shape, ← figures]
    simpa [unnamed] using integer.natOfDigits?_figures
  rw [ofLiteral?_of_decimal integer unnamed]
  apply ofDecimal?_of_fits
  rw [Text.integerValue]
  rcases text.withoutSeparators.withoutMinus_cases with
    ⟨minus, same⟩ | ⟨noMinus, same⟩
  · rw [if_pos (sign.1 minus), same, intOfText?, digits]
    rfl
  · rw [if_neg (mt sign.2 noMinus), same]
    exact intOfText?_of_natOfDigits? digits

/-- A literal with a base is read as its integer if 63 bits hold the
magnitude. -/
theorem ofLiteral?_of_named (integer : text.IsInteger)
    (named : text.base? = some base) (fits : FitsInteger text.integerValue) :
    ofLiteral? text = if text.integerMagnitude < 9223372036854775808
      then some (.integer text.integerValue fits) else none := by
  have digits : natOfDigits? base text.figures.withoutSeparators =
      some text.integerMagnitude := by
    simpa [named] using integer.natOfDigits?_figures
  have signed : FitsSigned text.integerMagnitude ↔
      text.integerMagnitude < 9223372036854775808 := by
    rw [FitsSigned]
    omega
  rw [ofLiteral?_of_base integer named, ofBase?,
    intOfText?_of_natOfDigits? digits]
  simp only [signed]
  split
  · next narrow =>
      have value : (if decide (text.head? = some '-') = true
          then Int.bmod (-↑text.integerMagnitude) UInt64.size
          else (text.integerMagnitude : Int)) = text.integerValue := by
        have kept : Int.bmod (-↑text.integerMagnitude) UInt64.size =
            -(text.integerMagnitude : Int) := by
          apply Int.bmod_eq_of_le
          · simp only [UInt64.size]
            omega
          · simp only [UInt64.size]
            omega
        rw [kept, Text.integerValue]
        simp
      rw [value, ofInt?, dif_pos fits]
  · rfl

theorem ofLiteral?_of_isInteger (integer : text.IsInteger)
    (fits : FitsInteger text.integerValue) :
    ofLiteral? text =
      if text.IsWide then none else some (.integer text.integerValue fits) := by
  cases named : text.base? with
  | none =>
      rw [ofLiteral?_of_unnamed integer named fits, if_neg]
      simp [Text.IsWide, named]
  | some base =>
      rw [ofLiteral?_of_named integer named fits]
      by_cases narrow : text.integerMagnitude < 9223372036854775808
      · rw [if_pos narrow, if_neg]
        simp [Text.IsWide, narrow]
      · rw [if_neg narrow, if_pos]
        simp [Text.IsWide, named, Nat.not_lt.1 narrow]

/-- The literal of an integer that fits is read as the integer, whatever its
base, unless a base is named and the magnitude takes more than 63 bits.  So
spellings of the same integer are read as the same number. -/
theorem ofLiteral?_integer
    (integer : text.IsInteger) (fits : FitsInteger text.integerValue) :
    ofLiteral? text =
        (if text.IsWide then none else some (.integer text.integerValue fits)) ∧
      ∀ other : Text, other.IsInteger → ¬ text.IsWide → ¬ other.IsWide →
        other.integerValue = text.integerValue →
        ofLiteral? other = ofLiteral? text := by
  constructor
  · exact ofLiteral?_of_isInteger integer fits
  · intro other isInteger narrow otherNarrow same
    rw [ofLiteral?_of_isInteger integer fits,
      ofLiteral?_of_isInteger isInteger (same ▸ fits),
      if_neg narrow, if_neg otherNarrow]
    simp only [same]

/-- A negative number with a base and separators, and in decimal digits. -/
theorem ofLiteral?_integer_separated :
    Text.IsInteger "-0x7fff_ffff_ffff_ffff".toList ∧
      Text.IsInteger "-9223372036854775807".toList ∧
      ofLiteral? "-0x7fff_ffff_ffff_ffff".toList =
        some (.integer (-9223372036854775807) (by decide)) ∧
      ofLiteral? "-9223372036854775807".toList =
        ofLiteral? "-0x7fff_ffff_ffff_ffff".toList := by
  have hex : Text.IsInteger "-0x7fff_ffff_ffff_ffff".toList := by decide +kernel
  have decimal : Text.IsInteger "-9223372036854775807".toList := by
    decide +kernel
  have value : Text.integerValue "-0x7fff_ffff_ffff_ffff".toList =
      -9223372036854775807 := by
    decide +kernel
  have fits :
      FitsInteger (Text.integerValue "-0x7fff_ffff_ffff_ffff".toList) := by
    rw [value]
    decide
  have narrow : ¬ Text.IsWide "-0x7fff_ffff_ffff_ffff".toList := by
    decide +kernel
  obtain ⟨read, spelled⟩ := ofLiteral?_integer hex fits
  refine ⟨hex, decimal, ?_,
    spelled _ decimal narrow (by decide +kernel) (by decide +kernel)⟩
  rw [read, if_neg narrow]
  simp only [value]

/-- The greatest and the least integer that fit have no number when they are
written with a base, although both are literals of integers. -/
theorem ofLiteral?_integer_wide :
    Text.IsInteger "0xffffffffffffffff".toList ∧
      Text.integerValue "0xffffffffffffffff".toList = 18446744073709551615 ∧
      FitsInteger 18446744073709551615 ∧
      ofLiteral? "0xffffffffffffffff".toList = none ∧
    Text.IsInteger "-0x8000000000000000".toList ∧
      Text.integerValue "-0x8000000000000000".toList = -9223372036854775808 ∧
      FitsInteger (-9223372036854775808) ∧
      ofLiteral? "-0x8000000000000000".toList = none := by
  refine ⟨?_, ?_, ?_, ?_, ?_, ?_, ?_, ?_⟩
  all_goals decide +kernel

end Number

end ConfigEdit
