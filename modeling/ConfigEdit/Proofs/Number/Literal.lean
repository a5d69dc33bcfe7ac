import ConfigEdit.Number.Literal
import ConfigEdit.Proofs.Text.Digits
import Mathlib.Data.List.TakeWhile

/-!
# Number literals are numerals

Every number is written as a text that is read as a number literal.
-/

namespace ConfigEdit

namespace Text

/-- One or more decimal digits. -/
def IsDigits (text : Text) : Prop := text ≠ [] ∧ text.all Char.isDigit = true

/-- The characters of decimal numbers with an exponent. -/
def isDecimalCharacter (character : Char) : Bool :=
  character.isDigit || character = '.' || character = 'e' || character = '-'

/-- Digits, an optional fraction and an optional exponent. -/
structure DecimalParts where
  whole : Text
  fraction : Text
  exponent : Text
  digits : IsDigits whole
  fractional : fraction = [] ∨
    ∃ others, fraction = '.' :: others ∧ others.all Char.isDigit = true
  scaled : exponent = [] ∨
    ∃ sign others,
      exponent = 'e' :: (sign ++ others) ∧ (sign = [] ∨ sign = ['-']) ∧
      IsDigits others

theorem dropDigits_append
    {digits rest : Text} (all : digits.all Char.isDigit = true)
    (ends : ∀ character ∈ rest.head?,
      character.isDigit = false ∧ character ≠ '_') :
    dropDigits (digits ++ rest) = rest := by
  rw [dropDigits, List.dropWhile_append_of_pos]
  · cases rest with
    | nil => rfl
    | cons character others =>
        obtain ⟨notDigit, notSeparator⟩ := ends character rfl
        simp [notDigit, notSeparator]
  · intro character inside
    simp [List.all_eq_true.1 all character inside]

namespace DecimalParts

/-- The parts together. -/
def text (parts : DecimalParts) : Text :=
  parts.whole ++ (parts.fraction ++ parts.exponent)

theorem isExponent_exponent (parts : DecimalParts) :
    isExponent parts.exponent = true := by
  rcases parts.scaled with empty | ⟨sign, others, shape, signed, more, all⟩
  · rw [empty, isExponent]
  · rw [shape]
    obtain ⟨first, rest, rfl⟩ := List.exists_cons_of_ne_nil more
    rcases signed with rfl | rfl
    · have digit := List.all_eq_true.1 all first List.mem_cons_self
      have notSign : first ≠ '+' ∧ first ≠ '-' :=
        ⟨ne_of_class digit rfl, ne_of_class digit rfl⟩
      simp only [List.nil_append, isExponent]
      simp [notSign, all]
    · simp only [isExponent, List.singleton_append]
      simpa using all

theorem isDecimal (parts : DecimalParts) : parts.text.isDecimal = true := by
  obtain ⟨first, others, shape⟩ := List.exists_cons_of_ne_nil parts.digits.1
  have all := parts.digits.2
  rw [shape, List.all_cons, Bool.and_eq_true] at all
  have exponentEnds : ∀ character ∈ parts.exponent.head?,
      character.isDigit = false ∧ character ≠ '_' := by
    intro character head
    rcases parts.scaled with empty | ⟨sign, digits, scaled, -⟩
    · simp [empty] at head
    · simp only [scaled, List.head?_cons, Option.mem_some_iff] at head
      subst head
      decide
  have after : afterFraction? parts.text = some parts.exponent := by
    rw [text, shape, List.cons_append]
    have dropped : dropDigits (others ++ (parts.fraction ++ parts.exponent)) =
        parts.fraction ++ parts.exponent := by
      apply dropDigits_append all.2
      intro character head
      rcases parts.fractional with empty | ⟨digits, fractional, -⟩
      · rw [empty] at head
        exact exponentEnds character head
      · simp only [fractional, List.cons_append, List.head?_cons,
          Option.mem_some_iff] at head
        subst head
        decide
    cases rest : others ++ (parts.fraction ++ parts.exponent) with
    | nil =>
        have empty : parts.exponent = [] := by simp_all
        simp [afterFraction?, all.1, empty]
    | cons second further =>
        rw [afterFraction?, if_pos all.1, ← rest, dropped]
        rcases parts.fractional with
          empty | ⟨digits, fractional, fractionDigits⟩
        · rw [empty, List.nil_append]
          rcases parts.scaled with none' | ⟨sign, digits, scaled, -⟩
          · rw [none']
          · rw [scaled]
            rfl
        · rw [fractional, List.cons_append]
          simp only
          rw [dropDigits_append fractionDigits exponentEnds]
  rw [Text.isDecimal, after]
  exact parts.isExponent_exponent

theorem all_isDecimalCharacter (parts : DecimalParts) :
    parts.text.all isDecimalCharacter = true := by
  have digits {run : Text} (all : run.all Char.isDigit = true) :
      run.all isDecimalCharacter = true := by
    rw [List.all_eq_true] at all ⊢
    intro character inside
    simp [isDecimalCharacter, all character inside]
  have fraction : parts.fraction.all isDecimalCharacter = true := by
    rcases parts.fractional with empty | ⟨others, shape, all⟩
    · simp [empty]
    · rw [shape, List.all_cons, digits all]
      rfl
  have exponent : parts.exponent.all isDecimalCharacter = true := by
    rcases parts.scaled with empty | ⟨sign, others, shape, signed, -, all⟩
    · simp [empty]
    · rw [shape, List.all_cons, List.all_append, digits all]
      rcases signed with rfl | rfl <;> rfl
  rw [text, List.all_append, List.all_append, digits parts.digits.2, fraction,
    exponent]
  rfl

theorem isNumeral (parts : DecimalParts) :
    parts.text.isNumeral = true ∧
    Text.isNumeral ('-' :: parts.text) = true := by
  obtain ⟨first, others, shape⟩ := List.exists_cons_of_ne_nil parts.digits.1
  have digit : first.isDigit = true := by
    have all := parts.digits.2
    rw [shape, List.all_cons, Bool.and_eq_true] at all
    exact all.1
  obtain ⟨rest, cons⟩ : ∃ rest, parts.text = first :: rest := by
    rw [text, shape]
    exact ⟨_, rfl⟩
  have characters := parts.all_isDecimalCharacter
  have decimal := parts.isDecimal
  generalize parts.text = written at *
  have noMark : written.getLast? ≠ some 'n' := by
    intro last
    have inside := List.all_eq_true.1 characters 'n' (List.mem_of_getLast? last)
    simp [isDecimalCharacter] at inside
  have big : withoutBigMark written = written := by
    rw [withoutBigMark, if_neg noMark]
  have unsigned : ∀ signed,
      withoutMinus signed = written → Text.isNumeral signed = true := by
    intro signed same
    rw [Text.isNumeral, same, big]
    split
    · next mark digits =>
        have inside := List.all_eq_true.1 characters mark (by simp)
        have different (other : Char) (no : isDecimalCharacter other = false) :
            mark ≠ other := ne_of_class inside no
        simpa [different 'x' (by decide), different 'X' (by decide),
          different 'o' (by decide), different 'O' (by decide),
          different 'b' (by decide), different 'B' (by decide)] using decimal
    · exact decimal
  constructor
  · apply unsigned
    rw [cons]
    exact withoutMinus_of_ne (ne_of_class digit rfl) rest
  · exact unsigned _ rfl

end DecimalParts

end Text

theorem Decimal.isDigits_digits {decimal : Decimal}
    (positive : 0 < decimal.coefficient) :
    decimal.digits.digits.IsDigits := by
  obtain ⟨character, inside, notZero⟩ := exists_ne_zero_of_natText positive
  have all := (natText_digits decimal.coefficient).2
  rw [List.all_eq_true] at all
  rw [Text.IsDigits, Decimal.digits]
  constructor
  · simp only [ne_eq, List.reverse_eq_nil_iff, List.dropWhile_eq_nil_iff,
      List.mem_reverse, decide_eq_true_eq]
    intro zeros
    exact notZero (zeros character inside)
  · rw [List.all_eq_true]
    intro other found
    rw [List.mem_reverse] at found
    exact all other
      (List.mem_reverse.1 ((List.dropWhile_suffix _).subset found))

theorem Binary64.coefficient_pos_of_readsBack {number : Binary64}
    {coefficient : Nat} {exponent : Int} (notZero : number.significand ≠ 0)
    (back : number.readsBack coefficient exponent = true) :
    0 < coefficient := by
  rcases Nat.eq_zero_or_pos coefficient with rfl | positive
  · simp only [readsBack, Decimal.toBinary64?, decide_true, Bool.true_or,
      if_true, Option.some.injEq, decide_eq_true_eq] at back
    have same := congrArg Binary64.significand back
    exact absurd same.symm notZero
  · exact positive

/-- A decimal on a grid reads back as the magnitude. -/
theorem Binary64.readsBack_of_onGrid?
    {number : Binary64} {tie : Tie} {exponent : Int}
    {decimal : Decimal} (onGrid : number.onGrid? tie exponent = some decimal) :
    decimal.negative = false ∧
      number.readsBack decimal.coefficient decimal.exponent = true := by
  rw [onGrid?] at onGrid
  split at onGrid
  · next lower upper =>
      cases onGrid
      refine ⟨rfl, ?_⟩
      simp only
      split
      · exact upper
      · exact lower
  · next lower _ =>
      cases onGrid
      exact ⟨rfl, lower⟩
  · next _ upper =>
      cases onGrid
      exact ⟨rfl, upper⟩
  · contradiction

theorem Binary64.coefficient_shortestDecimal_pos {number : Binary64} {tie : Tie}
    (notZero : number.significand ≠ 0) :
    0 < (number.shortestDecimal tie).coefficient := by
  rw [shortestDecimal]
  cases found : (List.range 17).findSome? fun count =>
      number.onGrid? tie
        (ceilLog10 number.numerator
          number.denominator - Int.ofNat (count + 1)) with
  | none =>
      have numerator : 0 < number.numerator :=
        Nat.mul_pos (Nat.pos_of_ne_zero notZero) (Nat.pow_pos (by decide))
      exact Nat.mul_pos numerator (Nat.pow_pos (by decide))
  | some decimal =>
      obtain ⟨count, -, onGrid⟩ := List.exists_of_findSome?_eq_some found
      rw [Option.getD_some]
      exact coefficient_pos_of_readsBack notZero (readsBack_of_onGrid? onGrid).2

theorem intText_eq (value : Int) :
    ∃ sign digits, intText value = sign ++ digits ∧ (sign = [] ∨ sign = ['-']) ∧
      digits.IsDigits := by
  cases value with
  | ofNat value =>
      exact ⟨[], natText value, rfl, .inl rfl, natText_digits value⟩
  | negSucc value =>
      exact ⟨['-'], natText (value + 1), rfl, .inr rfl, natText_digits _⟩

namespace ShortestDigits

variable {shortest : ShortestDigits}

theorem exists_positional (digits : shortest.digits.IsDigits) :
    ∃ parts : Text.DecimalParts, shortest.positional = parts.text := by
  obtain ⟨more, all⟩ := digits
  have part {run : Text}
      (inside : ∀ character ∈ run, character ∈ shortest.digits) :
      run.all Char.isDigit = true := by
    rw [List.all_eq_true] at all ⊢
    exact fun character member => all character (inside character member)
  rw [positional]
  split
  · refine ⟨⟨shortest.digits ++ List.replicate shortest.exponent.toNat '0',
      [], [], ?_, .inl rfl, .inl rfl⟩, by simp [Text.DecimalParts.text]⟩
    refine ⟨by simp [more], ?_⟩
    rw [List.all_append, all, List.all_eq_true.2]
    · rfl
    · intro character inside
      rw [List.eq_of_mem_replicate inside]
      rfl
  · split
    · refine ⟨⟨shortest.digits.take (shortest.leadingPower.toNat + 1),
        '.' :: shortest.digits.drop (shortest.leadingPower.toNat + 1),
        [], ⟨?_, ?_⟩,
        .inr ⟨_, rfl, ?_⟩, .inl rfl⟩, by simp [Text.DecimalParts.text]⟩
      · simpa using more
      · exact part fun _ => List.mem_of_mem_take
      · exact part fun _ => List.mem_of_mem_drop
    · refine ⟨⟨['0'],
        '.' :: (List.replicate (-shortest.leadingPower - 1).toNat '0' ++
          shortest.digits),
        [], ⟨by simp, by decide⟩, .inr ⟨_, rfl, ?_⟩, .inl rfl⟩,
        by simp [Text.DecimalParts.text]⟩
      rw [List.all_append, all, List.all_eq_true.2]
      · rfl
      · intro character inside
        rw [List.eq_of_mem_replicate inside]
        rfl

theorem exists_scientific (digits : shortest.digits.IsDigits) :
    ∃ parts : Text.DecimalParts, shortest.scientific false = parts.text := by
  obtain ⟨sign, others, power, signed, powerDigits⟩ :=
    intText_eq shortest.leadingPower
  have scaled : ('e' :: intText shortest.leadingPower : Text) = [] ∨
      ∃ sign others,
        'e' :: intText shortest.leadingPower = 'e' :: (sign ++ others) ∧
        (sign = [] ∨ sign = ['-']) ∧ Text.IsDigits others :=
    .inr ⟨sign, others, by rw [power], signed, powerDigits⟩
  obtain ⟨more, all⟩ := digits
  rw [scientific]
  split
  · next first second rest shape =>
      rw [shape, List.all_cons, Bool.and_eq_true] at all
      have digit : Text.IsDigits [first] := ⟨by simp, by simp [all.1]⟩
      exact ⟨⟨[first], '.' :: second :: rest,
        'e' :: intText shortest.leadingPower, digit,
        .inr ⟨_, rfl, all.2⟩, scaled⟩, by simp [Text.DecimalParts.text]⟩
  · exact ⟨⟨shortest.digits, [], 'e' :: intText shortest.leadingPower,
      ⟨more, all⟩, .inl rfl, scaled⟩, by simp [Text.DecimalParts.text]⟩

end ShortestDigits

namespace Number

/-- A number is written as a decimal number, with or without a minus sign. -/
theorem exists_literal (number : Number) :
    ∃ parts : Text.DecimalParts, number.literal = parts.text ∨
      number.literal = '-' :: parts.text := by
  cases number with
  | integer value fits =>
      obtain ⟨sign, digits, same, signed, isDigits⟩ := intText_eq value
      refine ⟨⟨digits, [], [], isDigits, .inl rfl, .inl rfl⟩, ?_⟩
      rw [literal, same]
      rcases signed with rfl | rfl
      · exact .inl (by simp [Text.DecimalParts.text])
      · exact .inr (by simp [Text.DecimalParts.text])
  | float value =>
      rw [literal]
      split
      · exact ⟨⟨['0'], [], [], ⟨by simp, by decide⟩, .inl rfl, .inl rfl⟩,
          .inl rfl⟩
      · next notZero =>
          have digits : (value.shortest .up).digits.IsDigits :=
            Decimal.isDigits_digits
              (Binary64.coefficient_shortestDecimal_pos notZero)
          obtain ⟨parts, same⟩ : ∃ parts : Text.DecimalParts,
              (if -6 ≤ (value.shortest .up).leadingPower &&
                (value.shortest .up).leadingPower < 21
                then (value.shortest .up).positional
                else (value.shortest .up).scientific false) = parts.text := by
            split
            · exact ShortestDigits.exists_positional digits
            · exact ShortestDigits.exists_scientific digits
          refine ⟨parts, ?_⟩
          simp only [same]
          split
          · exact .inr rfl
          · exact .inl rfl

theorem isNumeral_literal (number : Number) :
    number.literal.isNumeral = true := by
  obtain ⟨parts, same | same⟩ := number.exists_literal
  · rw [same]
    exact parts.isNumeral.1
  · rw [same]
    exact parts.isNumeral.2

end Number

end ConfigEdit
