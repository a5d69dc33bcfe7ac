import ConfigEdit.Proofs.Number.Literal
import ConfigEdit.Proofs.Number.Rounding

/-!
# Literals read back

A number is written as a literal that stands for a number with the same literal.
An integer is read as itself.  A binary number is read as itself too, unless it
is written in digits that an integer of 64 bits can hold.
-/

namespace ConfigEdit

namespace Binary64

/-- The value of a number as a rational number. -/
def value (number : Binary64) : ℚ :=
  (if number.negative then -1 else 1) *
    (number.significand * ((2 : Nat) : ℚ) ^ number.exponent)

theorem toBinary64?_shortestDecimal
    {number : Binary64} (notZero : number.significand ≠ 0) (tie : Tie) :
    Decimal.toBinary64? { number.shortestDecimal tie with
      negative := number.negative } = some number := by
  have back : Decimal.toBinary64? { number.shortestDecimal tie with
      negative := false } = some number.magnitude := by
    rw [shortestDecimal]
    cases found : (List.range 17).findSome? fun count =>
        number.onGrid? tie
          (ceilLog10 number.numerator
            number.denominator - Int.ofNat (count + 1)) with
    | none => exact toBinary64?_exactDecimal notZero
    | some decimal =>
        obtain ⟨count, -, onGrid⟩ := List.exists_of_findSome?_eq_some found
        simpa [readsBack] using (readsBack_of_onGrid? onGrid).2
  rw [Decimal.toBinary64?_withSign, back]
  rfl

end Binary64

theorem foldDigits?_natText (value : Nat) :
    foldDigits? 10 0 (natText value) = some value := by
  have read := foldDigits?_fixedDigits (by decide) (by decide)
    (@lt_pow_digitCount 10 value (by decide)).1 0
  rwa [Nat.zero_mul, Nat.zero_add] at read

theorem exists_zeros (text : Text) :
    ∃ count, text =
      (text.reverse.dropWhile (· = '0')).reverse ++ List.replicate count '0' ∧
      text.length - (text.reverse.dropWhile (· = '0')).reverse.length =
        count := by
  have zeros : text.reverse.takeWhile (· = '0') =
      List.replicate (text.reverse.takeWhile (· = '0')).length '0' := by
    apply List.eq_replicate_of_mem
    intro character inside
    simpa using List.mem_takeWhile_imp inside
  have split := congrArg List.reverse
    (List.takeWhile_append_dropWhile (p := (· = '0')) (l := text.reverse))
  rw [List.reverse_append, List.reverse_reverse, zeros, List.reverse_replicate]
    at split
  refine ⟨_, split.symm, ?_⟩
  have lengths := congrArg List.length split
  simp only [List.length_append, List.length_replicate] at lengths
  omega

/-- The zeros at the end of the digits of a decimal number are counted in the
power of ten. -/
theorem Decimal.exists_digits
    {decimal : Decimal} (positive : 0 < decimal.coefficient) :
    ∃ first others value,
      decimal.digits.digits = first :: others ∧ first ≠ '0' ∧
      foldDigits? 10 0 (first :: others) = some value ∧ 0 < value ∧
      (value : ℚ) * ((10 : Nat) : ℚ) ^ decimal.digits.exponent =
        decimal.magnitude := by
  obtain ⟨first, rest, whole, notZero⟩ := exists_natText_of_pos positive
  obtain ⟨count, split, cut⟩ := exists_zeros (natText decimal.coefficient)
  have read := foldDigits?_natText decimal.coefficient
  have more := (Decimal.isDigits_digits positive).1
  rw [split, foldDigits?_append] at read
  obtain ⟨value, kept, zeros⟩ := Option.bind_eq_some_iff.1 read
  rw [foldDigits?_zeros, Option.some.injEq] at zeros
  have digits : decimal.digits.digits =
      ((natText decimal.coefficient).reverse.dropWhile (· = '0')).reverse := rfl
  have exponent : decimal.digits.exponent = decimal.exponent + count := by
    rw [← cut]
    rfl
  rw [← digits] at kept split
  obtain ⟨head, others, shape⟩ := List.exists_cons_of_ne_nil more
  rw [shape] at kept split
  rw [whole] at split
  obtain ⟨rfl, -⟩ := List.cons.inj split
  refine ⟨first, others, value, shape, notZero, kept, ?_, ?_⟩
  · rcases Nat.eq_zero_or_pos value with rfl | positive
    · omega
    · exact positive
  · rw [Decimal.magnitude, exponent, ← zeros, zpow_add₀ (by norm_num)]
    push_cast
    rw [zpow_natCast]
    ring

theorem span_digits {digits rest : Text} (all : digits.all Char.isDigit = true)
    (ends : ∀ character ∈ rest.head?, character.isDigit = false) :
    (digits ++ rest).takeWhile Char.isDigit = digits ∧
      (digits ++ rest).dropWhile Char.isDigit = rest := by
  have inside : ∀ character ∈ digits, character.isDigit = true :=
    List.all_eq_true.1 all
  rw [List.takeWhile_append_of_pos inside, List.dropWhile_append_of_pos inside]
  cases rest with
  | nil => simp
  | cons character others => simp [ends character rfl]

/-- The texts of a fraction and of an exponent. -/
structure Decimal.Spells (pointed ending fraction : Text) (power : Int) :
    Prop where
  pointed : pointed = [] ∧ fraction = [] ∨ pointed = '.' :: fraction
  ending : ending = [] ∧ power = 0 ∨
    ∃ exponent, ending = 'e' :: exponent ∧ intOfText? 10 exponent = some power

/-- Digits with an optional fraction and exponent are read as one number. -/
theorem Decimal.ofUnsigned?_eq
    {whole fraction pointed ending : Text} {value : Nat} {power : Int}
    (spells : Decimal.Spells pointed ending fraction power)
    (more : whole ++ fraction ≠ [])
    (found : foldDigits? 10 0 (whole ++ fraction) = some value)
    (negative : Bool) :
    Decimal.ofUnsigned? negative (whole ++ (pointed ++ ending)) =
      some ⟨negative, value, power - fraction.length⟩ := by
  obtain ⟨pointed', ending'⟩ := spells
  have all := all_isDigit_of_foldDigits? found
  rw [List.all_append, Bool.and_eq_true] at all
  have digits : natOfDigits? 10 (whole ++ fraction) = some value := by
    rw [natOfDigits?]
    · exact found
    · exact more
  have endingEnds : ∀ character ∈ ending.head?, character.isDigit = false := by
    intro character head
    rcases ending' with ⟨rfl, -⟩ | ⟨exponent, rfl, -⟩
    · simp at head
    · cases head
      rfl
  have ends :
      ∀ character ∈ (pointed ++ ending).head?, character.isDigit = false := by
    intro character head
    rcases pointed' with ⟨rfl, -⟩ | rfl
    · exact endingEnds character head
    · cases head
      rfl
  obtain ⟨taken, left⟩ := span_digits all.1 ends
  obtain ⟨taken', left'⟩ := span_digits all.2 endingEnds
  rw [ofUnsigned?, taken, left]
  rcases pointed' with ⟨rfl, rfl⟩ | rfl
  · rw [List.append_nil] at digits
    rcases ending' with ⟨rfl, rfl⟩ | ⟨exponent, rfl, scaled⟩
    · simp [digits]
    · simp [digits, scaled]
  · rcases ending' with ⟨rfl, rfl⟩ | ⟨exponent, rfl, scaled⟩
    · rw [List.append_nil] at taken' left' ⊢
      simp only [taken', left', digits]
      simp
    · simp only [List.cons_append, taken', left', digits, scaled]
      simp

theorem natOfDigits?_of_ne_nil
    {base : Nat} {digits : Text} (more : digits ≠ []) :
    natOfDigits? base digits = foldDigits? base 0 digits := by
  cases digits with
  | nil => contradiction
  | cons first others => rfl

theorem intOfText?_of_isDigit {base : Nat} {first : Char} {others : Text}
    (digit : first.isDigit = true) :
    intOfText? base (first :: others) =
      (natOfDigits? base (first :: others)).map Int.ofNat := by
  rw [intOfText?.eq_def]
  split
  · next same => simp [(List.cons.inj same).1] at digit
  · next same => simp [(List.cons.inj same).1] at digit
  · rfl

theorem intOfText?_intText (value : Int) :
    intOfText? 10 (intText value) = some value := by
  have read (magnitude : Nat) :
      natOfDigits? 10 (natText magnitude) = some magnitude := by
    rw [natOfDigits?_of_ne_nil (natText_digits magnitude).1,
      foldDigits?_natText]
  cases value with
  | ofNat magnitude =>
      obtain ⟨more, all⟩ := natText_digits magnitude
      obtain ⟨first, others, shape⟩ := List.exists_cons_of_ne_nil more
      have number := read magnitude
      rw [shape, List.all_cons, Bool.and_eq_true] at all
      rw [shape] at number
      rw [intText, shape, intOfText?_of_isDigit all.1, number]
      rfl
  | negSucc magnitude => simp [intText, intOfText?, read, Int.negSucc_eq]

namespace ShortestDigits

variable {shortest : ShortestDigits} {first : Char} {others : Text}
    {value : Nat}

/-- A text is read as the number that some digits stand for.  It does not begin
with a zero, or it is not made of digits alone. -/
structure Spells (text : Text) (value : Nat) (exponent : Int) : Prop where
  reads : ∃ coefficient power, 0 < coefficient ∧
    (∀ negative,
      Decimal.ofUnsigned? negative text = some ⟨negative, coefficient, power⟩) ∧
    (coefficient : ℚ) * ((10 : Nat) : ℚ) ^ power =
      value * ((10 : Nat) : ℚ) ^ exponent
  begins : text.head? ≠ some '0' ∨ '.' ∈ text

theorem spells_positional
    (shape : shortest.digits = first :: others) (notZero : first ≠ '0')
    (found : foldDigits? 10 0 (first :: others) = some value)
    (positive : 0 < value) :
    Spells shortest.positional value shortest.exponent := by
  rw [← shape] at found
  have more : shortest.digits ≠ [] := by simp [shape]
  have length : 0 < shortest.digits.length := List.length_pos_iff.2 more
  rw [positional]
  split
  · next up =>
      obtain ⟨places, same⟩ := Int.eq_ofNat_of_zero_le up
      have zeros : foldDigits? 10 0
          (shortest.digits ++ List.replicate places '0' ++ []) =
          some (value * 10 ^ places) := by
        rw [List.append_nil, foldDigits?_append, found, Option.bind_some,
          foldDigits?_zeros]
      have read := Decimal.ofUnsigned?_eq ⟨.inl ⟨rfl, rfl⟩, .inl ⟨rfl, rfl⟩⟩
        (by simp [more]) zeros
      rw [same, Int.toNat_natCast]
      refine ⟨⟨_, _, ?_, by simpa using read, ?_⟩, .inl ?_⟩
      · exact Nat.mul_pos positive (Nat.pow_pos (by decide))
      · simp
      · simp [shape, notZero]
  · next down =>
      rw [leadingPower]
      split
      · next inside =>
          obtain ⟨power, same⟩ := Int.eq_ofNat_of_zero_le inside
          rw [same, Int.toNat_natCast]
          rw [← List.take_append_drop (power + 1) shortest.digits] at found more
          have places : (0 : Int) - (shortest.digits.drop (power + 1)).length =
              shortest.exponent := by
            simp only [Int.ofNat_eq_natCast] at same
            rw [List.length_drop]
            omega
          refine ⟨⟨value, shortest.exponent, positive, fun negative => ?_, rfl⟩,
            .inr (by simp)⟩
          have read := Decimal.ofUnsigned?_eq ⟨.inr rfl, .inl ⟨rfl, rfl⟩⟩ more
            found negative
          rwa [places, List.append_nil] at read
      · next below =>
          obtain ⟨count, same⟩ := Int.eq_ofNat_of_zero_le
            (by omega : 0 ≤ -(Int.ofNat shortest.digits.length +
              shortest.exponent - 1) - 1)
          rw [same, Int.toNat_natCast]
          have zeros : foldDigits? 10 0
              (['0'] ++ (List.replicate count '0' ++ shortest.digits)) =
              some value := by
            have front : foldDigits? 10 0 ['0'] = some 0 := rfl
            rw [foldDigits?_append, front, Option.bind_some, foldDigits?_append,
              foldDigits?_zeros, Option.bind_some, Nat.zero_mul, found]
          have places :
              (0 : Int) - (List.replicate count '0' ++ shortest.digits).length =
              shortest.exponent := by
            simp only [Int.ofNat_eq_natCast] at same
            rw [List.length_append, List.length_replicate]
            omega
          refine ⟨⟨value, shortest.exponent, positive, fun negative => ?_, rfl⟩,
            .inr (by simp)⟩
          have read := Decimal.ofUnsigned?_eq ⟨.inr rfl, .inl ⟨rfl, rfl⟩⟩
            (by simp) zeros negative
          rw [places, List.append_nil] at read
          exact read

theorem spells_scientific
    (shape : shortest.digits = first :: others) (notZero : first ≠ '0')
    (found : foldDigits? 10 0 (first :: others) = some value)
    (positive : 0 < value) :
    Spells (shortest.scientific false) value shortest.exponent := by
  have scaled := intOfText?_intText shortest.leadingPower
  have places : shortest.leadingPower - others.length = shortest.exponent := by
    simp only [leadingPower, shape, List.length_cons, Int.ofNat_eq_natCast]
    omega
  have joined : foldDigits? 10 0 ([first] ++ others) = some value := found
  rw [scientific, shape]
  cases others with
  | nil =>
      refine ⟨⟨value, shortest.exponent, positive, fun negative => ?_, rfl⟩,
        .inl (by simpa using notZero)⟩
      have read :=
        Decimal.ofUnsigned?_eq ⟨.inl ⟨rfl, rfl⟩, .inr ⟨_, rfl, scaled⟩⟩
          (List.cons_ne_nil first []) joined negative
      rw [places] at read
      exact read
  | cons second rest =>
      refine ⟨⟨value, shortest.exponent, positive, fun negative => ?_, rfl⟩,
        .inl (by simpa using notZero)⟩
      have read := Decimal.ofUnsigned?_eq ⟨.inr rfl, .inr ⟨_, rfl, scaled⟩⟩
        (List.cons_ne_nil first (second :: rest)) joined negative
      rw [places] at read
      simpa using read

end ShortestDigits

namespace Text.DecimalParts

theorem exists_digit (parts : DecimalParts) :
    ∃ first others, parts.text = first :: others ∧ first.isDigit = true := by
  obtain ⟨first, others, shape⟩ := List.exists_cons_of_ne_nil parts.digits.1
  have all := parts.digits.2
  rw [shape, List.all_cons, Bool.and_eq_true] at all
  exact ⟨first, others ++ (parts.fraction ++ parts.exponent),
    by rw [text, shape]; rfl, all.1⟩

/-- A decimal number has no base, no separators and no mark behind it. -/
theorem ofLiteral?_eq (parts : DecimalParts) {signed : Text}
    (sign : signed = parts.text ∨ signed = '-' :: parts.text) :
    Number.ofLiteral? signed = Number.ofDecimal? signed := by
  have characters := List.all_eq_true.1 parts.all_isDecimalCharacter
  obtain ⟨first, others, shape, digit⟩ := parts.exists_digit
  have notMinus : first ≠ '-' := ne_of_class digit rfl
  have all : ∀ character ∈ signed, isDecimalCharacter character = true := by
    rcases sign with rfl | rfl
    · exact characters
    · intro character inside
      rcases List.mem_cons.1 inside with rfl | inside
      · rfl
      · exact characters character inside
  have different {character other : Char} (inside : character ∈ signed)
      (no : isDecimalCharacter other = false) : character ≠ other :=
    ne_of_class (all character inside) no
  have cleaned : signed.filter (· ≠ '_') = signed :=
    List.filter_eq_self.2
      fun character inside => by simpa using different inside rfl
  have unsigned : signed.withoutMinus = parts.text := by
    rcases sign with rfl | rfl
    · rw [shape]
      exact withoutMinus_of_ne notMinus others
    · rfl
  have within : ∀ character ∈ parts.text, character ∈ signed := by
    rcases sign with rfl | rfl
    · exact fun _ => id
    · exact fun _ => List.mem_cons_of_mem _
  rw [Number.ofLiteral?]
  simp only [cleaned, unsigned]
  rw [if_neg]
  · split
    · next mark rest split =>
        have inside : mark ∈ signed := within mark (by simp [split])
        simp [different inside (rfl : isDecimalCharacter 'x' = false),
          different inside (rfl : isDecimalCharacter 'X' = false),
          different inside (rfl : isDecimalCharacter 'o' = false),
          different inside (rfl : isDecimalCharacter 'O' = false),
          different inside (rfl : isDecimalCharacter 'b' = false),
          different inside (rfl : isDecimalCharacter 'B' = false)]
    · rfl
  · intro last
    exact different (within _ (List.mem_of_getLast? last)) rfl rfl

end Text.DecimalParts

namespace ShortestDigits

variable {shortest : ShortestDigits} {first : Char} {others : Text}
    {value : Nat}

/-- The text that shortest digits are printed as begins with a digit and spells
them. -/
theorem exists_spelled (digits : shortest.digits.IsDigits)
    (shape : shortest.digits = first :: others) (notZero : first ≠ '0')
    (found : foldDigits? 10 0 (first :: others) = some value)
    (positive : 0 < value) :
    ∃ head tail,
      head.isDigit = true ∧ Spells (head :: tail) value shortest.exponent ∧
      (if -6 ≤ shortest.leadingPower && shortest.leadingPower < 21 then
        shortest.positional
        else shortest.scientific false) = head :: tail := by
  generalize printed :
    (if -6 ≤ shortest.leadingPower && shortest.leadingPower < 21 then
    shortest.positional else shortest.scientific false) = text
  have spells : Spells text value shortest.exponent := by
    rw [← printed]
    split
    · exact spells_positional shape notZero found positive
    · exact spells_scientific shape notZero found positive
  obtain ⟨parts, same⟩ : ∃ parts : Text.DecimalParts, text = parts.text := by
    rw [← printed]
    split
    · exact exists_positional digits
    · exact exists_scientific digits
  obtain ⟨head, tail, begins, digit⟩ := parts.exists_digit
  rw [same, begins] at spells
  exact ⟨head, tail, digit, spells, same.trans begins⟩

end ShortestDigits

namespace Number

variable {first : Char} {others : Text}

theorem ofDecimal?_of_isDigit (digit : first.isDigit = true) :
    ofDecimal? (first :: others) =
      ((intOfText? 10 (first :: others)).bind ofInt?).or
        (((Decimal.ofUnsigned? false (first :: others)).bind
          Decimal.toBinary64?).map .float) := by
  have notSign (sign : Char) (no : sign.isDigit = false) : first ≠ sign :=
    ne_of_class digit no
  rw [ofDecimal?]
  · have read : Decimal.ofText? (first :: others) =
        Decimal.ofUnsigned? false (first :: others) := by
      rw [Decimal.ofText?]
      · exact fun _ same => notSign '-' rfl (List.cons.inj same).1
      · exact fun _ same => notSign '+' rfl (List.cons.inj same).1
    simp only [read]
    cases (intOfText? 10 (first :: others)).bind ofInt? <;> rfl
  · exact fun _ same => notSign '-' rfl (List.cons.inj same).1
  · exact fun _ same => notSign '.' rfl (List.cons.inj same).1

theorem ofDecimal?_of_minus (digit : first.isDigit = true) :
    ofDecimal? ('-' :: first :: others) =
      ((intOfText? 10 ('-' :: first :: others)).bind ofInt?).or
        (((Decimal.ofUnsigned? true (first :: others)).bind
          Decimal.toBinary64?).map .float) := by
  rw [ofDecimal?]
  · cases (intOfText? 10 ('-' :: first :: others)).bind ofInt? <;> rfl
  · intro rest same
    obtain ⟨-, point⟩ := List.cons.inj same
    rw [(List.cons.inj point).1] at digit
    simp at digit
  · exact fun _ same => absurd (List.cons.inj same).1 (by decide)

theorem ofDecimal?_of_fits {text : Text} {value : Int}
    (found : intOfText? 10 text = some value) (fits : FitsInteger value) :
    ofDecimal? text = some (.integer value fits) := by
  rw [ofDecimal?.eq_def, found, Option.bind_some, ofInt?, dif_pos fits]

theorem ofInt?_eq_some
    {value : Int} {number : Number} (found : ofInt? value = some number) :
    ∃ fits, number = .integer value fits := by
  rw [ofInt?] at found
  split at found
  · next fits => exact ⟨fits, (Option.some.inj found).symm⟩
  · contradiction

/-- The binary number nearest to a number. -/
def toBinary64? : Number → Option Binary64
  | .integer value _ => Decimal.toBinary64? ⟨value < 0, value.natAbs, 0⟩
  | .float value => some value

/-- Digits that are read as an integer are what the integer is written as, and
the shortest digits of a number are those of its integer. -/
theorem natText_of_spells {value natural : Nat} {exponent : Int}
    (spells : ShortestDigits.Spells (first :: others) value exponent)
    (found : natOfDigits? 10 (first :: others) = some natural) :
    natText natural = first :: others ∧ natural ≠ 0 ∧
      (natural : ℚ) = value * ((10 : Nat) : ℚ) ^ exponent := by
  have notZero : first ≠ '0' := by
    rcases spells.begins with different | point
    · simpa using different
    · have digit :=
        List.all_eq_true.1 (all_isDigit_of_foldDigits? found) '.' point
      simp at digit
  have written := natText_of_foldDigits? found notZero
  refine ⟨written, ?_, ?_⟩
  · rintro rfl
    exact notZero (List.cons.inj written).1.symm
  · obtain ⟨coefficient, power, -, reads, same⟩ := spells.reads
    have digits :
        foldDigits? 10 0 ((first :: others) ++ []) = some natural := by
      rw [List.append_nil,
        ← natOfDigits?_of_ne_nil (List.cons_ne_nil first others), found]
    have integral := Decimal.ofUnsigned?_eq ⟨.inl ⟨rfl, rfl⟩, .inl ⟨rfl, rfl⟩⟩
      (by simp) digits false
    rw [List.append_nil, List.append_nil, reads] at integral
    cases integral
    simpa using same

/-- A literal of the shortest digits, with a sign, is read as an integer with
the same literal, to which the number is nearest, or as the number itself. -/
theorem exists_ofDecimal?_of_spells {number : Binary64} {value : Nat}
    {exponent : Int} (digit : first.isDigit = true)
    (spells : ShortestDigits.Spells (first :: others) value exponent)
    (rounds : ∀ decimal : Decimal, 0 < decimal.coefficient →
      decimal.negative = number.negative →
      decimal.magnitude = value * ((10 : Nat) : ℚ) ^ exponent →
      decimal.toBinary64? = some number)
    (written : (Number.float number).literal =
      if number.negative then '-' :: first :: others else first :: others) :
    ∃ other, ofDecimal? (Number.float number).literal = some other ∧
      other.literal = (Number.float number).literal ∧
      other.toBinary64? = some number := by
  obtain ⟨coefficient, power, positive, reads, same⟩ := spells.reads
  have rounded := rounds ⟨number.negative, coefficient, power⟩ positive rfl same
  have nearest {natural : Nat}
      (found : natOfDigits? 10 (first :: others) = some natural) :
      Decimal.toBinary64? ⟨number.negative, natural, 0⟩ = some number := by
    obtain ⟨-, notZero, equal⟩ := natText_of_spells spells found
    apply rounds _ (Nat.pos_of_ne_zero notZero) rfl
    simpa [Decimal.magnitude] using equal
  cases sign : number.negative with
  | false =>
      simp only [sign, Bool.false_eq_true, if_false] at written rounded nearest
      rw [written, ofDecimal?_of_isDigit digit, reads, Option.bind_some,
        rounded]
      cases integral : (intOfText? 10 (first :: others)).bind ofInt? with
      | none => exact ⟨.float number, rfl, written, rfl⟩
      | some other =>
          obtain ⟨integer, found, fits⟩ := Option.bind_eq_some_iff.1 integral
          rw [intOfText?_of_isDigit digit] at found
          obtain ⟨natural, digits, rfl⟩ := Option.map_eq_some_iff.1 found
          obtain ⟨fits, rfl⟩ := ofInt?_eq_some fits
          refine ⟨_, rfl, (natText_of_spells spells digits).1, ?_⟩
          have positive : decide (Int.ofNat natural < 0) = false :=
            decide_eq_false (Int.not_lt.2 (Int.natCast_nonneg natural))
          have size : (Int.ofNat natural).natAbs = natural := rfl
          rw [toBinary64?, positive, size]
          exact nearest digits
  | true =>
      simp only [sign, if_true] at written rounded nearest
      rw [written, ofDecimal?_of_minus digit, reads, Option.bind_some, rounded]
      cases integral : (intOfText? 10 ('-' :: first :: others)).bind ofInt? with
      | none => exact ⟨.float number, rfl, written, rfl⟩
      | some other =>
          obtain ⟨integer, found, fits⟩ := Option.bind_eq_some_iff.1 integral
          rw [intOfText?] at found
          obtain ⟨natural, digits, rfl⟩ := Option.map_eq_some_iff.1 found
          obtain ⟨fits, rfl⟩ := ofInt?_eq_some fits
          obtain ⟨same, notZero, -⟩ := natText_of_spells spells digits
          refine ⟨_, rfl, ?_, ?_⟩
          · obtain ⟨less, rfl⟩ := Nat.exists_eq_succ_of_ne_zero notZero
            exact congrArg ('-' :: ·) same
          · have negative : decide (-Int.ofNat natural < 0) = true := by
              simpa using Nat.pos_of_ne_zero notZero
            have size : (-Int.ofNat natural).natAbs = natural :=
              Int.natAbs_neg _
            rw [toBinary64?, negative, size]
            exact nearest digits

/-- The literal of a binary number other than zero is read as a number with the
same literal, to which the binary number is nearest. -/
theorem exists_ofDecimal?_of_ne_zero
    {number : Binary64} (notZero : number.significand ≠ 0) :
    ∃ other, ofDecimal? (Number.float number).literal = some other ∧
      other.literal = (Number.float number).literal ∧
      other.toBinary64? = some number := by
  have positive := @Binary64.coefficient_shortestDecimal_pos number .up notZero
  obtain ⟨head, tail, natural, shape, noZero, found, more, same⟩ :=
    Decimal.exists_digits positive
  have digits : (number.shortest .up).digits.IsDigits :=
    Decimal.isDigits_digits positive
  obtain ⟨first, others, digit, spells, text⟩ :=
    ShortestDigits.exists_spelled digits shape noZero found more
  have rounds (decimal : Decimal) (coefficient : 0 < decimal.coefficient)
      (sign : decimal.negative = number.negative)
      (magnitude : decimal.magnitude =
        natural * ((10 : Nat) : ℚ) ^ (number.shortest .up).exponent) :
      decimal.toBinary64? = some number := by
    rw [← Binary64.toBinary64?_shortestDecimal notZero .up]
    exact Decimal.toBinary64?_congr coefficient sign (magnitude.trans same)
  have written : (Number.float number).literal =
      if number.negative then '-' :: first :: others else first :: others := by
    rw [literal, if_neg notZero]
    simp only [text]
  exact exists_ofDecimal?_of_spells digit spells rounds written

/-- The other number has the value of the number.  An integer has that value
alone; a binary number shares it with the numbers it is nearest to, and a zero
with the zero of the other sign. -/
def HasValueOf : (number other : Number) → Prop
  | .integer value fits, other => other = .integer value fits
  | .float value, other =>
      ∃ rounded, other.toBinary64? = some rounded ∧ rounded.value = value.value

/-- A number is written as a literal that stands for a number of the same value
and with the same literal. -/
theorem exists_ofLiteral?_literal (number : Number) :
    ∃ other, ofLiteral? number.literal = some other ∧
      other.literal = number.literal ∧
      number.HasValueOf other := by
  obtain ⟨parts, sign⟩ := number.exists_literal
  rw [parts.ofLiteral?_eq sign]
  cases number with
  | integer value fits =>
      exact ⟨_, ofDecimal?_of_fits (intOfText?_intText value) fits, rfl, rfl⟩
  | float value =>
      by_cases zero : value.significand = 0
      · have written : (float value).literal = ['0'] := by
          rw [literal, if_pos zero]
        have rounded : toBinary64? (.integer 0 (by decide)) =
            some (Binary64.zero false) := rfl
        rw [written]
        refine ⟨_, ofDecimal?_of_fits (intOfText?_intText 0) (by decide), rfl,
          _, rounded, ?_⟩
        simp [Binary64.value, Binary64.zero, zero]
      · obtain ⟨other, read, same, nearest⟩ := exists_ofDecimal?_of_ne_zero zero
        exact ⟨other, read, same, value, nearest, rfl⟩

/-- A number is written as a numeral that is read as a number of the same value,
and this number is written as the same numeral. -/
theorem ofLiteral?_literal (number : Number) :
    number.literal.isNumeral = true ∧
    ∃ other, ofLiteral? number.literal = some other ∧ number.HasValueOf other ∧
        other.literal = number.literal := by
  obtain ⟨other, read, same, hasValue⟩ := number.exists_ofLiteral?_literal
  constructor
  · exact number.isNumeral_literal
  · exact ⟨other, read, hasValue, same⟩

end Number

end ConfigEdit
