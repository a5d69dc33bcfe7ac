import ConfigEdit.Number.Shortest
import ConfigEdit.Proofs.Text.Decimals
import Mathlib.Data.Int.Log
import Mathlib.Data.Rat.Floor
import Mathlib.Tactic.FieldSimp
import Mathlib.Tactic.NormNum
import Mathlib.Tactic.Positivity

/-!
# Rounding decimal numbers

The binary number that a decimal number is rounded to depends on its value only,
not on how the value is split into a coefficient and a power of ten, and the
exact value of a binary number is rounded to that number.
-/

namespace ConfigEdit

theorem zpow_eq_div (base : Nat) (exponent : Int) :
    (base : ℚ) ^ exponent =
      (base ^ exponent.toNat : Nat) / (base ^ (-exponent).toNat : Nat) := by
  rcases Int.le_total 0 exponent with up | down
  · obtain ⟨n, rfl⟩ := Int.eq_ofNat_of_zero_le up
    simp
  · obtain ⟨n, same⟩ := Int.eq_ofNat_of_zero_le (Int.neg_nonneg.2 down)
    obtain rfl : exponent = -(n : Int) := by omega
    simp

theorem log_mul_zpow {base value : Nat} (more : 1 < base) (positive : 0 < value)
    (exponent : Int) :
    Int.log base ((value : ℚ) * (base : ℚ) ^ exponent) =
      Nat.log base value + exponent := by
  have power : (0 : ℚ) < (base : ℚ) ^ exponent :=
    zpow_pos (by exact_mod_cast by omega) _
  have product : (0 : ℚ) < value * (base : ℚ) ^ exponent :=
    mul_pos (by exact_mod_cast positive) power
  have some : (base : ℚ) ≠ 0 := by exact_mod_cast (by omega : base ≠ 0)
  have scale (places : Nat) : (base : ℚ) ^ ((places : Int) + exponent) =
      (base ^ places : Nat) * (base : ℚ) ^ exponent := by
    rw [zpow_add₀ some]
    simp
  have below : (Nat.log base value : Int) + exponent ≤
      Int.log base (value * (base : ℚ) ^ exponent) := by
    rw [← Int.zpow_le_iff_le_log more product, scale,
      mul_le_mul_iff_left₀ power]
    exact_mod_cast Nat.pow_log_le_self base (Nat.ne_of_gt positive)
  have above : Int.log base (value * (base : ℚ) ^ exponent) <
      (Nat.log base value + 1 : Nat) + exponent := by
    rw [← Int.lt_zpow_iff_log_lt more product, scale,
      mul_lt_mul_iff_left₀ power]
    exact_mod_cast Nat.lt_pow_succ_log_self more value
  omega

namespace Binary64

variable {numerator denominator : Nat}

theorem div_lt_zpow_iff (second : 0 < denominator) (exponent : Int) :
    (numerator : ℚ) / denominator < (2 : Nat) ^ exponent ↔
      numerator * 2 ^ (-exponent).toNat < denominator * 2 ^ exponent.toNat := by
  have left : (0 : ℚ) < denominator := by exact_mod_cast second
  have right : (0 : ℚ) < (2 ^ (-exponent).toNat : Nat) := by positivity
  rw [zpow_eq_div, div_lt_div_iff₀ left right, mul_comm _ (denominator : ℚ)]
  exact_mod_cast Iff.rfl

theorem two_zpow_sub (left right : Nat) :
    ((2 : Nat) : ℚ) ^ ((left : Int) - right) =
      (2 ^ left : Nat) / (2 ^ right : Nat) := by
  rw [zpow_sub₀ (by norm_num)]
  simp

theorem floorLog2_eq_log (first : 0 < numerator) (second : 0 < denominator) :
    floorLog2 numerator denominator =
      Int.log 2 ((numerator : ℚ) / denominator) := by
  have quotient : (0 : ℚ) < (numerator : ℚ) / denominator := by positivity
  have compare := @div_lt_zpow_iff numerator _ second
    (numerator.log2 - denominator.log2)
  have numeratorLow := Nat.log2_self_le (Nat.ne_of_gt first)
  have numeratorHigh := @Nat.lt_log2_self numerator
  have denominatorLow := Nat.log2_self_le (Nat.ne_of_gt second)
  have denominatorHigh := @Nat.lt_log2_self denominator
  -- The powers of two below both numbers give the power to within one.
  have below : (numerator.log2 : Int) - denominator.log2 - 1 ≤
      Int.log 2 ((numerator : ℚ) / denominator) := by
    have same : (numerator.log2 : Int) - denominator.log2 - 1 =
        (numerator.log2 : Int) - (denominator.log2 + 1 : Nat) := by omega
    rw [← Int.zpow_le_iff_le_log (by decide) quotient, same, two_zpow_sub]
    apply div_le_div₀
    · positivity
    · exact_mod_cast numeratorLow
    · exact_mod_cast second
    · exact_mod_cast denominatorHigh.le
  have above : Int.log 2 ((numerator : ℚ) / denominator) <
      (numerator.log2 : Int) - denominator.log2 + 1 := by
    have same : (numerator.log2 : Int) - denominator.log2 + 1 =
        (numerator.log2 + 1 : Nat) - (denominator.log2 : Int) := by omega
    rw [← Int.lt_zpow_iff_log_lt (by decide) quotient, same, two_zpow_sub]
    apply div_lt_div₀
    · exact_mod_cast numeratorHigh
    · exact_mod_cast denominatorLow
    · positivity
    · positivity
  rw [Int.lt_zpow_iff_log_lt (by decide) quotient] at compare
  rw [floorLog2]
  simp only [Int.ofNat_eq_natCast]
  split
  · next less =>
      have := compare.2 less
      omega
  · next notLess =>
      have := mt compare.1 notLess
      omega

theorem roundEven_mul
    {factor : Nat} (positive : 0 < factor) (numerator denominator : Nat) :
    roundEven (numerator * factor) (denominator * factor) =
      roundEven numerator denominator := by
  have twice : 2 * (numerator % denominator * factor) =
      2 * (numerator % denominator) * factor :=
    (Nat.mul_assoc _ _ _).symm
  rw [roundEven, roundEven]
  simp only [Nat.mul_div_mul_right _ _ positive, Nat.mul_mod_mul_right, twice,
    Nat.mul_lt_mul_right positive]

/-- Only the value of the quotient matters, not how it is written. -/
theorem ofRatio?_mul {factor : Nat} (positive : 0 < factor) (negative : Bool)
    (numerator denominator : Nat) :
    ofRatio? negative (numerator * factor) (denominator * factor) =
      ofRatio? negative numerator denominator := by
  rcases Nat.eq_zero_or_pos numerator with rfl | first
  · simp [ofRatio?]
  rcases Nat.eq_zero_or_pos denominator with rfl | second
  · simp [ofRatio?]
  have some : (factor : ℚ) ≠ 0 := by positivity
  have same : floorLog2 (numerator * factor) (denominator * factor) =
      floorLog2 numerator denominator := by
    rw [floorLog2_eq_log (Nat.mul_pos first positive)
      (Nat.mul_pos second positive), floorLog2_eq_log first second,
      Nat.cast_mul, Nat.cast_mul, mul_div_mul_right _ _ some]
  have swap (left right : Nat) :
      left * factor * right = left * right * factor :=
    Nat.mul_right_comm _ _ _
  rw [ofRatio?, ofRatio?]
  simp only [same, swap, roundEven_mul positive]
  simp [Nat.ne_of_gt first, Nat.ne_of_gt second, Nat.ne_of_gt positive]

theorem ofRatio?_congr {numerator denominator other divisor : Nat}
    (second : 0 < denominator) (fourth : 0 < divisor)
    (same : numerator * divisor = other * denominator) (negative : Bool) :
    ofRatio? negative numerator denominator =
      ofRatio? negative other divisor := by
  rw [← ofRatio?_mul fourth, same, Nat.mul_comm denominator,
    ofRatio?_mul second]

theorem numerator_div_denominator (number : Binary64) :
    (number.numerator : ℚ) / number.denominator =
      number.significand * ((2 : Nat) : ℚ) ^ number.exponent := by
  rw [zpow_eq_div, numerator, denominator]
  simp only [Nat.pow_eq]
  push_cast
  ring

theorem denominator_pos (number : Binary64) : 0 < number.denominator :=
  Nat.pow_pos (by decide)

/-- The exponent that rounding finds for a number of the format is its own. -/
theorem exponent_eq {number : Binary64} (notZero : number.significand ≠ 0) :
    max (floorLog2 number.numerator number.denominator - 52) (-1074) =
      number.exponent := by
  obtain ⟨bound, least, -, normal⟩ := number.represents
  have positive : 0 < number.significand := Nat.pos_of_ne_zero notZero
  have first : 0 < number.numerator :=
    Nat.mul_pos positive (Nat.pow_pos (by decide))
  rw [floorLog2_eq_log first number.denominator_pos, numerator_div_denominator,
    log_mul_zpow (by decide) positive]
  have above : Nat.log 2 number.significand < 53 :=
    Nat.log_lt_of_lt_pow notZero bound
  rcases normal with high | lowest
  · have below : 52 ≤ Nat.log 2 number.significand :=
      Nat.le_log_of_pow_le (by decide) high
    omega
  · omega

theorem ofRatio?_self
    {number : Binary64} (notZero : number.significand ≠ 0) (negative : Bool) :
    ofRatio? negative number.numerator number.denominator =
      some { number with negative } := by
  have first : number.numerator ≠ 0 :=
    Nat.ne_of_gt
      (Nat.mul_pos (Nat.pos_of_ne_zero notZero) (Nat.pow_pos (by decide)))
  have second : number.denominator ≠ 0 := Nat.ne_of_gt number.denominator_pos
  have rounded :
      roundEven (number.numerator * Nat.pow 2 (-number.exponent).toNat)
        (number.denominator * Nat.pow 2 number.exponent.toNat) =
        number.significand := by
    have factor : 0 <
        Nat.pow 2 number.exponent.toNat * Nat.pow 2 (-number.exponent).toNat :=
      Nat.mul_pos (Nat.pow_pos (by decide)) (Nat.pow_pos (by decide))
    have scaled := roundEven_mul factor number.significand 1
    have swap := Nat.mul_comm (Nat.pow 2 (-number.exponent).toNat)
      (Nat.pow 2 number.exponent.toNat)
    rw [Nat.one_mul] at scaled
    rw [numerator, denominator, Nat.mul_assoc, swap, scaled]
    simp [roundEven, Nat.mod_one]
  rw [ofRatio?]
  simp only [first, second, exponent_eq notZero, rounded, decide_false,
    Bool.or_self, Bool.false_eq_true, if_false]
  rw [ofParts?, dif_pos number.represents]

end Binary64
namespace Binary64

/-- The number with another sign. -/
def withSign (negative : Bool) (number : Binary64) : Binary64 :=
  { number with negative }

theorem ofRatio?_withSign (negative : Bool) (numerator denominator : Nat) :
    ofRatio? negative numerator denominator =
      (ofRatio? false numerator denominator).map (withSign negative) := by
  rw [ofRatio?, ofRatio?]
  simp only
  split
  · rfl
  · rw [ofParts?, ofParts?]
    split
    · rfl
    · split <;> rfl

end Binary64

namespace Decimal

/-- The value of a decimal number without its sign. -/
def magnitude (decimal : Decimal) : ℚ :=
  decimal.coefficient * ((10 : Nat) : ℚ) ^ decimal.exponent

theorem magnitude_eq_div (decimal : Decimal) :
    decimal.magnitude =
      (decimal.coefficient * Nat.pow 10 decimal.exponent.toNat : Nat) /
        (Nat.pow 10 (-decimal.exponent).toNat : Nat) := by
  rw [magnitude, zpow_eq_div]
  simp only [Nat.pow_eq]
  push_cast
  ring

theorem magnitude_pos {decimal : Decimal} :
    0 < decimal.magnitude ↔ 0 < decimal.coefficient := by
  have power : (0 : ℚ) < ((10 : Nat) : ℚ) ^ decimal.exponent :=
    zpow_pos (by norm_num) _
  rw [magnitude, mul_pos_iff_of_pos_right power]
  exact_mod_cast Iff.rfl

theorem toBinary64?_eq
    {decimal : Decimal} (positive : 0 < decimal.coefficient) :
    decimal.toBinary64? =
      if Int.log 10 decimal.magnitude + 1 < -400 then
        some (Binary64.zero decimal.negative)
      else if 400 < Int.log 10 decimal.magnitude + 1 then none
      else
        Binary64.ofRatio? decimal.negative
          (decimal.coefficient * Nat.pow 10 decimal.exponent.toNat)
          (Nat.pow 10 (-decimal.exponent).toNat) := by
  have log := log_mul_zpow (by decide : 1 < 10) positive decimal.exponent
  have size : Int.ofNat (digitCount 10 decimal.coefficient) + decimal.exponent =
      Int.log 10 decimal.magnitude + 1 := by
    rw [digitCount_eq_log (by decide), magnitude, log, Int.ofNat_eq_natCast]
    omega
  rw [toBinary64?]
  simp only [size, Nat.ne_of_gt positive, decide_false, Bool.false_or,
    decide_eq_true_eq]

/-- Rounding a decimal number is rounding any quotient of the same value. -/
theorem ofRatio?_eq
    {decimal : Decimal} {numerator denominator : Nat} (second : 0 < denominator)
    (same : decimal.magnitude = (numerator : ℚ) / denominator)
    (negative : Bool) :
    Binary64.ofRatio? negative
      (decimal.coefficient * Nat.pow 10 decimal.exponent.toNat)
      (Nat.pow 10 (-decimal.exponent).toNat) =
      Binary64.ofRatio? negative numerator denominator := by
  have tens : 0 < Nat.pow 10 (-decimal.exponent).toNat :=
    Nat.pow_pos (by decide)
  apply Binary64.ofRatio?_congr tens second
  have left : ((Nat.pow 10 (-decimal.exponent).toNat : Nat) : ℚ) ≠ 0 := by
    exact_mod_cast Nat.ne_of_gt tens
  have right : (denominator : ℚ) ≠ 0 := by exact_mod_cast Nat.ne_of_gt second
  rw [magnitude_eq_div, div_eq_div_iff left right] at same
  exact_mod_cast same

theorem toBinary64?_congr {left right : Decimal}
    (positive : 0 < left.coefficient) (signs : left.negative = right.negative)
    (same : left.magnitude = right.magnitude) :
    left.toBinary64? = right.toBinary64? := by
  have other : 0 < right.coefficient := by
    rw [← magnitude_pos, ← same, magnitude_pos]
    exact positive
  have tens : 0 < Nat.pow 10 (-right.exponent).toNat := Nat.pow_pos (by decide)
  have rounded :=
    ofRatio?_eq tens (same.trans right.magnitude_eq_div) right.negative
  rw [toBinary64?_eq positive, toBinary64?_eq other, same, signs, rounded]

theorem toBinary64?_withSign (negative : Bool) (decimal : Decimal) :
    toBinary64? { decimal with negative } =
      (toBinary64? { decimal with negative := false }).map
        (Binary64.withSign negative) := by
  rw [toBinary64?, toBinary64?]
  simp only
  split
  · rfl
  · split
    · rfl
    · exact Binary64.ofRatio?_withSign _ _ _

end Decimal

namespace Binary64

theorem magnitude_exactDecimal (number : Binary64) :
    number.exactDecimal.magnitude =
      number.significand * ((2 : Nat) : ℚ) ^ number.exponent := by
  rw [Decimal.magnitude, exactDecimal, numerator]
  simp only [Nat.pow_eq]
  rcases Int.le_total 0 number.exponent with up | down
  · obtain ⟨places, same⟩ := Int.eq_ofNat_of_zero_le up
    rw [same]
    simp
  · obtain ⟨places, same⟩ := Int.eq_ofNat_of_zero_le (Int.neg_nonneg.2 down)
    obtain same : number.exponent = -(places : Int) := by omega
    have tens : (10 : ℚ) ^ places = 5 ^ places * 2 ^ places := by
      rw [← mul_pow]
      norm_num
    rw [same]
    simp [tens]
    field_simp

theorem toBinary64?_exactDecimal
    {number : Binary64} (notZero : number.significand ≠ 0) :
    Decimal.toBinary64? number.exactDecimal = some number.magnitude := by
  obtain ⟨bound, least, most, -⟩ := number.represents
  have positive : 0 < number.significand := Nat.pos_of_ne_zero notZero
  have coefficient : 0 < number.exactDecimal.coefficient :=
    Nat.mul_pos (Nat.mul_pos positive (Nat.pow_pos (by decide)))
      (Nat.pow_pos (by decide))
  have value := number.magnitude_exactDecimal
  have some : 0 < number.exactDecimal.magnitude :=
    Decimal.magnitude_pos.2 coefficient
  -- The numbers of the format lie far within the range of powers of ten.
  have above : Int.log 10 number.exactDecimal.magnitude < 399 := by
    rw [← Int.lt_zpow_iff_log_lt (by decide) some, value]
    calc number.significand * ((2 : Nat) : ℚ) ^ number.exponent
        < (2 ^ 53 : Nat) * ((2 : Nat) : ℚ) ^ number.exponent := by
          apply mul_lt_mul_of_pos_right _ (zpow_pos (by norm_num) _)
          exact_mod_cast bound
      _ ≤ (2 ^ 53 : Nat) * ((2 : Nat) : ℚ) ^ (971 : Int) := by
          apply mul_le_mul_of_nonneg_left _ (by positivity)
          exact zpow_le_zpow_right₀ (by norm_num) most
      _ ≤ ((10 : Nat) : ℚ) ^ (399 : Int) := by
          have tall : 2 ^ 53 * 2 ^ 971 ≤ 10 ^ 399 := by decide +kernel
          rw [zpow_ofNat, zpow_ofNat]
          exact_mod_cast tall
  have below : -400 ≤ Int.log 10 number.exactDecimal.magnitude := by
    rw [← Int.zpow_le_iff_le_log (by decide) some, value]
    calc ((10 : Nat) :
        ℚ) ^ (-400 : Int) ≤ (1 : Nat) * ((2 : Nat) : ℚ) ^ (-1074 : Int) := by
          have tall : 2 ^ 1074 ≤ 10 ^ 400 := by decide +kernel
          rw [Nat.cast_one, one_mul, zpow_neg, zpow_neg, zpow_ofNat, zpow_ofNat]
          apply inv_anti₀ (by positivity)
          exact_mod_cast tall
      _ ≤ (1 : Nat) * ((2 : Nat) : ℚ) ^ number.exponent := by
          apply mul_le_mul_of_nonneg_left _ (by positivity)
          exact zpow_le_zpow_right₀ (by norm_num) least
      _ ≤ number.significand * ((2 : Nat) : ℚ) ^ number.exponent := by
          apply mul_le_mul_of_nonneg_right _ (zpow_pos (by norm_num) _).le
          exact_mod_cast positive
  have rounded := Decimal.ofRatio?_eq number.denominator_pos
    (value.trans number.numerator_div_denominator.symm) false
  rw [Decimal.toBinary64?_eq coefficient, if_neg (by omega), if_neg (by omega)]
  exact rounded.trans (ofRatio?_self notZero false)

end Binary64

end ConfigEdit
