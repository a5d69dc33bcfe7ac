import ConfigEdit.Text.Digits
import Mathlib.Algebra.Group.Nat.Defs
import Mathlib.Data.List.Basic

/-!
# Digits read back

A digit has the value that it is written for, and a run of digits the value of
its places.
-/

namespace ConfigEdit

private theorem digitCharacter_cases : ∀ value, value < 36 →
    ((digitCharacter value).isDigit = true ∧ value < 10 ∧
      (digitCharacter value).toNat - 48 = value) ∨
    ((digitCharacter value).isDigit = false ∧
      ('a' ≤ digitCharacter value && digitCharacter value ≤ 'z') = true ∧
      (digitCharacter value).toNat - 97 + 10 = value) := by
  decide

theorem digitValue?_digitCharacter {base value : Nat} (small : value < base)
    (bound : base ≤ 36) :
    digitValue? base (digitCharacter value) = some value := by
  rw [digitValue?]
  rcases digitCharacter_cases value (Nat.lt_of_lt_of_le small bound) with
    ⟨digit, -, same⟩ | ⟨notDigit, letter, same⟩
  · simp [digit, same, small]
  · simp [notDigit, letter, same, small]

theorem isDigit_digitCharacter {value : Nat} (small : value < 10) :
    (digitCharacter value).isDigit = true := by
  rcases digitCharacter_cases value (by omega) with ⟨digit, -⟩ | ⟨-, -, same⟩
  · exact digit
  · omega

theorem isHexDigit_eq_isSome (character : Char) :
    isHexDigit character = (digitValue? 16 character).isSome := by
  have order (left right : Char) : left ≤ right ↔ left.toNat ≤ right.toNat :=
    Iff.rfl
  have isSome (value : Nat) :
      (if value < 16 then some value else none).isSome = true ↔ value < 16 := by
    split <;> simp [*]
  rw [isHexDigit, digitValue?, Bool.eq_iff_iff, isSome]
  simp only [order, Bool.or_eq_true, Bool.and_eq_true, decide_eq_true_eq,
    Char.isDigit_iff_toNat, Char.reduceToNat]
  split
  · omega
  · split
    · omega
    · split <;> omega

theorem length_fixedDigits (base width value : Nat) :
    (fixedDigits base width value).length = width := by
  induction width generalizing value with
  | zero => rfl
  | succ width induction => simp [fixedDigits, induction]

theorem exists_digit_of_mem_fixedDigits
    {base width value : Nat} (positive : 0 < base)
    {character : Char} (inside : character ∈ fixedDigits base width value) :
    ∃ digit, digit < base ∧ character = digitCharacter digit := by
  induction width generalizing value with
  | zero => simp [fixedDigits] at inside
  | succ width induction =>
      rw [fixedDigits, List.mem_append, List.mem_singleton] at inside
      rcases inside with before | rfl
      · exact induction before
      · exact ⟨value % base, Nat.mod_lt _ positive, rfl⟩

theorem natOfText?_of_ne_plus
    {first : Char} (notPlus : first ≠ '+') (base : Nat) (others : Text) :
    natOfText? base (first :: others) =
      natOfDigits? base (first :: others) := by
  rw [natOfText?]
  intro digits same
  exact notPlus (List.cons.inj same).1

theorem foldDigits?_append (base : Nat) (left right : Text) (high : Nat) :
    foldDigits? base high (left ++ right) =
      (foldDigits? base high left).bind
        fun value => foldDigits? base value right := by
  induction left generalizing high with
  | nil => rfl
  | cons character rest induction =>
      rw [List.cons_append, foldDigits?, foldDigits?]
      cases digitValue? base character with
      | none => rfl
      | some value => exact induction _

/-- The digits of a number are read as the number, behind the digits of
`high`. -/
theorem foldDigits?_fixedDigits {base width value : Nat} (positive : 0 < base)
    (bound : base ≤ 36) (small : value < base ^ width) (high : Nat) :
    foldDigits? base high (fixedDigits base width value) =
      some (high * base ^ width + value) := by
  induction width generalizing value with
  | zero =>
      have none' : value = 0 := by simpa using small
      simp [fixedDigits, foldDigits?, none']
  | succ width induction =>
      have smaller : value / base < base ^ width := by
        rw [Nat.div_lt_iff_lt_mul positive]
        rwa [Nat.pow_succ] at small
      rw [fixedDigits, foldDigits?_append, induction smaller, Option.bind_some,
        foldDigits?, digitValue?_digitCharacter (Nat.mod_lt _ positive) bound]
      have whole := Nat.div_add_mod value base
      have comm : value / base * base = base * (value / base) :=
        Nat.mul_comm _ _
      have high' : high * base ^ width * base = high * base ^ (width + 1) := by
        rw [Nat.mul_assoc, ← Nat.pow_succ]
      simp only [foldDigits?, Option.some.injEq]
      rw [Nat.add_mul, high']
      omega

/-- A number is below the power of its base that has as many zeros as the
number has digits. -/
theorem lt_pow_digitCount {base value : Nat} (more : 1 < base) :
    value < base ^ digitCount base value ∧ 1 ≤ digitCount base value := by
  have counts : ∀ fuel count rest, rest ≤ fuel →
      ∃ further, digitCount.go base fuel count rest = count + further ∧
        rest < base ^ (further + 1) := by
    intro fuel
    induction fuel with
    | zero =>
        intro count rest small
        exact ⟨0, rfl, by simp; omega⟩
    | succ fuel induction =>
        intro count rest small
        rw [digitCount.go]
        split
        · next below => exact ⟨0, rfl, by simpa using below⟩
        · next notBelow =>
            have shorter : rest / base < rest := Nat.div_lt_self (by omega) more
            obtain ⟨further, same, bound⟩ :=
              induction (count + 1) (rest / base) (by omega)
            refine ⟨further + 1, by omega, ?_⟩
            rw [Nat.div_lt_iff_lt_mul (by omega)] at bound
            rwa [Nat.pow_succ]
  obtain ⟨further, same, bound⟩ := counts value 1 value (Nat.le_refl _)
  rw [digitCount, same, Nat.add_comm]
  exact ⟨bound, by omega⟩

theorem natText_digits (value : Nat) :
    natText value ≠ [] ∧ (natText value).all Char.isDigit = true := by
  constructor
  · intro empty
    have length := length_fixedDigits 10 (digitCount 10 value) value
    rw [← natText, empty] at length
    have positive := (@lt_pow_digitCount 10 value (by decide)).2
    simp only [List.length_nil] at length
    omega
  · rw [List.all_eq_true]
    intro character inside
    obtain ⟨digit, small, rfl⟩ :=
      exists_digit_of_mem_fixedDigits (by decide) inside
    exact isDigit_digitCharacter small

theorem exists_ne_zero_of_natText {value : Nat} (positive : 0 < value) :
    ∃ character ∈ natText value, character ≠ '0' := by
  by_contra none'
  simp only [not_exists, not_and, not_not] at none'
  have zeros : ∀ text : Text, (∀ character ∈ text, character = '0') →
      foldDigits? 10 0 text = some 0 := by
    intro text all
    induction text with
    | nil => rfl
    | cons character others induction =>
        rw [all character List.mem_cons_self, foldDigits?]
        exact induction fun other inside =>
          all other (List.mem_cons_of_mem _ inside)
  have read := foldDigits?_fixedDigits (by decide) (by decide)
    (@lt_pow_digitCount 10 value (by decide)).1 0
  rw [← natText, zeros _ none'] at read
  simp only [Nat.zero_mul, Nat.zero_add, Option.some.injEq] at read
  omega

end ConfigEdit
