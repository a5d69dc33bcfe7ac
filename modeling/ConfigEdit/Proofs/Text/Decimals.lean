import ConfigEdit.Proofs.Text.Digits
import Mathlib.Data.List.Induction
import Mathlib.Data.Nat.Log
import Mathlib.Tactic.Ring

/-!
# Decimal digits

Decimal digits have a value, and a run of digits without a zero in front is what
its value is written as.
-/

namespace ConfigEdit

theorem digitCount_eq_log {base : Nat} (more : 1 < base) (value : Nat) :
    digitCount base value = Nat.log base value + 1 := by
  have counts : ∀ fuel count rest, rest ≤ fuel →
      digitCount.go base fuel count rest = count + Nat.log base rest := by
    intro fuel
    induction fuel with
    | zero =>
        intro count rest small
        obtain rfl : rest = 0 := by omega
        simp [digitCount.go]
    | succ fuel induction =>
        intro count rest small
        rw [digitCount.go]
        split
        · next below => rw [Nat.log_of_lt below, Nat.add_zero]
        · next notBelow =>
            have shorter : rest / base < rest := Nat.div_lt_self (by omega) more
            rw [induction (count + 1) (rest / base) (by omega),
              Nat.log_of_one_lt_of_le more (Nat.not_lt.1 notBelow)]
            omega
  rw [digitCount, counts value 1 value (Nat.le_refl _), Nat.add_comm]

theorem exists_digitValue?_of_isDigit
    {character : Char} (digit : character.isDigit = true) :
    ∃ value, digitValue? 10 character = some value ∧ value < 10 ∧
      digitCharacter value = character := by
  have bounds : 48 ≤ character.toNat ∧ character.toNat ≤ 57 := by
    simp only [Char.isDigit, Bool.and_eq_true, decide_eq_true_eq] at digit
    exact digit
  have small : character.toNat - '0'.toNat < 10 := by
    simp only [show '0'.toNat = 48 from rfl]
    omega
  refine ⟨character.toNat - '0'.toNat, ?_, small, ?_⟩
  · simp only [digitValue?, digit, if_true, small]
  · rw [digitCharacter, if_pos small, show '0'.toNat = 48 from rfl,
      Nat.add_sub_cancel' bounds.1, Char.ofNat_toNat]

theorem isDigit_of_digitValue? {character : Char} {value : Nat}
    (found : digitValue? 10 character = some value) :
    character.isDigit = true := by
  cases digit : character.isDigit with
  | true => rfl
  | false =>
      have large {other : Nat} : ¬ other + 10 < 10 := by omega
      simp only [digitValue?, digit, Bool.false_eq_true, if_false] at found
      split at found
      · rw [if_neg large] at found
        contradiction
      · split at found
        · rw [if_neg large] at found
          contradiction
        · rw [if_neg (Nat.lt_irrefl _)] at found
          contradiction

theorem all_isDigit_of_foldDigits? {text : Text} {high value : Nat}
    (found : foldDigits? 10 high text = some value) :
    text.all Char.isDigit = true := by
  induction text generalizing high with
  | nil => rfl
  | cons character others induction =>
      rw [foldDigits?] at found
      split at found
      · next first =>
          rw [List.all_cons, isDigit_of_digitValue? first, induction found,
            Bool.true_and]
      · contradiction

/-- Digits weigh less than the next power of the base, and what is before them
weighs that power. -/
theorem exists_foldDigits? {text : Text} (all : text.all Char.isDigit = true) :
    ∃ value, value < 10 ^ text.length ∧
      ∀ high,
        foldDigits? 10 high text = some (high * 10 ^ text.length + value) := by
  induction text with
  | nil => exact ⟨0, by simp, fun high => by simp [foldDigits?]⟩
  | cons character others induction =>
      rw [List.all_cons, Bool.and_eq_true] at all
      obtain ⟨first, found, small, -⟩ := exists_digitValue?_of_isDigit all.1
      obtain ⟨value, less, further⟩ := induction all.2
      refine ⟨first * 10 ^ others.length + value, ?_, fun high => ?_⟩
      · rw [List.length_cons, Nat.pow_succ]
        have most :=
          Nat.mul_le_mul_right (10 ^ others.length) (by omega : first ≤ 9)
        omega
      · simp only [foldDigits?, found, further, List.length_cons, Nat.pow_succ]
        congr 1
        ring

theorem foldDigits?_zeros (high count : Nat) :
    foldDigits? 10 high (List.replicate count '0') =
      some (high * 10 ^ count) := by
  induction count generalizing high with
  | zero => simp [foldDigits?]
  | succ count induction =>
      rw [List.replicate_succ, foldDigits?,
        show digitValue? 10 '0' = some 0 from rfl]
      simp only [induction, Nat.add_zero, Nat.pow_succ]
      congr 1
      ring

/-- A run of digits is what its value is written as in so many digits. -/
theorem fixedDigits_of_foldDigits? {text : Text} {value : Nat}
    (found : foldDigits? 10 0 text = some value) :
    fixedDigits 10 text.length value = text := by
  induction text using List.reverseRecOn generalizing value with
  | nil => rfl
  | append_singleton others character induction =>
      rw [foldDigits?_append] at found
      obtain ⟨high, before, last⟩ := Option.bind_eq_some_iff.1 found
      rw [foldDigits?] at last
      cases digit : digitValue? 10 character with
      | none => simp [digit] at last
      | some low =>
          obtain ⟨other, same, small, written⟩ :=
            exists_digitValue?_of_isDigit (isDigit_of_digitValue? digit)
          obtain rfl := Option.some.inj (same.symm.trans digit)
          simp only [digit, foldDigits?, Option.some.injEq] at last
          subst last
          have high' : (high * 10 + other) / 10 = high := by omega
          have low' : (high * 10 + other) % 10 = other := by omega
          rw [List.length_append, List.length_singleton, fixedDigits, high',
            low', induction before, written]

theorem natText_of_foldDigits? {first : Char} {others : Text} {value : Nat}
    (found : foldDigits? 10 0 (first :: others) = some value)
    (notZero : first ≠ '0') :
    natText value = first :: others := by
  have all := all_isDigit_of_foldDigits? found
  rw [List.all_cons, Bool.and_eq_true] at all
  obtain ⟨digit, same, small, written⟩ := exists_digitValue?_of_isDigit all.1
  obtain ⟨rest, less, weighs⟩ := exists_foldDigits? all.2
  have whole : value = digit * 10 ^ others.length + rest := by
    rw [foldDigits?, same] at found
    simpa [weighs] using found.symm
  have positive : 1 ≤ digit := by
    rcases Nat.eq_zero_or_pos digit with rfl | positive
    · exact absurd written.symm notZero
    · exact positive
  have below : 10 ^ others.length ≤ value := by
    have least := Nat.mul_le_mul_right (10 ^ others.length) positive
    omega
  have above : value < 10 ^ (others.length + 1) := by
    have most :=
      Nat.mul_le_mul_right (10 ^ others.length) (by omega : digit ≤ 9)
    rw [Nat.pow_succ]
    omega
  have count : digitCount 10 value = (first :: others).length := by
    rw [digitCount_eq_log (by decide),
      Nat.log_eq_of_pow_le_of_lt_pow below above, List.length_cons]
  rw [natText, count, fixedDigits_of_foldDigits? found]

theorem fixedDigits_succ (base width value : Nat) :
    fixedDigits base (width + 1) value =
      digitCharacter (value / base ^ width % base) ::
        fixedDigits base width value := by
  induction width generalizing value with
  | zero => simp [fixedDigits]
  | succ width induction =>
      rw [fixedDigits, induction, fixedDigits, Nat.div_div_eq_div_mul,
        ← Nat.pow_succ', List.cons_append]

theorem exists_natText_of_pos {value : Nat} (positive : 0 < value) :
    ∃ first others, natText value = first :: others ∧ first ≠ '0' := by
  have notZero := Nat.ne_of_gt positive
  have below := Nat.pow_log_le_self 10 notZero
  have above := Nat.lt_pow_succ_log_self (by decide : 1 < 10) value
  rw [natText, digitCount_eq_log (by decide), fixedDigits_succ]
  have least : 1 ≤ value / 10 ^ Nat.log 10 value :=
    Nat.div_pos below (Nat.pow_pos (by decide))
  have most : value / 10 ^ Nat.log 10 value < 10 := by
    rw [Nat.div_lt_iff_lt_mul (Nat.pow_pos (by decide)), Nat.mul_comm,
      ← Nat.pow_succ]
    exact above
  refine ⟨_, _, rfl, fun same => ?_⟩
  rw [Nat.mod_eq_of_lt most] at same
  have digits :
      ∀ digit, digit < 10 → digitCharacter digit = '0' → digit = 0 := by decide
  have := digits _ most same
  omega

end ConfigEdit
