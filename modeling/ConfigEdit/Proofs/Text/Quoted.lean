import ConfigEdit.Proofs.Scan.Tokens
import ConfigEdit.Proofs.Text.Digits
import ConfigEdit.Text.Quoted

/-!
# Quoted strings read back

What is written between quotation marks ends at the mark behind it and stands
for the text it was written for.
-/

namespace ConfigEdit.Text

theorem unescape_cons
    {character : Char} (notBackslash : character ≠ '\\') (rest : Text) :
    unescape (character :: rest) = character :: unescape rest := by
  rw [unescape.eq_def]
  split
  · contradiction
  · simp_all
  · simp_all
  · next found =>
      cases found
      rfl

theorem unescape_backslash (character : Char) (rest : Text) :
    unescape ('\\' :: character :: rest) =
      (decodeEscape character rest).1 ++
        unescape (decodeEscape character rest).2 := by
  rw [unescape]

private theorem hexDigit_cases : ∀ value, value < 16 →
    isHexDigit (digitCharacter value) = true ∧ digitCharacter value ≠ '+' := by
  decide

private theorem hexDigit_plain : ∀ value, value < 16 →
    digitCharacter value ≠ '\n' ∧ digitCharacter value ≠ '\\' ∧
      digitCharacter value ≠ '\x27' ∧ digitCharacter value ≠ '\x22' := by
  decide

theorem readUnicode_append {digits : Text} (length : digits.length = 4)
    (all : digits.all isHexDigit = true) (rest : Text) :
    readUnicode (digits ++ rest) = (codeOfHex? digits, rest) := by
  have taken : (digits ++ rest).take 4 = digits := by
    rw [← length, List.take_left]
  have dropped : (digits ++ rest).drop 4 = rest := by
    rw [← length, List.drop_left]
  rw [readUnicode]
  · simp [taken, dropped, length, all]
  · intro braced same
    obtain ⟨first, others, rfl⟩ :=
      List.exists_cons_of_length_pos (by rw [length]; decide)
    obtain ⟨rfl, -⟩ := List.cons.inj same
    simp [isHexDigit] at all

/-- Four digits of a code that is no half of a surrogate pair. -/
private theorem decodeUnicode_fixedDigits
    {character : Char} (small : character.toNat < 16 ^ 4) (rest : Text) :
    decodeUnicode (fixedDigits 16 4 character.toNat ++ rest) =
      ([character], rest) := by
  have length := length_fixedDigits 16 4 character.toNat
  have digit : ∀ other ∈ fixedDigits 16 4 character.toNat,
      isHexDigit other = true ∧ other ≠ '+' := by
    intro other inside
    obtain ⟨value, bound, rfl⟩ :=
      exists_digit_of_mem_fixedDigits (by decide) inside
    exact hexDigit_cases value bound
  have value := foldDigits?_fixedDigits (by decide) (by decide) small 0
  obtain ⟨first, others, shape⟩ :=
    List.exists_cons_of_length_pos
      (by rw [length]; decide : 0 < (fixedDigits 16 4 _).length)
  rw [shape] at length digit value ⊢
  have code : codeOfHex? (first :: others) = some character.toNat := by
    have nat : natOfText? 16 (first :: others) = some character.toNat := by
      rw [natOfText?_of_ne_plus (digit first List.mem_cons_self).2]
      simpa [natOfDigits?] using value
    have fits : character.toNat < UInt32.size := Nat.lt_trans small (by decide)
    simp [codeOfHex?, nat, fits]
  have all : (first :: others).all isHexDigit = true :=
    List.all_eq_true.2 fun other inside => (digit other inside).1
  have valid : character.toNat.isValidChar := character.valid
  have notHigh : isHighSurrogate character.toNat = false := by
    rw [isHighSurrogate, Bool.and_eq_false_iff, decide_eq_false_iff_not,
      decide_eq_false_iff_not]
    rcases valid with below | above <;> omega
  rw [decodeUnicode, readUnicode_append length all, code]
  simp [notHigh, characterOrReplacement, valid]

/-- The ways in which a character is written: as itself, as a letter behind a
backslash, or by its code. -/
theorem escapeCharacter_cases
    {mark : Char} (quotes : isQuotationMark mark = true) (character : Char) :
    (escapeCharacter mark character = [character] ∧ character ≠ '\\' ∧
      character ≠ '\n' ∧
      character ≠ mark) ∨
    (∃ letter, escapeCharacter mark character = ['\\', letter] ∧
      ∀ rest, decodeEscape letter rest = ([character], rest)) ∨
    (escapeCharacter mark character =
      '\\' :: 'u' :: fixedDigits 16 4 character.toNat ∧
      character.toNat < 16 ^ 4) := by
  rw [escapeCharacter]
  split
  · next same => exact .inr (.inl ⟨'\\', rfl, fun rest => by rw [same]; rfl⟩)
  · next notBackslash =>
  split
  · next same => exact .inr (.inl ⟨'n', rfl, fun rest => by rw [same]; rfl⟩)
  · next notBreak =>
  split
  · next same => exact .inr (.inl ⟨'r', rfl, fun rest => by rw [same]; rfl⟩)
  split
  · next same => exact .inr (.inl ⟨'t', rfl, fun rest => by rw [same]; rfl⟩)
  split
  · next same => exact .inr (.inl ⟨'b', rfl, fun rest => by rw [same]; rfl⟩)
  split
  · next same => exact .inr (.inl ⟨'f', rfl, fun rest => by rw [same]; rfl⟩)
  split
  · next same =>
      refine .inr (.inl ⟨character, rfl, fun rest => ?_⟩)
      rw [same]
      rcases mem_of_isQuotationMark quotes with rfl | rfl <;> rfl
  · next notMark =>
  split
  · next coded =>
      refine .inr (.inr ⟨rfl, ?_⟩)
      simp only [isControl, Bool.or_eq_true, Bool.and_eq_true,
        decide_eq_true_eq] at coded
      rcases coded with ((low | high) | rfl) | rfl
      · omega
      · omega
      · decide
      · decide
  · exact .inl ⟨rfl, notBackslash, notBreak, notMark⟩

/-- Characters that end a line: line feed, carriage return, U+2028 and
U+2029. -/
def isLineTerminator (character : Char) : Bool :=
  character = '\n' || character = '\r' || character = '\u2028' ||
    character = '\u2029'

private theorem isLineTerminator_digitCharacter : ∀ value, value < 16 →
    isLineTerminator (digitCharacter value) = false := by
  decide

theorem isLineTerminator_of_mem_escapeCharacter {mark : Char}
    (quotes : isQuotationMark mark = true) {character other : Char}
    (inside : other ∈ escapeCharacter mark character) :
    isLineTerminator other = false := by
  have noMark : isLineTerminator mark = false := by
    rcases mem_of_isQuotationMark quotes with rfl | rfl <;> decide
  have pair {letter : Char} (plain : isLineTerminator letter = false)
      (inside : other ∈ ['\\', letter]) : isLineTerminator other = false := by
    rcases List.mem_pair.1 inside with rfl | rfl
    · decide
    · exact plain
  rw [escapeCharacter] at inside
  split at inside
  · exact pair (by decide) inside
  split at inside
  · exact pair (by decide) inside
  next notFeed =>
  split at inside
  · exact pair (by decide) inside
  next notReturn =>
  split at inside
  · exact pair (by decide) inside
  split at inside
  · exact pair (by decide) inside
  split at inside
  · exact pair (by decide) inside
  split at inside
  · next same => exact pair (same ▸ noMark) inside
  split at inside
  · rcases List.mem_cons.1 inside with rfl | inside
    · decide
    rcases List.mem_cons.1 inside with rfl | inside
    · decide
    obtain ⟨value, small, rfl⟩ :=
      exists_digit_of_mem_fixedDigits (by decide) inside
    exact isLineTerminator_digitCharacter value small
  · next plain =>
      simp only [Bool.or_eq_true, decide_eq_true_eq, not_or] at plain
      obtain rfl := List.mem_singleton.1 inside
      simp [isLineTerminator, notFeed, notReturn, plain]

theorem isLineTerminator_of_mem_quote {text : Text} {style : QuoteStyle}
    {character : Char} (inside : character ∈ text.quote style) :
    isLineTerminator character = false := by
  have quotes : isQuotationMark style.mark = true := by cases style <;> rfl
  have noMark : isLineTerminator style.mark = false := by cases style <;> rfl
  rw [quote, List.mem_append, List.mem_cons, List.mem_singleton] at inside
  rcases inside with (rfl | inside) | rfl
  · exact noMark
  · obtain ⟨written, -, inside⟩ := List.mem_flatMap.1 inside
    exact isLineTerminator_of_mem_escapeCharacter quotes inside
  · exact noMark

/-- One character that has been written is read back. -/
theorem unescape_escapeCharacter {mark : Char}
    (quotes : isQuotationMark mark = true) (character : Char) (rest : Text) :
    unescape (escapeCharacter mark character ++ rest) =
      character :: unescape rest := by
  rcases escapeCharacter_cases quotes character with
    ⟨written, notBackslash, -⟩ | ⟨letter, written, decodes⟩ | ⟨written, small⟩
  · rw [written]
    exact unescape_cons notBackslash rest
  · rw [written]
    have read := unescape_backslash letter rest
    rw [decodes] at read
    exact read
  · rw [written]
    have read :=
      unescape_backslash 'u' (fixedDigits 16 4 character.toNat ++ rest)
    have code : decodeEscape 'u' (fixedDigits 16 4 character.toNat ++ rest) =
        ([character], rest) := decodeUnicode_fixedDigits small rest
    rw [code] at read
    exact read

theorem unescape_escape
    {mark : Char} (quotes : isQuotationMark mark = true) (text : Text) :
    unescape (escape mark text) = text := by
  induction text with
  | nil => simp [escape, unescape]
  | cons character rest induction =>
      rw [escape, List.flatMap_cons, unescape_escapeCharacter quotes]
      exact congrArg _ induction

private theorem skipStringBody_plain {mark character : Char}
    (notBreak : character ≠ '\n') (notBackslash : character ≠ '\\')
    (notMark : character ≠ mark) (opener rest : Text) :
    skipStringBody opener mark (character :: rest) =
      skipStringBody opener mark rest := by
  rw [skipStringBody]
  · rw [if_neg notMark]
  · exact notBreak
  · exact fun same => absurd same notBackslash
  · exact fun _ _ same => absurd same notBackslash

/-- A string does not end in a character that has been written. -/
theorem skipStringBody_escapeCharacter
    {mark : Char} (quotes : isQuotationMark mark = true)
    (opener : Text) (character : Char) (rest : Text) :
    skipStringBody opener mark (escapeCharacter mark character ++ rest) =
      skipStringBody opener mark rest := by
  rcases escapeCharacter_cases quotes character with
    ⟨written, notBackslash, notBreak, notMark⟩ | ⟨letter, written, -⟩ |
      ⟨written, -⟩
  · rw [written]
    exact skipStringBody_plain notBreak notBackslash notMark opener rest
  · rw [written]
    simp [skipStringBody]
  · rw [written, List.cons_append, List.cons_append, skipStringBody]
    have digits : ∀ digits : Text, (∀ digit ∈ digits, ∃ value, value < 16 ∧
        digit = digitCharacter value) →
        skipStringBody opener mark (digits ++ rest) =
          skipStringBody opener mark rest := by
      intro digits all
      induction digits with
      | nil => rfl
      | cons digit others induction =>
          obtain ⟨value, bound, same⟩ := all digit List.mem_cons_self
          obtain ⟨notBreak, notBackslash, notSingle, notDouble⟩ :=
            hexDigit_plain value bound
          rw [← same] at notBreak notBackslash notSingle notDouble
          rw [List.cons_append,
            skipStringBody_plain notBreak notBackslash _ opener]
          · exact induction fun other inside =>
              all other (List.mem_cons_of_mem _ inside)
          · rcases mem_of_isQuotationMark quotes with rfl | rfl
            · exact notSingle
            · exact notDouble
    exact digits _
      fun digit inside => exists_digit_of_mem_fixedDigits (by decide) inside

theorem closesString_escape
    {mark : Char} (quotes : isQuotationMark mark = true) (text : Text) :
    ClosesString mark (escape mark text) := by
  intro rest
  have ends : ∀ opener,
      skipStringBody opener mark (escape mark text ++ mark :: rest) =
        .ok rest := by
    intro opener
    induction text with
    | nil =>
        rcases mem_of_isQuotationMark quotes with rfl | rfl <;>
          simp [escape, skipStringBody]
    | cons character others induction =>
        rw [escape, List.flatMap_cons, List.append_assoc,
          skipStringBody_escapeCharacter quotes]
        exact induction
  rw [skipString, if_pos quotes, ends]

end ConfigEdit.Text
