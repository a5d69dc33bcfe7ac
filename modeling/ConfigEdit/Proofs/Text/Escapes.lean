import ConfigEdit.Proofs.Text.Quoted

/-!
# Escapes from left to right

`decoded` is the reading of the body of a string literal that takes one escape
after the other: `x` with two hexadecimal digits, `u` with four of them or with
one or more in braces, and an `x` or a `u` without such digits as its letter
alone, so that the characters behind it are read as they would be anywhere else.

`unescape` looks at the characters behind an `x` or a `u` in another way, and
some of them are lost where no digits follow.  It reads a body as `decoded` does
if every escape in it takes nothing with it but its digits (`isIntactEscape`).
-/

namespace ConfigEdit.Text

/-- The code of hexadecimal digits with one more digit behind them. -/
def hexStep (high : Nat) (digit : Char) : Nat :=
  high * 16 + (digitValue? 16 digit).getD 0

/-- The code that hexadecimal digits spell. -/
def hexCode (digits : Text) : Nat := digits.foldl hexStep 0

/-- The code that follows the letter of an escape `x` or `u`, and what is
left. -/
def escapeCode? : Char → Text → Option (Nat × Text)
  | 'x', first :: second :: rest =>
      if isHexDigit first && isHexDigit second then
        some (hexCode [first, second], rest)
      else none
  | 'u', '{' :: braced =>
      match braced.takeWhile isHexDigit, braced.dropWhile isHexDigit with
      | first :: digits, '}' :: rest => some (hexCode (first :: digits), rest)
      | _, _ => none
  | 'u', first :: second :: third :: fourth :: rest =>
      if [first, second, third, fourth].all isHexDigit then
        some (hexCode [first, second, third, fourth], rest)
      else none
  | _, _ => none

/-- What an escape stands for, and what is left of the text behind its
letter. -/
def escapeMeaning (letter : Char) (rest : Text) : Text × Text :=
  match letter with
  | 'n' => (['\n'], rest)
  | 'r' => (['\r'], rest)
  | 't' => (['\t'], rest)
  | 'b' => (['\x08'], rest)
  | 'f' => (['\x0c'], rest)
  | 'v' => (['\x0b'], rest)
  | '0' => (if rest.head?.any Char.isDigit then ['0'] else ['\x00'], rest)
  | '\n' | '\u2028' | '\u2029' => ([], rest)
  | '\r' => ([], if rest.head? = some '\n' then rest.tail else rest)
  | 'x' | 'u' =>
      match escapeCode? letter rest with
      | some (code, after) => ([characterOrReplacement code], after)
      | none => ([letter], rest)
  | other => ([other], rest)

/-- How the digits of a code stand behind the letter of an escape, in front of
what is left. -/
inductive SpellsCode (digits after : Text) : Char → Text → Prop
  | pair (length : digits.length = 2) :
      SpellsCode digits after 'x' (digits ++ after)
  | four (length : digits.length = 4) :
      SpellsCode digits after 'u' (digits ++ after)
  | braced (more : digits ≠ []) :
      SpellsCode digits after 'u' ('{' :: (digits ++ '}' :: after))

theorem spellsCode_of_escapeCode? {letter : Char} {text after : Text}
    {code : Nat} (found : escapeCode? letter text = some (code, after)) :
    ∃ digits, digits.all isHexDigit = true ∧ code = hexCode digits ∧
      SpellsCode digits after letter text := by
  rw [escapeCode?.eq_def] at found
  split at found
  case h_1 first second rest =>
    split at found
    · next all =>
        cases found
        exact ⟨[first, second], by simpa using all, rfl, .pair rfl⟩
    · contradiction
  case h_2 braced =>
    split at found
    · next first digits rest taken dropped =>
        cases found
        have whole :=
          List.takeWhile_append_dropWhile (p := isHexDigit) (l := braced)
        have all : (first :: digits).all isHexDigit = true :=
          taken ▸ List.all_takeWhile
        rw [taken, dropped] at whole
        rw [← whole]
        exact ⟨first :: digits, all, rfl, .braced (List.cons_ne_nil _ _)⟩
    · contradiction
  case h_3 first second third fourth rest _ =>
    split at found
    · next all =>
        cases found
        exact ⟨[first, second, third, fourth], all, rfl, .four rfl⟩
    · contradiction
  case h_4 => contradiction

theorem escapeCode?_append {digits : Text} (length : digits.length = 4)
    (all : digits.all isHexDigit = true) (after : Text) :
    escapeCode? 'u' (digits ++ after) = some (hexCode digits, after) := by
  obtain ⟨first, second, third, fourth, rfl⟩ := List.length_eq_four.1 length
  have notBrace : first ≠ '{' := by
    rintro rfl
    simp [isHexDigit] at all
  simp only [List.cons_append, List.nil_append]
  rw [escapeCode?, if_pos all]
  exact notBrace

theorem length_escapeCode? {letter : Char} {text after : Text} {code : Nat}
    (found : escapeCode? letter text = some (code, after)) :
    after.length ≤ text.length := by
  obtain ⟨digits, -, -, spelt⟩ := spellsCode_of_escapeCode? found
  cases spelt with
  | pair | four => simp
  | braced =>
      simp only [List.length_cons, List.length_append]
      omega

theorem length_escapeMeaning (letter : Char) (rest : Text) :
    (escapeMeaning letter rest).2.length ≤ rest.length := by
  unfold escapeMeaning
  split
  case h_12 | h_13 =>
    split
    · next found => exact length_escapeCode? found
    · exact Nat.le_refl _
  case h_11 =>
    simp only
    split <;> simp
  all_goals exact Nat.le_refl _

/-- The text that the body of a string literal stands for, one escape after the
other. -/
def decoded : Text → Text
  | [] => []
  | ['\\'] => ['\\']
  | '\\' :: letter :: rest =>
      (escapeMeaning letter rest).1 ++ decoded (escapeMeaning letter rest).2
  | character :: rest => character :: decoded rest
termination_by text => text.length
decreasing_by
  · have := length_escapeMeaning letter rest
    simp only [List.length_cons]
    omega
  · simp

/-- The escapes in the body of a string literal, one after the other: the letter
of each, and the text behind the letter. -/
def escapes : Text → List (Char × Text)
  | [] => []
  | ['\\'] => []
  | '\\' :: letter :: rest =>
      (letter, rest) :: escapes (escapeMeaning letter rest).2
  | _ :: rest => escapes rest
termination_by text => text.length
decreasing_by
  · have := length_escapeMeaning letter rest
    simp only [List.length_cons]
    omega
  · simp

/-- Escapes that are a half of a surrogate pair. -/
def isSurrogateEscape : Char × Text → Bool
  | (letter, rest) =>
      (escapeCode? letter rest).any
        fun (code, _) => isHighSurrogate code || isLowSurrogate code

/-- Whether an escape begins at one of the next characters. -/
def escapeWithin : (count : Nat) → Text → Bool
  | 0, _ => false
  | _ + 1, [] => false
  | _ + 1, '\\' :: _ :: _ => true
  | count + 1, _ :: rest => escapeWithin count rest

/-- Whether a sign and a digit come next, which are taken for the digits behind
an `x`. -/
def isSigned : Text → Bool
  | '+' :: digit :: _ => isHexDigit digit
  | _ => false

/-- Escapes that take nothing with them but their digits.  Without digits an `x`
takes the next two characters with it, so that no escape begins at them any
more, and it takes a sign for a digit; a `u` in front of an opening brace takes
everything up to the next closing brace, whether these are digits or not, and
the number there has to fit 32 bits. -/
def isIntactEscape : Char × Text → Bool
  | ('x', rest) =>
      (escapeCode? 'x' rest).isSome || !(escapeWithin 2 rest || isSigned rest)
  | ('u', '{' :: braced) =>
      (escapeCode? 'u' ('{' :: braced)).any fun (code, _) => code < UInt32.size
  | _ => true

/-! ## Digits -/

theorem foldDigits?_hexStep (digits : Text) (high : Nat) :
    foldDigits? 16 high digits =
      if digits.all isHexDigit then some (digits.foldl hexStep high)
      else none := by
  induction digits generalizing high with
  | nil => rfl
  | cons digit others induction =>
      rw [foldDigits?, List.all_cons, isHexDigit_eq_isSome, List.foldl_cons,
        hexStep]
      cases digitValue? 16 digit with
      | none => rfl
      | some value => simp [induction]

/-- Digits are read as the code that they spell, and other characters are not
read. -/
theorem natOfDigits?_hexCode {digits : Text} (more : digits ≠ []) :
    natOfDigits? 16 digits =
      if digits.all isHexDigit then some (hexCode digits) else none := by
  rw [natOfDigits?, foldDigits?_hexStep, hexCode]
  exact more

theorem hexStep_lt (high : Nat) (digit : Char) :
    hexStep high digit < (high + 1) * 16 := by
  have small (value : Nat) :
      (if value < 16 then some value else none).getD 0 < 16 := by
    split <;> simp [*]
  have value : (digitValue? 16 digit).getD 0 < 16 := small _
  rw [hexStep]
  omega

theorem hexCode_lt (digits : Text) : hexCode digits < 16 ^ digits.length := by
  have behind :
      ∀ high, digits.foldl hexStep high < (high + 1) * 16 ^ digits.length := by
    induction digits with
    | nil => simp
    | cons digit others induction =>
        intro high
        calc others.foldl hexStep (hexStep high digit)
            < (hexStep high digit + 1) * 16 ^ others.length := induction _
          _ ≤ (high + 1) * 16 * 16 ^ others.length :=
              Nat.mul_le_mul_right _ (hexStep_lt high digit)
          _ = (high + 1) * 16 ^ (others.length + 1) := by
              rw [Nat.pow_succ, Nat.mul_assoc, Nat.mul_comm 16]
  simpa [hexCode] using behind 0

/-- One or more hexadecimal digits are read as the code that they spell. -/
theorem natOfText?_hexCode {digits : Text} (more : digits ≠ [])
    (all : digits.all isHexDigit = true) :
    natOfText? 16 digits = some (hexCode digits) := by
  obtain ⟨first, others, rfl⟩ := List.exists_cons_of_ne_nil more
  have notPlus : first ≠ '+' := by
    rintro rfl
    simp [isHexDigit] at all
  rw [natOfText?_of_ne_plus notPlus, natOfDigits?_hexCode more, if_pos all]

theorem splitAtBrace?_append
    {digits : Text} (all : digits.all isHexDigit = true) (after : Text) :
    splitAtBrace? (digits ++ '}' :: after) = some (digits, after) := by
  induction digits with
  | nil => rfl
  | cons digit others induction =>
      rw [List.all_cons, Bool.and_eq_true] at all
      have notBrace : digit ≠ '}' := by
        rintro rfl
        exact absurd all.1 (by decide)
      rw [List.cons_append, splitAtBrace?, induction all.2]
      · rfl
      · exact notBrace

/-! ## One escape -/

section Escape

variable {letter : Char} {rest after : Text} {code : Nat}

theorem decodeHexPair_of_code
    (found : escapeCode? 'x' rest = some (code, after)) :
    decodeHexPair rest = ([characterOrReplacement code], after) := by
  obtain ⟨digits, all, rfl, spelt⟩ := spellsCode_of_escapeCode? found
  cases spelt with
  | pair length =>
      have taken : (digits ++ after).take 2 = digits := by
        rw [← length, List.take_left]
      have dropped : (digits ++ after).drop 2 = after := by
        rw [← length, List.drop_left]
      have more : digits ≠ [] := List.length_pos_iff.1 (by omega)
      simp only [decodeHexPair, taken, dropped, natOfText?_hexCode more all,
        length, if_true]

theorem natOfText?_pair {first second : Char}
    (none' : escapeCode? 'x' (first :: second :: rest) = none)
    (unsigned : isSigned (first :: second :: rest) = false) :
    natOfText? 16 [first, second] = none := by
  by_cases plus : first = '+'
  · subst plus
    have noDigit : isHexDigit second = false := unsigned
    rw [natOfText?, natOfDigits?_hexCode (List.cons_ne_nil _ _)]
    simp [noDigit]
  · have noPair : ¬(isHexDigit first = true ∧ isHexDigit second = true) := by
      simpa [escapeCode?] using none'
    rw [natOfText?_of_ne_plus plus, natOfDigits?_hexCode (List.cons_ne_nil _ _)]
    simpa using noPair

/-- Without digits an `x` takes two characters with it. -/
theorem decodeHexPair_of_none (none' : escapeCode? 'x' rest = none)
    (unsigned : isSigned rest = false) :
    decodeHexPair rest = ('x' :: rest.take 2, rest.drop 2) := by
  match rest with
  | [] => rfl
  | [first] =>
      rw [decodeHexPair]
      simp only [List.take_succ_cons, List.take_nil]
      split <;> simp
  | first :: second :: rest =>
      simp [decodeHexPair, natOfText?_pair none' unsigned]

theorem codeOfHex?_hexCode {digits : Text} (more : digits ≠ [])
    (all : digits.all isHexDigit = true)
    (small : hexCode digits < UInt32.size) :
    codeOfHex? digits = some (hexCode digits) := by
  simp only [codeOfHex?, natOfText?_hexCode more all, if_pos small]

/-- Four digits behind a `u` are read together or not at all. -/
theorem readUnicode_of_four (noBrace : rest.head? ≠ some '{') :
    readUnicode rest =
      match escapeCode? 'u' rest with
      | some (code, after) => (some code, after)
      | none => (none, rest) := by
  cases found : escapeCode? 'u' rest with
  | none =>
      have read : readUnicode rest =
          if (rest.take 4).length = 4 && (rest.take 4).all isHexDigit then
            (codeOfHex? (rest.take 4), rest.drop 4)
          else (none, rest) := by
        rw [readUnicode]
        rintro braced rfl
        exact noBrace rfl
      rw [read]
      apply if_neg
      intro four
      obtain ⟨length, all⟩ := Bool.and_eq_true_iff.1 four
      have code :=
        escapeCode?_append (of_decide_eq_true length) all (rest.drop 4)
      rw [List.take_append_drop, found] at code
      contradiction
  | some spelling =>
      obtain ⟨code, after⟩ := spelling
      obtain ⟨digits, all, rfl, spelt⟩ := spellsCode_of_escapeCode? found
      cases spelt with
      | four length =>
          have more : digits ≠ [] := List.length_pos_iff.1 (by omega)
          have small : hexCode digits < UInt32.size :=
            Nat.lt_trans (hexCode_lt digits) (by rw [length]; decide)
          rw [readUnicode_append length all, codeOfHex?_hexCode more all small]
      | braced more => exact absurd rfl noBrace

theorem readUnicode_of_braced
    (found : escapeCode? 'u' ('{' :: rest) = some (code, after))
    (small : code < UInt32.size) :
    readUnicode ('{' :: rest) = (some code, after) := by
  obtain ⟨digits, all, rfl, spelt⟩ := spellsCode_of_escapeCode? found
  generalize shape : '{' :: rest = text at spelt
  cases spelt with
  | four length =>
      obtain ⟨digit, others, rfl⟩ :=
        List.exists_cons_of_length_pos (by rw [length]; decide)
      obtain ⟨rfl, -⟩ := List.cons.inj shape
      simp [isHexDigit] at all
  | braced more =>
      simp only [readUnicode, splitAtBrace?_append all,
        codeOfHex?_hexCode more all small]

/-- A `u` is read with the digits behind it, or as a letter. -/
theorem decodeUnicode_eq (whole : isSurrogateEscape ('u', rest) = false)
    (intact : isIntactEscape ('u', rest) = true) :
    decodeUnicode rest = escapeMeaning 'u' rest := by
  have read : readUnicode rest =
      match escapeCode? 'u' rest with
      | some (code, after) => (some code, after)
      | none => (none, rest) := by
    by_cases brace : rest.head? = some '{'
    · obtain ⟨braced, rfl⟩ := List.head?_eq_some_iff.1 brace
      rw [isIntactEscape, Option.any_eq_true] at intact
      obtain ⟨⟨code, after⟩, found, small⟩ := intact
      rw [readUnicode_of_braced found (by simpa using small), found]
    · exact readUnicode_of_four brace
  rw [decodeUnicode, read, escapeMeaning]
  cases found : escapeCode? 'u' rest with
  | none => rfl
  | some spelling =>
      obtain ⟨code, after⟩ := spelling
      rw [isSurrogateEscape, found, Option.any_some, Bool.or_eq_false_iff]
        at whole
      simp [whole.1]

theorem decodeEscape_eq
    (notX : letter ≠ 'x') (notU : letter ≠ 'u') (rest : Text) :
    decodeEscape letter rest = escapeMeaning letter rest := by
  by_cases zero : letter = '0'
  · subst zero
    cases rest with
    | nil => rfl
    | cons next others =>
        rw [decodeEscape, escapeMeaning]
        by_cases digit : next.isDigit = true <;> simp [digit]
  by_cases carriage : letter = '\r'
  · subst carriage
    cases rest with
    | nil => rfl
    | cons next others =>
        by_cases feed : next = '\n'
        · subst feed
          rfl
        · simp [decodeEscape, escapeMeaning, feed]
  unfold decodeEscape
  split
  case h_14 => simp_all [escapeMeaning]
  all_goals first | rfl | contradiction

end Escape

/-- Characters among which no escape begins are read as themselves. -/
theorem unescape_take
    {count : Nat} {text : Text} (none' : escapeWithin count text = false) :
    unescape text = text.take count ++ unescape (text.drop count) := by
  fun_induction escapeWithin count text with
  | case1 => rfl
  | case2 => rfl
  | case3 => contradiction
  | case4 count character rest notEscape induction =>
      rw [List.take_succ_cons, List.drop_succ_cons, List.cons_append,
        ← induction none']
      by_cases backslash : character = '\\'
      · subst backslash
        cases rest with
        | nil => simp [unescape]
        | cons letter others => exact absurd rfl (notEscape letter others rfl)
      · exact unescape_cons backslash rest

theorem unescape_step {letter : Char} {rest : Text}
    (whole : isSurrogateEscape (letter, rest) = false)
    (intact : isIntactEscape (letter, rest) = true) :
    unescape ('\\' :: letter :: rest) =
      (escapeMeaning letter rest).1 ++
        unescape (escapeMeaning letter rest).2 := by
  rw [unescape_backslash]
  by_cases isX : letter = 'x'
  · subst isX
    have pair : decodeEscape 'x' rest = decodeHexPair rest := rfl
    rw [pair, escapeMeaning]
    cases found : escapeCode? 'x' rest with
    | some spelling => rw [decodeHexPair_of_code found]
    | none =>
        rw [isIntactEscape, found, Option.isSome_none, Bool.false_or,
          Bool.not_eq_true', Bool.or_eq_false_iff] at intact
        rw [decodeHexPair_of_none found intact.2, List.cons_append,
          ← unescape_take intact.1]
        rfl
  by_cases isU : letter = 'u'
  · subst isU
    have unicode : decodeEscape 'u' rest = decodeUnicode rest := rfl
    rw [unicode, decodeUnicode_eq whole intact]
  · rw [decodeEscape_eq isX isU]

/-- The body of a string literal without halves of surrogate pairs is read one
escape after the other, if no escape takes more with it than its digits. -/
theorem unescape_eq_decoded
    (body : Text) (whole : body.escapes.any isSurrogateEscape = false)
    (intact : body.escapes.all isIntactEscape = true) :
    body.unescape = body.decoded := by
  fun_induction decoded body with
  | case1 => simp [unescape]
  | case2 => simp [unescape]
  | case3 letter rest induction =>
      rw [escapes, List.any_cons, Bool.or_eq_false_iff] at whole
      rw [escapes, List.all_cons, Bool.and_eq_true] at intact
      rw [unescape_step whole.1 intact.1, induction whole.2 intact.2]
  | case4 character rest notLone notEscape induction =>
      have same : escapes (character :: rest) = escapes rest := by
        rw [escapes]
        · exact notLone
        · exact notEscape
      have plain : character ≠ '\\' := by
        rintro rfl
        cases rest with
        | nil => exact notLone rfl rfl
        | cons letter others => exact notEscape letter others rfl rfl
      rw [same] at whole intact
      rw [unescape_cons plain, induction whole intact]

/-- Digits of every kind, a code beyond the last character, a letter that stands
for itself, an `x` and a `u` without digits, a line that is continued, and a
backslash at the end. -/
def mixedBody : Text :=
  "\\x41\\u0042\\u\x7b20Ac\x7d\\u\x7b110000\x7d\\q\\xg1\\u12\\n\\\r\n\\0\\x4\\".toList

/-- Every kind of escape that is decoded as it is meant. -/
theorem unescape_eq_decoded_mixed :
    mixedBody.escapes.any isSurrogateEscape = false ∧
      mixedBody.escapes.all isIntactEscape = true ∧
      mixedBody.unescape = mixedBody.decoded ∧
      mixedBody.decoded = "AB\u20ac\ufffdqxg1u12\n\x00x4\\".toList := by
  have whole : mixedBody.escapes.any isSurrogateEscape = false := by
    decide +kernel
  have intact : mixedBody.escapes.all isIntactEscape = true := by
    decide +kernel
  exact ⟨whole, intact, unescape_eq_decoded mixedBody whole intact,
    by decide +kernel⟩

/-- What is no number in braces is lost, a sign is taken for a digit, an escape
behind a lone digit is not seen, and a number beyond 32 bits becomes a
letter. -/
theorem unescape_ne_decoded :
    (escapes "\\u\x7bzz\x7d".toList).any isSurrogateEscape = false ∧
      unescape "\\u\x7bzz\x7d".toList = ['u'] ∧
      decoded "\\u\x7bzz\x7d".toList = "u\x7bzz\x7d".toList ∧
    (escapes "\\x+4".toList).any isSurrogateEscape = false ∧
      unescape "\\x+4".toList = ['\x04'] ∧
      decoded "\\x+4".toList = "x+4".toList ∧
    (escapes "\\x4\\n".toList).any isSurrogateEscape = false ∧
      unescape "\\x4\\n".toList = "x4\\n".toList ∧
      decoded "\\x4\\n".toList = "x4\n".toList ∧
    (escapes "\\u\x7b100000000\x7d".toList).any isSurrogateEscape = false ∧
      unescape "\\u\x7b100000000\x7d".toList = ['u'] ∧
      decoded "\\u\x7b100000000\x7d".toList = ['\ufffd'] := by
  refine ⟨?_, ?_, ?_, ?_, ?_, ?_, ?_, ?_, ?_, ?_, ?_, ?_⟩
  all_goals decide +kernel

end ConfigEdit.Text
