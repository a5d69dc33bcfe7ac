import ConfigEdit.Text.Digits
import ConfigEdit.Text.Identifier

/-!
# Quoted strings

`quote` writes a text as a string literal and `unescape` reads the body of
one.  Writing escapes the backslash, the quotation mark in use, control
characters and the two separators U+2028 and U+2029.  Reading knows every
escape of the document language; one that is malformed stands for its own
letters.
-/

namespace ConfigEdit

/-- The quotation marks a string literal can have. -/
inductive QuoteStyle where
  | single
  | double
deriving DecidableEq, Repr, Inhabited

/-- The quotation mark of a style. -/
def QuoteStyle.mark : QuoteStyle → Char
  | .single => '\x27'
  | .double => '\x22'

/-- Control characters: U+0000 to U+001F and U+007F to U+009F. -/
def isControl (character : Char) : Bool :=
  character.toNat < 0x20 ||
    (0x7f ≤ character.toNat && character.toNat ≤ 0x9f)

/-- The character with a code, or U+FFFD if there is none. -/
def characterOrReplacement (code : Nat) : Char :=
  if code.isValidChar then Char.ofNat code else '\ufffd'

namespace Text

/-- How a character is written inside quotation marks. -/
def escapeCharacter (mark character : Char) : Text :=
  if character = '\\' then ['\\', '\\']
  else if character = '\n' then ['\\', 'n']
  else if character = '\r' then ['\\', 'r']
  else if character = '\t' then ['\\', 't']
  else if character = '\x08' then ['\\', 'b']
  else if character = '\x0c' then ['\\', 'f']
  else if character = mark then ['\\', character]
  else if isControl character || character = '\u2028' ||
    character = '\u2029' then
    '\\' :: 'u' :: fixedDigits 16 4 character.toNat
  else [character]

/-- What stands between the quotation marks of a string literal. -/
def escape (mark : Char) (text : Text) : Text :=
  text.flatMap (escapeCharacter mark)

/-- A text as a string literal. -/
def quote (text : Text) (style : QuoteStyle) : Text :=
  style.mark :: escape style.mark text ++ [style.mark]

/-- A property key: plain if it is an identifier and quoted otherwise. -/
def formatKey (name : Text) (style : QuoteStyle) : Text :=
  if isIdentifier name then name else quote name style

/-- A number of 32 bits in hexadecimal digits, with an optional sign `+`. -/
def codeOfHex? (digits : Text) : Option Nat :=
  match natOfText? 16 digits with
  | some code => if code < UInt32.size then some code else none
  | none => none

/-- The text in front of the first closing brace, and what follows it. -/
def splitAtBrace? : Text → Option (Text × Text)
  | [] => none
  | '}' :: rest => some ([], rest)
  | character :: rest =>
      (splitAtBrace? rest).map
        fun (inside, after) => (character :: inside, after)

theorem length_splitAtBrace? {text inside after : Text}
    (split : splitAtBrace? text = some (inside, after)) :
    after.length ≤ text.length := by
  induction text generalizing inside after with
  | nil => simp [splitAtBrace?] at split
  | cons character rest induction =>
      rw [splitAtBrace?.eq_def] at split
      split at split
      · contradiction
      · simp_all only [List.cons.injEq, Option.some.injEq, Prod.mk.injEq,
          List.length_cons]
        omega
      · next others _ head =>
          obtain ⟨_, rfl⟩ := List.cons.inj head
          obtain ⟨pair, found, equality⟩ := Option.map_eq_some_iff.1 split
          have bound := induction found
          simp only [Prod.mk.injEq] at equality
          simp only [← equality.2, List.length_cons]
          omega

/-- The code that follows an escape `u`, and what is left.  A code is written
with four hexadecimal digits, which are left unread if there are not four, or
in braces; a brace without its partner takes the whole text. -/
def readUnicode (text : Text) : Option Nat × Text :=
  match text with
  | '{' :: braced =>
      match splitAtBrace? braced with
      | some (digits, after) => (codeOfHex? digits, after)
      | none => (none, [])
  | _ =>
      let digits := text.take 4
      if digits.length = 4 && digits.all isHexDigit then
        (codeOfHex? digits, text.drop 4)
      else (none, text)

theorem length_readUnicode (text : Text) :
    (readUnicode text).2.length ≤ text.length := by
  unfold readUnicode
  split
  · next braced =>
      split
      · next digits after split =>
          have bound := length_splitAtBrace? split
          simp only [List.length_cons]
          omega
      · simp
  · dsimp only
    split <;> simp

/-- High halves of a surrogate pair. -/
def isHighSurrogate (code : Nat) : Bool := 0xd800 ≤ code && code ≤ 0xdbff

/-- Low halves of a surrogate pair. -/
def isLowSurrogate (code : Nat) : Bool := 0xdc00 ≤ code && code ≤ 0xdfff

/-- The code of a surrogate pair. -/
def surrogatePair (high low : Nat) : Nat :=
  0x10000 + (high - 0xd800) * 0x400 + (low - 0xdc00)

/-- What an escape `u` stands for, and what is left.  A surrogate pair is one
character and a lone half is U+FFFD. -/
def decodeUnicode (text : Text) : Text × Text :=
  match readUnicode text with
  | (none, rest) => (['u'], rest)
  | (some code, rest) =>
      if isHighSurrogate code then
        match rest with
        | '\\' :: 'u' :: second =>
            match readUnicode second with
            | (some low, after) =>
                if isLowSurrogate low then
                  ([characterOrReplacement (surrogatePair code low)], after)
                else (['\ufffd'], rest)
            | (none, _) => (['\ufffd'], rest)
        | _ => (['\ufffd'], rest)
      else ([characterOrReplacement code], rest)

theorem length_decodeUnicode (text : Text) :
    (decodeUnicode text).2.length ≤ text.length := by
  have first := length_readUnicode text
  unfold decodeUnicode
  split
  · next rest read => simpa [read] using first
  · next code rest read =>
      rw [read] at first
      split
      · split
        · next second =>
            have further := length_readUnicode second
            simp only [List.length_cons] at first
            split
            · next low after lowRead =>
                rw [lowRead] at further
                split
                · simp only at further ⊢
                  omega
                · simpa using first
            · simpa using first
        · exact first
      · exact first

/-- What an escape `x` stands for, and what is left: the character of two
hexadecimal digits, or the letter and the characters looked at. -/
def decodeHexPair (text : Text) : Text × Text :=
  let digits := text.take 2
  let rest := text.drop 2
  match natOfText? 16 digits with
  | some code =>
      if digits.length = 2 then ([characterOrReplacement code], rest)
      else ('x' :: digits, rest)
  | none => ('x' :: digits, rest)

/-- What a backslash and a character stand for, and what is left of the text
behind them. -/
def decodeEscape (character : Char) (rest : Text) : Text × Text :=
  match character with
  | 'n' => (['\n'], rest)
  | 'r' => (['\r'], rest)
  | 't' => (['\t'], rest)
  | 'b' => (['\x08'], rest)
  | 'f' => (['\x0c'], rest)
  | 'v' => (['\x0b'], rest)
  | '0' =>
      match rest with
      | next :: _ => if next.isDigit then (['0'], rest) else (['\x00'], rest)
      | [] => (['\x00'], rest)
  | '\n' => ([], rest)
  | '\u2028' => ([], rest)
  | '\u2029' => ([], rest)
  | '\r' =>
      match rest with
      | '\n' :: after => ([], after)
      | _ => ([], rest)
  | 'x' => decodeHexPair rest
  | 'u' => decodeUnicode rest
  | other => ([other], rest)

theorem length_decodeHexPair (text : Text) :
    (decodeHexPair text).2.length ≤ text.length := by
  unfold decodeHexPair
  dsimp only
  split
  · split <;> simp
  · simp

theorem length_decodeEscape (character : Char) (rest : Text) :
    (decodeEscape character rest).2.length ≤ rest.length := by
  unfold decodeEscape
  split <;> try exact Nat.le_refl _
  · split
    · split <;> exact Nat.le_refl _
    · exact Nat.le_refl _
  · split
    · simp
    · exact Nat.le_refl _
  · exact length_decodeHexPair rest
  · exact length_decodeUnicode rest

/-- The text that the body of a string literal stands for. -/
def unescape : Text → Text
  | [] => []
  | ['\\'] => ['\\']
  | '\\' :: character :: rest =>
      (decodeEscape character rest).1 ++
        unescape (decodeEscape character rest).2
  | character :: rest => character :: unescape rest
termination_by text => text.length
decreasing_by
  · have := length_decodeEscape character rest
    simp only [List.length_cons]
    omega
  · simp

end Text

end ConfigEdit
