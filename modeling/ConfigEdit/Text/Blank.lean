import ConfigEdit.Text.Basic

/-!
# Blank characters

Two classes of blanks are used.  Between tokens only the ASCII blanks without
the vertical tab count (`isGap`).  Where a text is trimmed, or is asked
whether it holds anything, every character with the Unicode property
`White_Space` counts (`isBlank`).
-/

namespace ConfigEdit

/-- Blanks between tokens: space, tab, line feed, form feed, carriage return. -/
def isGap (character : Char) : Bool :=
  character = ' ' || character = '\t' || character = '\n' ||
    character = '\x0c' || character = '\r'

/-- The characters with the Unicode property `White_Space`. -/
def isBlank (character : Char) : Bool :=
  let code := character.toNat
  (0x09 ≤ code && code ≤ 0x0d) || code = 0x20 || code = 0x85 ||
    code = 0xa0 || code = 0x1680 || (0x2000 ≤ code && code ≤ 0x200a) ||
    code = 0x2028 || code = 0x2029 || code = 0x202f || code = 0x205f ||
    code = 0x3000

namespace Text

/-- A text without blanks at either end. -/
def trim (text : Text) : Text :=
  ((text.dropWhile isBlank).reverse.dropWhile isBlank).reverse

/-- A text that holds blanks only. -/
def blank (text : Text) : Bool :=
  text.all isBlank

end Text

end ConfigEdit
