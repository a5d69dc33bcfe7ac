import ConfigEdit.Text.Blank

/-!
# Line breaks

A line ends with a line feed, or with a carriage return and a line feed.
`splitLineComment` takes off the comment in front of the first line break, and
leaves the text alone when there is no line break or nothing but blanks stands
before it.
-/

namespace ConfigEdit

/-- How lines end. -/
inductive LineBreak where
  | lf
  | crlf
deriving DecidableEq, Repr

/-- The characters of a line break. -/
def LineBreak.text : LineBreak → Text
  | .lf => ['\n']
  | .crlf => ['\r', '\n']

namespace Text

/-- The first line of a text without its line break, the line break, and what
follows it, when the text has a line break. -/
def splitLine? : Text → Option (Text × LineBreak × Text)
  | [] => none
  | '\n' :: rest => some ([], .lf, rest)
  | '\r' :: '\n' :: rest => some ([], .crlf, rest)
  | character :: rest =>
      (splitLine? rest).map fun (line, lineBreak, others) =>
        (character :: line, lineBreak, others)

/-- The byte offset at which the first line ends. -/
def lineEnd? (text : Text) : Option Nat :=
  (splitLine? text).map fun (line, _, _) => utf8Size line

/-- How the first line of a text ends. -/
def lineBreak? (text : Text) : Option LineBreak :=
  (splitLine? text).map fun (_, lineBreak, _) => lineBreak

/-- A comment in front of the first line break, and what follows it.  Without
a line break, or with nothing but blanks in front of it, the comment is
empty. -/
def splitLineComment (text : Text) : Text × Text :=
  match splitLine? text with
  | some (line, lineBreak, rest) =>
      if blank line then ([], text) else (line, lineBreak.text ++ rest)
  | none => ([], text)

/-- The comment in front of the first line break. -/
def lineComment (text : Text) : Text := (splitLineComment text).1

/-- A text without the comment in front of its first line break. -/
def withoutLineComment (text : Text) : Text := (splitLineComment text).2

end Text

end ConfigEdit
