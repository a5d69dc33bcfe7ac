import ConfigEdit.Text.Digits
import ConfigEdit.Toml.Blank

/-!
# Strings of TOML

A string stands between quotation marks of one kind, on one line, or between
triples of them, on any number of lines.  Double marks allow escapes, single
ones do not.  In a string on several lines the first line break is left out,
every other one is a line feed, and a backslash at the end of a line joins the
line to the next text.
-/

namespace ConfigEdit.Toml

/-- The character whose code is a number of hexadecimal digits, and what
follows them. -/
def readCode? (count : Nat) (text : Text) : Option (Char × Text) :=
  let digits := text.take count
  if digits.length = count then
    match natOfDigits? 16 digits with
    | some code =>
        if code.isValidChar then some (Char.ofNat code, text.drop count)
        else none
    | none => none
  else none

/-- The character of an escape, and what follows it. -/
def readEscape? : Text → Option (Char × Text)
  | '\x22' :: rest => some ('\x22', rest)
  | '\\' :: rest => some ('\\', rest)
  | 'b' :: rest => some ('\x08', rest)
  | 'f' :: rest => some ('\x0c', rest)
  | 'n' :: rest => some ('\n', rest)
  | 'r' :: rest => some ('\r', rest)
  | 't' :: rest => some ('\t', rest)
  | 'u' :: rest => readCode? 4 rest
  | 'U' :: rest => readCode? 8 rest
  | _ => none

/-- The characters of a string on one line behind its opening mark, and what
follows its closing mark.  `limit` bounds the number of characters, and `read`
holds those that have been read, the last one first. -/
def readLineBody? (mark : Char) :
    (limit : Nat) → (read text : Text) → Option (Text × Text)
  | 0, _, _ => none
  | _ + 1, _, [] => none
  | limit + 1, read, character :: rest =>
      if character = mark then some (read.reverse, rest)
      else if character = '\\' && mark = '\x22' then
        match readEscape? rest with
        | some (escaped, after) =>
            readLineBody? mark limit (escaped :: read) after
        | none => none
      else if isPlain character then
        readLineBody? mark limit (character :: read) rest
      else none

/-- A string on one line, and what follows it. -/
def readLineString? : Text → Option (Text × Text)
  | [] => none
  | mark :: rest =>
      if mark = '\x22' || mark = '\x27' then
        readLineBody? mark (rest.length + 1) [] rest
      else none

/-- What follows a backslash at the end of a line and the blank text behind
it. -/
def skipJoint? (text : Text) : Option Text :=
  (skipNewline? (skipBlanks text)).map skipBlankLines

/-- The characters of a string on several lines behind its opening marks, and
what follows its closing marks.  Up to two more marks may stand in front of
those.  `limit` bounds the number of characters, and `read` holds those that
have been read, the last one first. -/
def readLinesBody? (mark : Char) :
    (limit : Nat) → (read text : Text) → Option (Text × Text)
  | 0, _, _ => none
  | _ + 1, _, [] => none
  | limit + 1, read, character :: rest =>
      if character = mark then
        let marks := min 5 ((character :: rest).takeWhile (· = mark)).length
        if marks < 3 then readLinesBody? mark limit (character :: read) rest
        else
          some ((List.replicate (marks - 3) mark ++ read).reverse,
            (character :: rest).drop marks)
      else if character = '\\' && mark = '\x22' then
        match skipJoint? rest with
        | some after => readLinesBody? mark limit read after
        | none =>
            match readEscape? rest with
            | some (escaped, after) =>
                readLinesBody? mark limit (escaped :: read) after
            | none => none
      else if isPlain character then
        readLinesBody? mark limit (character :: read) rest
      else
        match skipNewline? (character :: rest) with
        | some after => readLinesBody? mark limit ('\n' :: read) after
        | none => none

/-- A string, and what follows it. -/
def readString? (text : Text) : Option (Text × Text) :=
  match text with
  | first :: second :: third :: rest =>
      if (first = '\x22' || first = '\x27') && second = first &&
        third = first then
        let body := (skipNewline? rest).getD rest
        readLinesBody? first (body.length + 1) [] body
      else readLineString? text
  | _ => readLineString? text

end ConfigEdit.Toml
