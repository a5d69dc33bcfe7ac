import ConfigEdit.Toml.Quoted
import ConfigEdit.Toml.Scalar
import ConfigEdit.Toml.Table

/-!
# Reading TOML as JSON

A text is a list of statements, each on lines of its own: headers of tables,
and keys with values, which go into the table of the last header.  Keys have
fewer than 80 parts, and arrays and inline tables nest less than 80 deep.
-/

namespace ConfigEdit.Toml

/-- The limit of the parts of a key and of the depth of values. -/
def depthLimit : Nat := 80

/-- A key with at least one part: the last part, and those before it. -/
structure DottedKey where
  parents : List Text
  leaf : Text
deriving DecidableEq, Repr

/-- The parts of a key. -/
def DottedKey.parts (key : DottedKey) : List Text := key.parents ++ [key.leaf]

/-- Characters of a key without quotation marks. -/
def isBareKey (character : Char) : Bool :=
  character.isAlphanum || character = '_' || character = '-'

/-- A part of a key, and what follows it. -/
def readKeyPart? (text : Text) : Option (Text × Text) :=
  match text with
  | [] => none
  | first :: _ =>
      if first = '\x22' || first = '\x27' then readLineString? text
      else
        let part := text.takeWhile isBareKey
        if part.isEmpty then none else some (part, text.dropWhile isBareKey)

/-- The parts of a key, and what follows them.  `limit` bounds the number of
parts. -/
def readKeyParts? : (limit : Nat) → Text → Option (List Text × Text)
  | 0, _ => none
  | limit + 1, text =>
      match readKeyPart? (skipBlanks text) with
      | none => none
      | some (part, rest) =>
          match skipBlanks rest with
          | '.' :: after =>
              (readKeyParts? limit after).map
                fun (parts, rest) => (part :: parts, rest)
          | after => some ([part], after)

/-- A key with the blanks around it, and what follows it. -/
def readKey? (text : Text) : Option (DottedKey × Text) :=
  match readKeyParts? (depthLimit - 1) text with
  | some (parts, rest) =>
      parts.getLast?.map fun leaf => (⟨parts.dropLast, leaf⟩, rest)
  | none => none

/-- The items of an array behind its bracket or a comma, and what follows the
array.  `limit` bounds the number of items. -/
def readItems? (read : Text → Option (Node × Text)) :
    (limit : Nat) → Text → Option (List Node × Text)
  | 0, _ => none
  | limit + 1, text =>
      match skipGap false text with
      | ']' :: after => some ([], after)
      | start =>
          match read start with
          | none => none
          | some (item, rest) =>
              match skipGap false rest with
              | ',' :: after =>
                  (readItems? read limit after).map
                    fun (items, rest) => (item :: items, rest)
              | ']' :: after => some ([item], after)
              | _ => none

/-- The entries of an inline table behind its brace or a comma, added to the
given ones, and what follows the table.  `limit` bounds their number. -/
def readInlineEntries? (read : Text → Option (Node × Text)) :
    (limit : Nat) → Entries Node → Text → Option (Entries Node × Text)
  | 0, _, _ => none
  | limit + 1, entries, text => do
      let (key, rest) ← readKey? text
      let rest ← skipCharacter? '=' rest
      let (value, rest) ← read (skipBlanks rest)
      let entries ← insertDotted? key.leaf value key.parents entries
      match skipBlanks rest with
      | ',' :: after => readInlineEntries? read limit entries after
      | '}' :: after => return (entries, after)
      | _ => none

/-- A value, and what follows it.  Arrays and inline tables nest at most
`depth` deep. -/
def readValue? : (depth : Nat) → Text → Option (Node × Text)
  | depth, text =>
      match text with
      | [] => none
      | '\x22' :: _ => (readString? text).map
          fun (body, rest) => (.plain (.string body), rest)
      | '\x27' :: _ => (readString? text).map
          fun (body, rest) => (.plain (.string body), rest)
      | '[' :: rest =>
          match depth with
          | 0 => none
          | depth + 1 =>
              (readItems? (readValue? depth) (rest.length + 1) rest).map
                fun (items, rest) => (.array items, rest)
      | '{' :: rest =>
          match depth with
          | 0 => none
          | depth + 1 =>
              match skipBlanks rest with
              | '}' :: after => some (.inlineTable [], after)
              | start =>
                  (readInlineEntries? (readValue? depth) (start.length + 1)
                    [] start).map
                    fun (entries, rest) => (.inlineTable entries, rest)
      | _ =>
          match readDatetime? .literal text with
          | some (value, rest) => some (.datetime value, rest)
          | none =>
              (readScalar? text).map fun (value, rest) => (.plain value, rest)

/-- What a line of a text says. -/
inductive Statement where
  | entry (key : DottedKey) (value : Node)
  /-- The header of a table. -/
  | table (key : DottedKey)
  /-- The header of one of several tables. -/
  | listed (key : DottedKey)

/-- The key of a header behind its opening brackets, and what follows the
closing ones. -/
def readHeader? (closing : Text → Option Text)
    (text : Text) : Option (DottedKey × Text) := do
  let (key, rest) ← readKey? text
  return (key, ← closing rest)

/-- A statement, and what follows it in its line. -/
def readStatement? (text : Text) : Option (Statement × Text) :=
  match text with
  | '[' :: '[' :: rest =>
      (readHeader? (fun rest =>
        (skipCharacter? ']' rest).bind (skipCharacter? ']')) rest).map
        fun (key, rest) => (.listed key, rest)
  | '[' :: rest =>
      (readHeader? (skipCharacter? ']') rest).map
        fun (key, rest) => (.table key, rest)
  | _ => do
      let (key, rest) ← readKey? text
      let rest ← skipCharacter? '=' rest
      let (value, rest) ← readValue? (depthLimit - 1) (skipBlanks rest)
      return (.entry key value, rest)

/-- The statements of a text.  `limit` bounds the number of its lines. -/
def readStatements? : (limit : Nat) → Text → Option (List Statement)
  | 0, _ => none
  | limit + 1, text =>
      match skipBlanks text with
      | [] => some []
      | start =>
          match skipLine? start with
          | some after => readStatements? limit after
          | none => do
              let (statement, rest) ← readStatement? start
              let after ← skipLine? rest
              let others ← readStatements? limit after
              return statement :: others

/-- A document while its statements are carried out: its entries, and the keys
of the header whose table is open. -/
structure Progress where
  entries : Entries Node
  current : List Text

/-- The document after one more statement. -/
def Progress.add? (progress : Progress) : Statement → Option Progress
  | .entry key value =>
      (changeAt? (insertDotted? key.leaf value key.parents) progress.current
        progress.entries).map fun entries => { progress with entries }
  | .table key =>
      (changeAt? (openTable? key.leaf) key.parents progress.entries).map
        fun entries => ⟨entries, key.parts⟩
  | .listed key =>
      (changeAt? (openListed? key.leaf) key.parents progress.entries).map
        fun entries => ⟨entries, key.parts⟩

/-- The document of some statements. -/
def ofStatements? (statements : List Statement) : Option (Entries Node) :=
  (statements.foldlM Progress.add? ⟨[], []⟩).map Progress.entries

/-- The JSON value that a text spells.  A byte order mark in front of it is
skipped. -/
def toJson? (text : Text) : Option Json :=
  let body : Text :=
    match text with
    | '\ufeff' :: rest => rest
    | others => others
  match readStatements? (body.length + 1) body with
  | some statements =>
      (ofStatements? statements).bind Node.tableToJson?
  | none => none

end ConfigEdit.Toml
