import ConfigEdit.Text.Basic

/-!
# File name patterns

In a pattern `?` stands for one byte, `*` for any number of them, a class in
brackets for one of its members, and a group in braces for one of its branches.
A backslash takes the meaning from the character behind it.  `**` between
slashes stands for any number of directories, and elsewhere for `*`.
-/

namespace ConfigEdit.Glob

/-- Parts of a pattern. -/
inductive Token where
  | literal (character : Char)
  | anyOne
  | anyRun
  /-- Any directories in front of a name. -/
  | leadingDirectories
  /-- Everything below a directory. -/
  | everythingBelow
  /-- A slash, or any directories between two slashes. -/
  | innerDirectories
  | oneOf (negated : Bool) (ranges : List (Char × Char))
  | group (branches : List (List Token))

/-- Why a text is no pattern. -/
inductive PatternError where
  | unclosedClass
  | invalidRange (first last : Char)
  | unclosedGroup
  | unopenedGroup
  | danglingEscape
deriving DecidableEq, Repr

/-- The error in words. -/
def PatternError.message : PatternError → String
  | .unclosedClass => "unclosed character class; missing ']'"
  | .invalidRange first last =>
      "invalid range; '" ++ String.singleton first ++ "' > '" ++
        String.singleton last ++ "'"
  | .unclosedGroup => "unclosed alternate group; missing '\x7d'"
  | .unopenedGroup => "unopened alternate group; missing '\x7b'"
  | .danglingEscape => "dangling '\\'"

/-- A group that is still open. -/
structure OpenGroup where
  /-- The tokens before the group, the last one first. -/
  before : List Token
  /-- The branches that have been read, the last one first. -/
  branches : List (List Token)

/-- What has been read of a pattern. -/
structure Reading where
  /-- The tokens of the innermost branch, the last one first. -/
  tokens : List Token
  /-- The open groups, the innermost one first. -/
  groups : List OpenGroup

namespace Reading

/-- Nothing has been read. -/
def start : Reading := ⟨[], []⟩

/-- One more token. -/
def push (reading : Reading) (token : Token) : Reading :=
  { reading with tokens := token :: reading.tokens }

/-- A group begins. -/
def openGroup (reading : Reading) : Reading :=
  ⟨[], ⟨reading.tokens, []⟩ :: reading.groups⟩

/-- A comma, which begins another branch of a group. -/
def comma (reading : Reading) : Reading :=
  match reading.groups with
  | [] => reading.push (.literal ',')
  | ⟨before, branches⟩ :: outer =>
      ⟨[], ⟨before, reading.tokens.reverse :: branches⟩ :: outer⟩

/-- A group ends. -/
def closeGroup? (reading : Reading) : Option Reading :=
  match reading.groups with
  | [] => none
  | ⟨before, branches⟩ :: outer =>
      some ⟨.group (reading.tokens.reverse :: branches).reverse :: before,
        outer⟩

/-- Two stars that have no meaning of their own. -/
def pushStars (reading : Reading) : Reading :=
  (reading.push .anyRun).push .anyRun

/-- Two stars as a whole component; `last` says that nothing follows.  The
slash before them belongs to them. -/
def pushDirectories (reading : Reading) (last : Bool) : Reading :=
  match reading.tokens with
  | .leadingDirectories :: _ => reading
  | .everythingBelow :: _ => reading
  | tokens =>
      { reading with
        tokens := (if last then .everythingBelow else .innerDirectories) ::
          tokens.tail }

/-- Two stars between two characters, and whether the second one is a slash
that belongs to them. -/
def doubleStar (reading : Reading)
    (previous next : Option Char) : Reading × Bool :=
  let slashOrEnd := next = none || next = some '/'
  if reading.tokens.isEmpty then
    if slashOrEnd then (reading.push .leadingDirectories, next.isSome)
    else (reading.pushStars, false)
  else
    let inGroup := !reading.groups.isEmpty
    let begins :=
      previous = some '/' ||
        (inGroup && (previous = some ',' || previous = some '\x7b'))
    let endsBranch := inGroup && (next = some ',' || next = some '\x7d')
    if !begins then (reading.pushStars, false)
    else if next = some '/' then (reading.pushDirectories false, true)
    else if next = none || endsBranch then (reading.pushDirectories true, false)
    else (reading.pushStars, false)

end Reading

/-- A class that is being read. -/
structure ClassReading where
  negated : Bool
  /-- The members, the last one first. -/
  ranges : List (Char × Char)
  /-- A `-` follows the last member. -/
  inRange : Bool

namespace ClassReading

/-- One more character of a class. -/
def add (reading : ClassReading)
    (character : Char) : Except PatternError ClassReading :=
  match reading.ranges with
  | [] => .ok { reading with ranges := [(character, character)] }
  | (first, _) :: others =>
      if reading.inRange then
        if character < first then .error (.invalidRange first character)
        else .ok { reading with
          ranges := (first, character) :: others, inRange := false }
      else if character = '-' then .ok { reading with inRange := true }
      else .ok { reading with
        ranges := (character, character) :: reading.ranges }

/-- The class as a token.  A `-` at its end is a member. -/
def token (reading : ClassReading) : Token :=
  let ranges :=
    if reading.inRange then ('-', '-') :: reading.ranges else reading.ranges
  .oneOf reading.negated ranges.reverse

end ClassReading

mutual

/-- What has been read after the rest of a pattern.  `previous` is the
character before the rest. -/
def readTokens (reading : Reading) (previous : Option Char) :
    Text → Except PatternError Reading
  | [] => .ok reading
  | '*' :: '*' :: [] => .ok (reading.doubleStar previous none).1
  | '*' :: '*' :: next :: rest =>
      match reading.doubleStar previous (some next) with
      | (reading, true) => readTokens reading (some next) rest
      | (reading, false) => readTokens reading (some '*') (next :: rest)
  | '\\' :: [] => .error .danglingEscape
  | '\\' :: character :: rest =>
      readTokens (reading.push (.literal character)) (some character) rest
  | '[' :: '!' :: rest => readClass reading ⟨true, [], false⟩ rest
  | '[' :: '^' :: rest => readClass reading ⟨true, [], false⟩ rest
  | '[' :: rest => readClass reading ⟨false, [], false⟩ rest
  | '\x7d' :: rest =>
      match reading.closeGroup? with
      | some reading => readTokens reading (some '\x7d') rest
      | none => .error .unopenedGroup
  | character :: rest =>
      let next :=
        if character = '*' then reading.push .anyRun
        else if character = '?' then reading.push .anyOne
        else if character = '\x7b' then reading.openGroup
        else if character = ',' then reading.comma
        else reading.push (.literal character)
      readTokens next (some character) rest

/-- What has been read after the rest of a class and of the pattern behind it.
A bracket that comes first is a member. -/
def readClass (reading : Reading) (members : ClassReading) :
    Text → Except PatternError Reading
  | [] => .error .unclosedClass
  | character :: rest =>
      if character = ']' && !members.ranges.isEmpty then
        readTokens (reading.push members.token) (some ']') rest
      else
        match members.add character with
        | .ok members => readClass reading members rest
        | .error error => .error error

end

/-- The tokens of a pattern. -/
def parse (text : Text) : Except PatternError (List Token) :=
  match readTokens .start none text with
  | .error error => .error error
  | .ok reading =>
      if reading.groups.isEmpty then .ok reading.tokens.reverse
      else .error .unclosedGroup

end ConfigEdit.Glob
