import ConfigEdit.Glob.Pattern

/-!
# Matching names

A name matches a pattern if its bytes can be cut so that each piece fits a
token.  Matching finds, token by token, all texts that can be left over.
-/

namespace ConfigEdit.Glob

/-- The byte of a slash. -/
def slash : UInt8 := 0x2f

/-- All ends of a text, the whole text first. -/
def suffixes : List UInt8 → List (List UInt8)
  | [] => [[]]
  | byte :: rest => (byte :: rest) :: suffixes rest

/-- All ends of a text that follow a slash. -/
def afterSlashes : List UInt8 → List (List UInt8)
  | [] => []
  | byte :: rest =>
      if byte = slash then rest :: afterSlashes rest else afterSlashes rest

/-- What is left of a text behind some bytes. -/
def afterBytes : (expected text : List UInt8) → List (List UInt8)
  | [], text => [text]
  | _ :: _, [] => []
  | byte :: expected, found :: text =>
      if byte = found then afterBytes expected text else []

/-- The ranges of bytes that a range of characters stands for: the last byte of
its first character to the first byte of its last one, and all their other
bytes. -/
def byteRanges (range : Char × Char) : List (UInt8 × UInt8) :=
  let single (bytes : List UInt8) : List (UInt8 × UInt8) :=
    bytes.map fun byte => (byte, byte)
  let first := String.utf8EncodeChar range.1
  let last := String.utf8EncodeChar range.2
  if range.1 = range.2 then single first
  else
    single first.dropLast ++ (first.getLastD 0, last.headD 0) ::
      single last.tail

/-- A byte lies in one of the ranges. -/
def inRanges (ranges : List (Char × Char)) (byte : UInt8) : Bool :=
  (ranges.flatMap byteRanges).any fun range => range.1 ≤ byte && byte ≤ range.2

mutual

/-- A token without any text: a group all of whose branches are empty. -/
def Token.isVoid : Token → Bool
  | .group branches => allVoid branches
  | _ => false

/-- All tokens are without any text. -/
def isVoid : List Token → Bool
  | [] => true
  | token :: tokens => token.isVoid && isVoid tokens

/-- All branches are without any text. -/
def allVoid : List (List Token) → Bool
  | [] => true
  | branch :: branches => isVoid branch && allVoid branches

end

mutual

/-- What can be left of a text behind a token.  Empty branches of a group count
only if it has no others. -/
def Token.rests (text : List UInt8) : Token → List (List UInt8)
  | .literal character => afterBytes (String.utf8EncodeChar character) text
  | .anyOne => text.tail?.toList
  | .anyRun => suffixes text
  | .leadingDirectories => text :: afterSlashes text
  | .everythingBelow =>
      match text with
      | byte :: rest => if byte = slash then suffixes rest else []
      | [] => []
  | .innerDirectories =>
      match text with
      | byte :: rest => if byte = slash then rest :: afterSlashes rest else []
      | [] => []
  | .oneOf negated ranges =>
      match text with
      | byte :: rest => if inRanges ranges byte != negated then [rest] else []
      | [] => []
  | .group branches =>
      if allVoid branches then [text] else groupRests text branches

/-- What can be left of some texts behind tokens. -/
def rests (texts : List (List UInt8)) : List Token → List (List UInt8)
  | [] => texts
  | token :: tokens =>
      rests (texts.flatMap fun text => token.rests text).eraseDups tokens

/-- What can be left of a text behind one of the branches of a group. -/
def groupRests (text : List UInt8) : List (List Token) → List (List UInt8)
  | [] => []
  | branch :: branches =>
      (if isVoid branch then [] else rests [text] branch) ++
        groupRests text branches

end

/-- A name matches a pattern. -/
def isMatch (pattern : List Token) (name : Text) : Bool :=
  match pattern with
  | [.leadingDirectories] => true
  | _ => (rests [name.flatMap String.utf8EncodeChar] pattern).any List.isEmpty

end ConfigEdit.Glob
