import ConfigEdit.Document.Tree
import ConfigEdit.Text.Line
import ConfigEdit.Text.Quoted

/-!
# Printing documents

A node that comes from a text is printed as it was written.  A new node is
laid out like its surroundings:

* the members of an object literal on several lines stand on lines of their
  own, indented like their neighbours or, without any, one step deeper than
  the line on which the object begins;
* an object literal on one line stays on one line, and so do the new objects
  inside it;
* new lines end like the lines around them;
* strings, and keys that are no identifiers, get the quotation marks of the
  options.

What is printed before a node matters only through the indentation of the
current line, which `Line` keeps.
-/

namespace ConfigEdit

/-- How new nodes are written. -/
structure PrintOptions where
  /-- One step of indentation. -/
  indent : Text
  quote : QuoteStyle
  /-- A comma behind the last member of a new object on several lines. -/
  trailingComma : Bool
deriving DecidableEq, Repr

/-- Two spaces, single quotation marks, and trailing commas. -/
def PrintOptions.standard : PrintOptions := ⟨[' ', ' '], .single, true⟩

/-- The line that is being written: the blanks it begins with, and whether
nothing else has been written on it. -/
structure Line where
  indent : Text
  onlyIndent : Bool
deriving DecidableEq, Repr

namespace Line

/-- The beginning of a line. -/
def start : Line := ⟨[], true⟩

/-- The line after one more character. -/
def push (line : Line) (character : Char) : Line :=
  if character = '\n' then start
  else if line.onlyIndent && (character = ' ' || character = '\t') then
    ⟨line.indent ++ [character], true⟩
  else { line with onlyIndent := false }

/-- The line after some more text. -/
def after (line : Line) (text : Text) : Line := text.foldl push line

theorem after_append (line : Line) (left right : Text) :
    line.after (left ++ right) = (line.after left).after right :=
  List.foldl_append

end Line

namespace ObjectLiteral

/-- The texts before the members that come from a text. -/
def leadings (literal : ObjectLiteral) : List Text :=
  literal.members.filterMap Member.leading?

/-- How lines end in the text around the members. -/
def lineBreak? (literal : ObjectLiteral) : Option LineBreak :=
  (literal.leadings ++ literal.close.toList).findSome? Text.lineBreak?

/-- The literal stands on several lines.  A literal of new members alone does
unless it is inside an object literal on one line. -/
def isMultiline (literal : ObjectLiteral) (inline : Bool) : Bool :=
  (literal.close.any fun close => close.contains '\n') ||
    if literal.leadings.isEmpty then !inline
    else literal.leadings.any fun leading => leading.contains '\n'

/-- The indentation of the first member that begins a line. -/
def memberIndent? (literal : ObjectLiteral) : Option Text :=
  literal.leadings.findSome? fun leading =>
    if leading.contains '\n' then some leading.lastLine else none

/-- New members follow members that come from a text. -/
def hasAppended (literal : ObjectLiteral) : Bool :=
  !literal.leadings.isEmpty &&
    literal.members.getLast?.any fun member => member.leading?.isNone

end ObjectLiteral

/-- How the members of one object literal are laid out. -/
structure MemberStyle where
  /-- The text before a new member. -/
  newLeading : Text
  /-- The comment on the line of the last member that comes from a text. -/
  sourceComment : Text
deriving DecidableEq, Repr

/-- A key as it is written, or as it is written anew. -/
def Key.print (options : PrintOptions) (key : Key) : Text :=
  key.raw.getD (key.name.formatKey options.quote)

mutual

/-- An expression, written on the given line.  `inline` says that the
expression is inside an object literal on one line. -/
def Expr.printFrom (options : PrintOptions) (lineBreak : LineBreak)
    (inline : Bool) (line : Line) : Expr → Text
  | .number text => text
  | .string value raw => raw.getD (value.quote options.quote)
  | .boolean true => ['t', 'r', 'u', 'e']
  | .boolean false => ['f', 'a', 'l', 's', 'e']
  | .verbatim text => text
  | .call ⟨callee, args, close, trailingComma⟩ =>
      let opening := callee ++ ['(']
      opening ++
        Argument.printList options lineBreak inline
          (line.after opening) [] args ++
        (if trailingComma && !args.isEmpty then [','] else []) ++ close ++ [')']
  | .object ⟨[], close, _⟩ => '{' :: close.getD [] ++ ['}']
  | .object ⟨members, close, trailingComma⟩ =>
      let literal : ObjectLiteral := ⟨members, close, trailingComma⟩
      let multiline := literal.isMultiline inline
      let newLine := (literal.lineBreak?.getD lineBreak).text
      let style : MemberStyle :=
        { newLeading :=
            if multiline then
              newLine ++
                literal.memberIndent?.getD (line.indent ++ options.indent)
            else [' ']
          sourceComment := (close.getD []).lineComment }
      let body :=
        Member.printList options lineBreak (!multiline) style (line.push '{')
          [] members
      let comma :=
        if trailingComma.getD (multiline && options.trailingComma) then
          [',']
        else []
      let fresh := if multiline then newLine ++ line.indent else [' ']
      let ending :=
        match close with
        | some close =>
            if !literal.leadings.isEmpty || !close.blank then
              if literal.hasAppended then close.withoutLineComment else close
            else fresh
        | none => fresh
      '{' :: body ++ comma ++ ending ++ ['}']

/-- The members of an object literal.  `between` is what stands between the
member before and the next one. -/
def Member.printList
    (options : PrintOptions) (lineBreak : LineBreak) (inline : Bool)
    (style : MemberStyle) (line : Line) (between : Text) : List Member → Text
  | [] => []
  | member :: others =>
      let text := between ++ Member.printFrom options lineBreak inline style
        (line.after between) member
      let isLastSource :=
        member.leading?.isSome && others.all fun other => other.leading?.isNone
      let comma := ',' :: if isLastSource then style.sourceComment else []
      text ++ Member.printList options lineBreak inline style
        (line.after text) comma others

/-- A member of an object literal with the text around it. -/
def Member.printFrom (options : PrintOptions) (lineBreak : LineBreak)
    (inline : Bool) (style : MemberStyle) (line : Line) : Member → Text
  | .written member => member.leading ++ member.text ++ member.trailing
  | .property ⟨key, value, layout⟩ =>
      let opening :=
        (layout.map Layout.leading).getD style.newLeading ++
          key.print options ++ (layout.map Layout.separator).getD [':', ' ']
      opening ++ Expr.printFrom options lineBreak inline
        (line.after opening) value ++ (layout.map Layout.trailing).getD []

/-- The arguments of a call.  `between` is what stands between the argument
before and the next one. -/
def Argument.printList (options : PrintOptions) (lineBreak : LineBreak)
    (inline : Bool) (line : Line) (between : Text) : List Argument → Text
  | [] => []
  | ⟨leading, value, trailing⟩ :: others =>
      let opening := between ++ leading
      let text := opening ++
        Expr.printFrom options lineBreak inline (line.after opening) value ++
        trailing
      text ++ Argument.printList options lineBreak inline (line.after text)
        [','] others

end

/-- An expression, as if it stood at the beginning of a document. -/
def Expr.print (options : PrintOptions) (value : Expr) : Text :=
  value.printFrom options .lf false .start

namespace Document

/-- How lines end outside the exported expressions. -/
def lineBreak (document : Document) : LineBreak :=
  (document.segments.findSome? fun
    | .text text => text.lineBreak?
    | .defaultExport value => value.head.lineBreak?).getD .lf

/-- The segments of a document, written from the given line on. -/
def printSegments
    (options : PrintOptions) (lineBreak : LineBreak) (line : Line) :
    List Segment → Text
  | [] => []
  | .text text :: others =>
      text ++ printSegments options lineBreak (line.after text) others
  | .defaultExport ⟨head, value⟩ :: others =>
      let text :=
        head ++ value.printFrom options lineBreak false (line.after head)
      text ++ printSegments options lineBreak (line.after text) others

/-- The text of a document. -/
def print (options : PrintOptions) (document : Document) : Text :=
  printSegments options document.lineBreak .start document.segments

end Document

end ConfigEdit
