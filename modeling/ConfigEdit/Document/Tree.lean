import ConfigEdit.Text.Basic
import ConfigEdit.Text.Blank

/-!
# Document trees

A document is text with default exports in it.  Only the exported expressions
are taken apart, and only where they are object literals, calls on identifier
paths, or literals; every other expression is kept as it is written.

A node that comes from a text keeps the text around its parts, so that
printing it gives the text back.  A node made by an edit keeps nothing of the
kind: its `layout`, `raw` and `close` are `none`, and the printer lays it out.
-/

namespace ConfigEdit

/-- A property key: its name, and how it is written if it comes from a text. -/
structure Key where
  name : Text
  raw : Option Text
deriving DecidableEq, Repr

/-- The text around the parts of a property. -/
structure Layout where
  /-- From the comma or brace before the property to its key. -/
  leading : Text
  /-- From the end of the key to the value, with the colon. -/
  separator : Text
  /-- From the value to the comma behind it. -/
  trailing : Text
deriving DecidableEq, Repr

/-- A member that is kept as it is written: a spread, a shorthand, a method,
or a computed property.  Shorthands and methods have a name. -/
structure WrittenMember where
  name : Option Text
  text : Text
  leading : Text
  trailing : Text
deriving DecidableEq, Repr

mutual

/-- Expressions. -/
inductive Expr where
  | object (literal : ObjectLiteral)
  | call (call : Call)
  /-- A number literal as it is written. -/
  | number (text : Text)
  /-- A string, and how it is written if it comes from a text. -/
  | string (value : Text) (raw : Option Text)
  | boolean (value : Bool)
  /-- Any other expression as it is written. -/
  | verbatim (text : Text)

/-- An object literal. -/
structure ObjectLiteral where
  members : List Member
  /-- The text between the last member, or its comma, and the closing brace. -/
  close : Option Text
  /-- Whether a comma follows the last member; `none` leaves it to the
  printer. -/
  trailingComma : Option Bool

/-- Members of an object literal. -/
inductive Member where
  | property (entry : Property)
  | written (member : WrittenMember)

/-- A property with its key and value. -/
structure Property where
  key : Key
  value : Expr
  layout : Option Layout

/-- A call. -/
structure Call where
  /-- Everything before the opening parenthesis. -/
  callee : Text
  args : List Argument
  /-- The text between the last argument, or its comma, and the closing
  parenthesis. -/
  close : Text
  trailingComma : Bool

/-- An argument with the text around it. -/
structure Argument where
  leading : Text
  value : Expr
  trailing : Text

end

/-- A default export: the text up to its expression, and the expression. -/
structure DefaultExport where
  head : Text
  value : Expr

/-- A part of a document. -/
inductive Segment where
  | text (text : Text)
  | defaultExport (value : DefaultExport)

/-- A document in its parts. -/
structure Document where
  segments : List Segment

/-- The kinds of expressions. -/
inductive Expr.Kind where
  | object
  | call
  | number
  | string
  | boolean
  | other
deriving DecidableEq, Repr

/-- The kind in words. -/
def Expr.Kind.name : Expr.Kind → String
  | .object => "object literal"
  | .call => "call expression"
  | .number => "number literal"
  | .string => "string literal"
  | .boolean => "boolean literal"
  | .other => "expression"

/-- The kind of an expression. -/
def Expr.kind : Expr → Expr.Kind
  | .object _ => .object
  | .call _ => .call
  | .number _ => .number
  | .string _ _ => .string
  | .boolean _ => .boolean
  | .verbatim _ => .other

/-- A new key. -/
def Key.ofName (name : Text) : Key := ⟨name, none⟩

namespace Property

/-- A new property. -/
def ofValue (name : Text) (value : Expr) : Property :=
  ⟨Key.ofName name, value, none⟩

/-- The same property with another value. -/
def withValue (property : Property) (value : Expr) : Property :=
  { property with value }

/-- A new property in the place of a member that is kept as it is written. -/
def replacing (member : WrittenMember) (name : Text)
    (value : Expr) : Property :=
  ⟨Key.ofName name, value, some ⟨member.leading, [':', ' '], member.trailing⟩⟩

end Property

namespace Member

/-- The name of a member, if it has one. -/
def name? : Member → Option Text
  | .property entry => some entry.key.name
  | .written member => member.name

/-- The text before a member, if the member comes from a text. -/
def leading? : Member → Option Text
  | .property entry => entry.layout.map Layout.leading
  | .written member => some member.leading

/-- The member with other text behind it, if it comes from a text. -/
def withTrailing (trailing : Text) : Member → Member
  | .property entry =>
      .property
        { entry with
          layout := entry.layout.map fun layout => { layout with trailing } }
  | .written member => .written { member with trailing }

/-- The member with other text before it, if it comes from a text. -/
def mapLeading (change : Text → Text) : Member → Member
  | .property entry =>
      .property
        { entry with
          layout := entry.layout.map fun layout =>
            { layout with leading := change layout.leading } }
  | .written member => .written { member with leading := change member.leading }

end Member

namespace ObjectLiteral

/-- A new object literal. -/
def ofProperties (properties : List Property) : ObjectLiteral :=
  ⟨properties.map .property, none, none⟩

/-- The first property with a name. -/
def property? (literal : ObjectLiteral) (name : Text) : Option Property :=
  literal.members.findSome? fun
    | .property entry => if entry.key.name = name then some entry else none
    | .written _ => none

/-- The names of all named members, in order. -/
def names (literal : ObjectLiteral) : List Text :=
  literal.members.filterMap Member.name?

end ObjectLiteral

namespace Call

/-- A new call: nothing before the first argument and a space before the
others. -/
def ofArguments (callee : Text) : List Expr → Call
  | [] => ⟨callee, [], [], false⟩
  | first :: others =>
      ⟨callee, ⟨[], first, []⟩ :: others.map fun value => ⟨[' '], value, []⟩,
        [], false⟩

/-- The callee without type arguments and without blanks around it. -/
def calleeName (call : Call) : Text :=
  Text.trim (call.callee.takeWhile (· ≠ '<'))

end Call

end ConfigEdit
