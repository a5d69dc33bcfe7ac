import ConfigEdit.Edit.Error

/-!
# The configuration of a document

A document has a configuration if it has exactly one default export, which is
a call whose first argument is an object literal.  `ConfigRoot` is the
document, taken apart around that literal.
-/

namespace ConfigEdit

/-- A document around its configuration. -/
structure ConfigRoot where
  before : List Segment
  head : Text
  callee : Text
  leading : Text
  literal : ObjectLiteral
  trailing : Text
  otherArgs : List Argument
  close : Text
  trailingComma : Bool
  after : List Segment

namespace ConfigRoot

/-- The exported call. -/
def call (root : ConfigRoot) : Call :=
  { callee := root.callee
    args := ⟨root.leading, .object root.literal, root.trailing⟩ ::
      root.otherArgs
    close := root.close
    trailingComma := root.trailingComma }

/-- The whole document. -/
def document (root : ConfigRoot) : Document :=
  ⟨root.before ++ .defaultExport ⟨root.head, .call root.call⟩ :: root.after⟩

/-- The same document with another configuration. -/
def replace (root : ConfigRoot) (literal : ObjectLiteral) : ConfigRoot :=
  { root with literal }

end ConfigRoot

/-- The segments before the first default export, the export, and the segments
behind it. -/
def splitAtExport? :
    List Segment → Option (List Segment × DefaultExport × List Segment)
  | [] => none
  | .defaultExport value :: after => some ([], value, after)
  | .text text :: others =>
      (splitAtExport? others).map fun (before, value, after) =>
        (.text text :: before, value, after)

namespace Document

/-- The number of default exports. -/
def exportCount (document : Document) : Nat :=
  document.segments.countP fun
    | .defaultExport _ => true
    | .text _ => false

/-- The configuration of a document. -/
def locate (document : Document) : Except StructureError ConfigRoot :=
  match splitAtExport? document.segments with
  | none => .error .noDefaultExport
  | some (before, value, after) =>
      if document.exportCount ≠ 1 then
        .error (.multipleDefaultExports document.exportCount)
      else
        match value.value with
        | .call call =>
            match call.args with
            | [] => .error (.missingArgument call.calleeName)
            | ⟨leading, .object literal, trailing⟩ :: otherArgs =>
                .ok
                  { before, head := value.head, callee := call.callee,
                    leading, literal, trailing, otherArgs, close := call.close,
                    trailingComma := call.trailingComma, after }
            | ⟨_, other, _⟩ :: _ =>
                .error (.notAnObject call.calleeName other.kind)
        | other => .error (.notACall other.kind)

end Document

end ConfigEdit
