import ConfigEdit.Document.Tree
import ConfigEdit.Patch.Path
import ConfigEdit.Scan.Fault

/-!
# Errors of edits

A document can be malformed, or not have the one exported call that an edit
needs; a patch can hold values that no document can hold; and a path can be
malformed.  An edit that fails has no result.
-/

namespace ConfigEdit

/-- Why a document has no configuration. -/
inductive StructureError where
  | noDefaultExport
  | multipleDefaultExports (count : Nat)
  | notACall (found : Expr.Kind)
  | missingArgument (callee : Text)
  | notAnObject (callee : Text) (found : Expr.Kind)
deriving DecidableEq, Repr

/-- The error in words. -/
def StructureError.message : StructureError → String
  | .noDefaultExport => "document has no `export default`"
  | .multipleDefaultExports count =>
      "document has " ++ toString count ++
        " default exports, expected exactly one"
  | .notACall found =>
      "default export is a " ++ found.name ++ ", expected a call expression"
  | .missingArgument callee =>
      "`" ++ String.ofList callee ++
        "(...)` is called without a config argument"
  | .notAnObject callee found =>
      "first argument of `" ++ String.ofList callee ++ "(...)` is a " ++
        found.name ++ ", expected an object literal"

/-- Why a value cannot be written into a document. -/
inductive UnsupportedValue where
  | null
  | array
  | markerWithoutText
  | markerWithOtherKeys
  | patchNotAnObject (found : String)
  | noFunctionName (call : Text)
  | notACall (call : Text)
  | textAfterCall (call : Text)
  | unreadable (call : Text) (cause : Cause)
  | argument (text : Text)
deriving DecidableEq, Repr

/-- The reason in words. -/
def UnsupportedValue.message : UnsupportedValue → String
  | .null => "null is not supported"
  | .array => "arrays are not supported"
  | .markerWithoutText => "`$call` must hold the call text as a string"
  | .markerWithOtherKeys => "`$call` marker must be the only key"
  | .patchNotAnObject found => "patch must be an object, got " ++ found
  | .noFunctionName call =>
      "`" ++ String.ofList call ++ "` does not start with a function name"
  | .notACall call => "`" ++ String.ofList call ++ "` is not a call expression"
  | .textAfterCall call =>
      "unexpected text after the call in `" ++ String.ofList call ++ "`"
  | .unreadable call cause =>
      "cannot read call `" ++ String.ofList call ++ "`: " ++ cause.message
  | .argument text =>
      "call argument `" ++ String.ofList text ++
        "` is not a literal, identifier, object or call"

/-- Why an edit failed. -/
inductive EditError where
  | malformed (error : SyntaxError)
  | noConfiguration (error : StructureError)
  | unsupported (path : PropertyPath) (reason : UnsupportedValue)
  | invalidPath (dotted : Text)
deriving DecidableEq, Repr

/-- The error as it is shown to users. -/
def EditError.message : EditError → String
  | .malformed error => error.message
  | .noConfiguration error => error.message
  | .unsupported path reason =>
      "unsupported value at `" ++ String.ofList path.shown ++ "`: " ++
        reason.message
  | .invalidPath dotted =>
      "invalid property path `" ++ String.ofList dotted ++ "`"

/-- The path that a text names, or the error that it names none. -/
def PropertyPath.parse (dotted : Text) : Except EditError PropertyPath :=
  match PropertyPath.ofDotted? dotted with
  | some path => .ok path
  | none => .error (.invalidPath dotted)

/-- The set of the paths that texts name. -/
def RemovalSet.parse (dotted : List Text) : Except EditError RemovalSet :=
  (dotted.mapM PropertyPath.parse).map RemovalSet.ofList

end ConfigEdit
