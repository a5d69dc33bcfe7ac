import ConfigEdit.Document.Parse
import ConfigEdit.Edit.Error
import ConfigEdit.Number.Literal
import ConfigEdit.Scan.Arguments

/-!
# Calls from text

The text of a call is taken apart into a callee and arguments, and the call is
built anew.  Strings, numbers and truth values become new literals, calls are
built in the same way, and identifier paths and object literals stay as they
are written.  No other arguments are accepted.
-/

namespace ConfigEdit

/-- What follows the function name that a text begins with: identifiers with
points between them. -/
def skipFunctionName? (text : Text) : Option (Place text) :=
  match found : scanIdentifier? text with
  | none => none
  | some (_, '.' :: rest) =>
      have inside : '.' :: rest <:+ text := scanIdentifier?_suffix found
      have : rest.length < text.length := inside.length_le
      (skipFunctionName? rest).map fun place =>
        ⟨place.1, place.2.trans ((List.suffix_cons _ rest).trans inside)⟩
  | some (_, rest) => some ⟨rest, scanIdentifier?_suffix found⟩
termination_by text.length

theorem Text.length_trim_le (text : Text) : text.trim.length ≤ text.length := by
  have first : (text.dropWhile isBlank).length ≤ text.length :=
    (List.dropWhile_suffix _).length_le
  have second :
      ((text.dropWhile isBlank).reverse.dropWhile isBlank).length ≤
        (text.dropWhile isBlank).reverse.length :=
    (List.dropWhile_suffix _).length_le
  simp only [List.length_reverse] at second
  simp only [trim, List.length_reverse]
  omega

/-- A number literal written as the number it stands for. -/
def Expr.ofNumberLiteral (raw : Text) : Expr :=
  match Number.ofLiteral? raw with
  | some value => .number value.literal
  | none => .number raw

/-- The text between the parentheses of a group, given the text behind its
opening parenthesis and the text behind the group. -/
def groupInside (inner after : Text) : Text := (inner.upTo after).dropLast

theorem length_groupInside_le (inner after : Text) :
    (groupInside inner after).length ≤ inner.length := by
  simp only [groupInside, Text.upTo, List.length_dropLast, List.length_take]
  omega

mutual

/-- The call that a text at a path spells. -/
def buildCall (path : PropertyPath) (marker : Text) : Except EditError Expr :=
  let text := marker.trim
  match skipFunctionName? text with
  | none => .error (.unsupported path (.noFunctionName text))
  | some afterName =>
      match found : skipTrivia afterName.1 with
      | .error fault =>
          .error (.unsupported path (.unreadable text fault.cause))
      | .ok ('(' :: inner) =>
          have : inner.length < marker.length :=
            Nat.lt_of_lt_of_le (skipTrivia_suffix found).length_le
              (Nat.le_trans afterName.length_le marker.length_trim_le)
          match skipGroup ('(' :: inner) with
          | .error fault =>
              .error (.unsupported path (.unreadable text fault.cause))
          | .ok after =>
              match skipTrivia after with
              | .error fault =>
                  .error (.unsupported path (.unreadable text fault.cause))
              | .ok (_ :: _) => .error (.unsupported path (.textAfterCall text))
              | .ok [] =>
                  match splitArguments (groupInside inner after) with
                  | .error fault =>
                      .error (.unsupported path (.unreadable text fault.cause))
                  | .ok spans => do
                      let args ← spans.mapM
                          fun (span : Span (groupInside inner after)) =>
                        have : span.text.length < marker.length :=
                          Nat.lt_of_le_of_lt
                            (Nat.le_trans span.length_text_le
                              (length_groupInside_le inner after)) ‹_›
                        buildArgument path span.text
                      return .call (.ofArguments (text.upTo afterName.1) args)
      | .ok _ => .error (.unsupported path (.notACall text))
termination_by 2 * marker.length

/-- The argument that a text spells, of a call at a path. -/
def buildArgument (path : PropertyPath) (text : Text) : Except EditError Expr :=
  match Expr.parseFault text with
  | .error fault => .error (.unsupported path (.unreadable text fault.cause))
  | .ok (.string value _) => .ok (.string value none)
  | .ok (.number raw) => .ok (.ofNumberLiteral raw)
  | .ok (.boolean value) => .ok (.boolean value)
  | .ok (.call _) => buildCall path text
  | .ok (.object literal) => .ok (.object literal)
  | .ok (.verbatim written) =>
      if written.isIdentifierPath then .ok (.verbatim written)
      else .error (.unsupported path (.argument written))
termination_by 2 * text.length + 1

end

end ConfigEdit
