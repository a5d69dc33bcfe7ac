import ConfigEdit.Scan.Expression

/-!
# Argument lists

The text between the parentheses of a call is cut into its arguments at the
commas that stand outside all brackets, strings, templates and comments.  An
argument is a `Span`, without the trivia around it.  A comma at the end is
accepted, an argument without tokens is not.
-/

namespace ConfigEdit

/-- A part of the text `whole`, from one place to a later one. -/
structure Span (whole : Text) where
  start : Place whole
  finish : Place start.1

namespace Span

/-- The characters of a span. -/
def text {whole : Text} (span : Span whole) : Text :=
  span.start.1.upTo span.finish.1

/-- The byte offsets of a span. -/
def offsets {whole : Text} (span : Span whole) : Nat × Nat :=
  (whole.utf8Size - span.start.1.utf8Size,
    whole.utf8Size - span.finish.1.utf8Size)

/-- A span of the end of a text is a span of the text. -/
def within {whole rest : Text} (inside : rest <:+ whole)
    (span : Span rest) : Span whole :=
  ⟨⟨span.start.1, span.start.2.trans inside⟩, span.finish⟩

theorem length_text_le {whole : Text} (span : Span whole) :
    span.text.length ≤ whole.length := by
  have start := span.start.length_le
  have cut : span.text.length ≤ span.start.1.length := by
    simp only [text, Text.upTo, List.length_take]
    omega
  omega

end Span

/-- The arguments of a call, given the text between its parentheses. -/
def splitArguments (text : Text) : Except Fault (List (Span text)) :=
  match began : skipTrivia text with
  | .error fault => .error fault
  | .ok [] => .ok []
  | .ok (first :: others) =>
      have start : first :: others <:+ text := skipTrivia_suffix began
      match skipExpression (first :: others) with
      | .error fault => .error fault
      | .ok finish =>
          let span : Span text := ⟨⟨first :: others, start⟩, finish⟩
          match found : skipTrivia finish.1 with
          | .error fault => .error fault
          | .ok [] => .ok [span]
          | .ok (character :: rest) =>
              have later : character :: rest <:+ text :=
                ((skipTrivia_suffix found).trans finish.2).trans start
              have : rest.length < text.length := later.length_le
              if character = ',' then
                if finish.1.length < (first :: others).length then
                  match splitArguments rest with
                  | .error fault => .error fault
                  | .ok spans =>
                      .ok (span ::
                        spans.map (Span.within
                          ((List.suffix_cons character rest).trans later)))
                else .error (.here .emptyArgument (first :: others))
              else .error (.here (.unexpected character) (character :: rest))
termination_by text.length

end ConfigEdit
