import ConfigEdit.Proofs.Bytewise.Leaves
import ConfigEdit.Proofs.Text.Quoted

/-!
# Written strings are read back

A text that is written between quotation marks ends, for the scanner and byte by
byte, at the mark that closes it, whatever stands behind it; it stays on its
line, and what stands between the marks is decoded as the text.
-/

namespace ConfigEdit

/-- A string literal in front of any text: where it ends, and what it stands
for. -/
structure LiteralFor (literal text : Text) : Prop where
  scanned : ∀ rest, skipString (literal ++ rest) = .ok rest
  movedOver : ∀ before rest,
    Cursor.skipString ⟨before ++ (literal ++ rest), before.utf8Size⟩ =
      (⟨before ++ (literal ++ rest), before.utf8Size + literal.utf8Size⟩, none)
  walkedOver : ∀ before rest,
    Walk.Tape.string (before ++ (literal ++ rest)) before.utf8Size =
      return before.utf8Size + literal.utf8Size
  onOneLine : ∀ character ∈ literal, Text.isLineTerminator character = false
  decoded : literal.unquoted.unescape = text

namespace LiteralFor

open Walk

variable {literal text : Text}

theorem offsetOf_behind (before literal rest : Text) :
    Text.offsetOf (before ++ (literal ++ rest)) rest =
      before.utf8Size + literal.utf8Size := by
  rw [← List.append_assoc, offsetOf_append, Text.utf8Size_append]

theorem of_scanned (scanned : ∀ rest, skipString (literal ++ rest) = .ok rest)
    (onOneLine : ∀ character ∈ literal, Text.isLineTerminator character = false)
    (decoded : literal.unquoted.unescape = text) : LiteralFor literal text where
  scanned := scanned
  movedOver before rest := by
    have place := seek_offsetOf (List.suffix_append before (literal ++ rest))
    rw [offsetOf_append] at place
    have behind := offsetOf_behind before literal rest
    simp only [Cursor.skipString, Cursor.inside, Cursor.rest, place, scanned,
      Cursor.after, if_true, ← behind]
    rfl
  walkedOver before rest := by
    have walked := string_eq (List.suffix_append before (literal ++ rest))
    rwa [offsetOf_append, scanned, ofScan_ok, offsetOf_behind] at walked
  onOneLine := onOneLine
  decoded := decoded

end LiteralFor

/-- A text is written as a literal that ends where it has been written to,
wherever it stands, that contains no line break and that stands for the text. -/
theorem quote_literalFor (text : Text) (style : QuoteStyle) :
    LiteralFor (text.quote style) text := by
  have quotes : isQuotationMark style.mark = true := by cases style <;> rfl
  refine .of_scanned (fun rest => ?_)
    (fun _ => Text.isLineTerminator_of_mem_quote) ?_
  · have ends := Text.closesString_escape quotes text rest
    simpa [Text.quote] using ends
  · have between : (text.quote style).unquoted = text.escape style.mark := by
      simp [Text.unquoted, Text.quote]
    rw [between, Text.unescape_escape quotes]

end ConfigEdit
