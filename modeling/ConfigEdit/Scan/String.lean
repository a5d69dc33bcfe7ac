import ConfigEdit.Scan.Fault

/-!
# String literals

A string literal reaches up to the next quotation mark of its kind that no
backslash stands in front of, and does not go past the end of its line.
-/

namespace ConfigEdit

/-- Quotation marks of string literals. -/
def isQuotationMark (character : Char) : Bool :=
  character = '\x27' || character = '\x22'

/-- The text behind the string literal whose opening mark has been read. -/
def skipStringBody (opener : Text) (mark : Char) : Text → Except Fault Text
  | [] => .error ⟨.unterminatedString, opener, []⟩
  | '\n' :: rest => .error ⟨.unterminatedString, opener, '\n' :: rest⟩
  | ['\\'] => .error ⟨.unterminatedString, opener, []⟩
  | '\\' :: _ :: rest => skipStringBody opener mark rest
  | character :: rest =>
      if character = mark then .ok rest else skipStringBody opener mark rest

/-- The text behind the string literal it begins with. -/
def skipString : Text → Except Fault Text
  | [] => .error (.here .expectedString [])
  | character :: rest =>
      if isQuotationMark character then
        skipStringBody (character :: rest) character rest
      else .error (.here .expectedString (character :: rest))

private theorem skipStringBody_suffix
    {opener : Text} {mark : Char} {text rest : Text}
    (found : skipStringBody opener mark text = .ok rest) : rest <:+ text := by
  fun_induction skipStringBody opener mark text with
  | case1 => contradiction
  | case2 => contradiction
  | case3 => contradiction
  | case4 character others induction =>
      exact (induction found).trans ⟨['\\', character], rfl⟩
  | case5 character others =>
      simp only [Except.ok.injEq] at found
      subst found
      exact List.suffix_cons _ _
  | case6 character others _ _ _ _ induction =>
      exact (induction found).trans (List.suffix_cons _ others)

/-- What follows a string literal is a part of the text behind its mark. -/
theorem skipString_suffix {character : Char} {text rest : Text}
    (found : skipString (character :: text) = .ok rest) : rest <:+ text := by
  rw [skipString] at found
  split at found
  · exact skipStringBody_suffix found
  · contradiction

end ConfigEdit
