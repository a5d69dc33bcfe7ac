import ConfigEdit.Proofs.Text.Line
import ConfigEdit.Proofs.Text.Quoted
import Mathlib.Data.List.Chain

/-!
# Texts with one kind of line break

`Crlf` says that each line feed of a text stands behind a carriage return.
Texts of this kind can be put together, and they can be cut wherever the cut
does not go through a line break.
-/

namespace ConfigEdit.Text

/-- Each line feed stands behind a carriage return. -/
def Crlf (text : Text) : Prop :=
  text.head? ≠ some '\n' ∧
    text.IsChain fun before after => after = '\n' → before = '\r'

instance (text : Text) : Decidable text.Crlf :=
  inferInstanceAs (Decidable (_ ∧ _))

theorem Crlf.of_flat {text : Text} (flat : '\n' ∉ text) : text.Crlf := by
  constructor
  · intro first
    exact flat (List.mem_of_head? first)
  · induction text with
    | nil => exact .nil
    | cons character rest induction =>
        rw [List.mem_cons, not_or] at flat
        rw [List.isChain_cons]
        refine ⟨?_, induction flat.2⟩
        rintro next first rfl
        exact absurd (List.mem_of_head? first) flat.2

namespace Crlf

variable {left right text : Text}

theorem nil : Crlf [] := by decide

theorem append (first : left.Crlf) (second : right.Crlf) :
    (left ++ right).Crlf := by
  constructor
  · cases left with
    | nil => exact second.1
    | cons character rest => exact first.1
  · rw [List.isChain_append]
    refine ⟨first.2, second.2, ?_⟩
    rintro before - after starts rfl
    exact absurd starts second.1

theorem cons
    {character : Char} (notFeed : character ≠ '\n') (rest : text.Crlf) :
    Crlf (character :: text) :=
  @append [character] text (.of_flat (by simpa using notFeed.symm)) rest

theorem of_append_left (whole : (left ++ right).Crlf) : left.Crlf := by
  constructor
  · cases left with
    | nil => simp
    | cons character rest => exact whole.1
  · exact (List.isChain_append.1 whole.2).1

/-- What stands behind a cut in front of something else than a line feed. -/
theorem of_append_right_of_head (whole : (left ++ right).Crlf)
    (notFeed : right.head? ≠ some '\n') :
    right.Crlf :=
  ⟨notFeed, (List.isChain_append.1 whole.2).2.1⟩

/-- What stands behind a cut behind something else than a carriage return. -/
theorem of_append_right_of_last (whole : (left ++ right).Crlf)
    (notReturn : left.getLast? ≠ some '\r') :
    right.Crlf := by
  apply whole.of_append_right_of_head
  intro first
  cases last : left.getLast? with
  | none =>
      rw [List.getLast?_eq_none_iff] at last
      subst last
      exact whole.1 first
  | some before =>
      have same :=
        (List.isChain_append.1 whole.2).2.2 before last '\n' first rfl
      exact notReturn (same ▸ last)

theorem of_cons {character : Char} (whole : Crlf (character :: text))
    (notReturn : character ≠ '\r') : text.Crlf :=
  @of_append_right_of_last [character] text whole (by simpa using notReturn)

/-- The lines of the text end in one way only. -/
theorem splitLine?
    {line rest : Text} {lineBreak : LineBreak} (whole : text.Crlf)
    (found : Text.splitLine? text = some (line, lineBreak, rest)) :
    lineBreak = .crlf := by
  fun_induction Text.splitLine? text generalizing line with
  | case1 => contradiction
  | case2 others => exact absurd rfl whole.1
  | case3 others =>
      cases found
      rfl
  | case4 character others _ noBreak induction =>
      obtain ⟨⟨inner, found', after⟩, split, same⟩ :=
        Option.map_eq_some_iff.1 found
      simp only [Prod.mk.injEq] at same
      obtain ⟨rfl, rfl, rfl⟩ := same
      refine induction ⟨?_, whole.2.tail⟩ split
      intro first
      cases others with
      | nil => simp at first
      | cons next others =>
          obtain rfl := Option.some.inj first
          exact noBreak others ((List.isChain_cons_cons.1 whole.2).1 rfl) rfl

theorem lineBreak?_eq {lineBreak : LineBreak} (whole : text.Crlf)
    (found : text.lineBreak? = some lineBreak) : lineBreak = .crlf := by
  obtain ⟨⟨line, other, rest⟩, split, rfl⟩ := Option.map_eq_some_iff.1 found
  exact whole.splitLine? split

theorem lineComment (whole : text.Crlf) : text.lineComment.Crlf := by
  rw [← lineComment_append text] at whole
  exact whole.of_append_left

theorem withoutLineComment (whole : text.Crlf) :
    text.withoutLineComment.Crlf := by
  rw [Text.withoutLineComment, splitLineComment]
  split
  · next line lineBreak rest found =>
      split
      · exact whole
      · obtain rfl := whole.splitLine? found
        rw [splitLine?_eq_some found] at whole
        exact whole.of_append_right_of_head (by simp [LineBreak.text])
  · exact whole

end Crlf

theorem newline_notMem_quote (text : Text) (style : QuoteStyle) :
    '\n' ∉ text.quote style :=
  fun inside => Bool.noConfusion (isLineTerminator_of_mem_quote inside)

theorem newline_notMem_formatKey (name : Text) (style : QuoteStyle) :
    '\n' ∉ name.formatKey style := by
  rw [formatKey]
  split
  · next word =>
      intro inside
      cases name with
      | nil => contradiction
      | cons first rest =>
          simp only [isIdentifier, Bool.and_eq_true, List.all_eq_true] at word
          rcases List.mem_cons.1 inside with rfl | among
          · exact absurd word.1 (by decide)
          · exact absurd (word.2 _ among) (by decide)
  · exact newline_notMem_quote name style

end ConfigEdit.Text
