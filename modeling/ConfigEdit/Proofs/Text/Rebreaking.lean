import ConfigEdit.Proofs.Scan.Places
import ConfigEdit.Proofs.Scan.Words
import ConfigEdit.Proofs.Text.Crlf
import ConfigEdit.Scan.String
import Mathlib.Data.List.Infix

/-!
# Other line breaks

`rebreak` writes the line breaks of a text in one of the two ways.  It maps each
character by itself, so it goes through concatenations.

Leaving out a carriage return could join the characters around it, so texts are
rebroken only where each carriage return belongs to a line break (`Paired`).  A
string literal goes on over the end of a line only behind a backslash, which
escapes one character, a line feed but not a carriage return and a line feed.
`Rebreakable` keeps both out of a text.  It speaks of the suffixes of the text,
so it holds of whatever is left to be read, and of every quotation mark, since
only the reader tells which of them open strings.
-/

namespace ConfigEdit.Text

/-- How a character is written in a text with line breaks of one kind. -/
def rebreakCharacter (lineBreak : LineBreak) (character : Char) : Text :=
  if character = '\n' then lineBreak.text
  else if character = '\r' then [] else [character]

/-- The text with a line break of one kind for each line feed, and without other
carriage returns. -/
def rebreak (lineBreak : LineBreak) (text : Text) : Text :=
  text.flatMap (rebreakCharacter lineBreak)

/-- Each carriage return is followed by a line feed. -/
def Paired (text : Text) : Prop :=
  ∀ rest, '\r' :: rest <:+ text → rest.head? = some '\n'

/-- The string literal that the text begins with, if there is one. -/
def stringLiteral? (text : Text) : Option Text :=
  (skipString text).toOption.map text.upTo

/-- Nothing that a quotation mark opens goes on over the end of a line.  This is
asked of every quotation mark, also of one in a comment or in a template
literal, where it opens no string. -/
def Uncontinued (text : Text) : Prop :=
  ∀ place ∈ text.tails, ∀ literal ∈ stringLiteral? place, '\n' ∉ literal

instance (text : Text) : Decidable text.Uncontinued :=
  inferInstanceAs
    (Decidable (∀ place ∈ text.tails, ∀ literal ∈ stringLiteral? place, _))

/-- The line breaks of the text may be written in either way. -/
structure Rebreakable (text : Text) : Prop where
  paired : text.Paired
  uncontinued : text.Uncontinued

section Rebreak

variable {lineBreak : LineBreak} {text rest : Text} {character : Char}

@[simp] theorem rebreak_nil : rebreak lineBreak [] = [] := rfl

@[simp] theorem rebreak_append (left right : Text) :
    (left ++ right).rebreak lineBreak =
      left.rebreak lineBreak ++ right.rebreak lineBreak :=
  List.flatMap_append

@[simp] theorem rebreak_feed :
    rebreak lineBreak ('\n' :: text) =
      lineBreak.text ++ text.rebreak lineBreak := rfl

@[simp] theorem rebreak_return :
    rebreak lineBreak ('\r' :: text) = text.rebreak lineBreak := rfl

theorem rebreak_cons
    (notFeed : character ≠ '\n') (notReturn : character ≠ '\r') :
    rebreak lineBreak (character :: text) =
      character :: text.rebreak lineBreak := by
  simp [rebreak, rebreakCharacter, notFeed, notReturn]

theorem rebreak_cons_cases
    (lineBreak : LineBreak) (character : Char) (text : Text) :
    (character = '\n' ∧
        rebreak lineBreak (character :: text) =
          lineBreak.text ++ text.rebreak lineBreak) ∨
      (character = '\r' ∧
        rebreak lineBreak (character :: text) = text.rebreak lineBreak) ∨
      (character ≠ '\n' ∧ character ≠ '\r' ∧
        rebreak lineBreak (character :: text) =
          character :: text.rebreak lineBreak) := by
  by_cases feed : character = '\n'
  · exact .inl ⟨feed, feed ▸ rebreak_feed⟩
  · by_cases isReturn : character = '\r'
    · exact .inr (.inl ⟨isReturn, isReturn ▸ rebreak_return⟩)
    · exact .inr (.inr ⟨feed, isReturn, rebreak_cons feed isReturn⟩)

theorem rebreak_of_flat (noFeed : '\n' ∉ text) (noReturn : '\r' ∉ text) :
    text.rebreak lineBreak = text := by
  induction text with
  | nil => rfl
  | cons character rest induction =>
      simp only [List.mem_cons, not_or] at noFeed noReturn
      rw [rebreak_cons (Ne.symm noFeed.1) (Ne.symm noReturn.1),
        induction noFeed.2 noReturn.2]

theorem rebreak_lf_crlf (noReturn : '\r' ∉ text) :
    (text.rebreak .crlf).rebreak .lf = text := by
  induction text with
  | nil => rfl
  | cons character rest induction =>
      simp only [List.mem_cons, not_or] at noReturn
      by_cases feed : character = '\n'
      · subst feed
        simp [LineBreak.text, induction noReturn.2]
      · rw [rebreak_cons feed (Ne.symm noReturn.1),
          rebreak_cons feed (Ne.symm noReturn.1), induction noReturn.2]

theorem Paired.of_suffix (paired : text.Paired) (later : rest <:+ text) :
    rest.Paired :=
  fun others inside => paired others (inside.trans later)

/-- What stands in front of a cut that goes through no line break. -/
theorem Paired.of_append_left
    {left right : Text} (paired : (left ++ right).Paired)
    (notFeed : right.head? ≠ some '\n') : left.Paired := by
  rintro others ⟨before, rfl⟩
  have next := paired (others ++ right) ⟨before, by simp⟩
  cases others with
  | nil => exact absurd next notFeed
  | cons character behind => exact next

theorem Paired.of_notMem (noReturn : '\r' ∉ text) : text.Paired := by
  intro others inside
  exact absurd (inside.subset List.mem_cons_self) noReturn

theorem paired_rebreak_crlf (text : Text) : (text.rebreak .crlf).Paired := by
  induction text with
  | nil => exact .of_notMem (by simp)
  | cons character rest induction =>
      intro others inside
      rcases rebreak_cons_cases .crlf character rest with
        ⟨rfl, same⟩ | ⟨rfl, same⟩ | ⟨-, isReturn, same⟩
      · rw [same, LineBreak.text, List.cons_append, List.suffix_cons_iff]
          at inside
        rcases inside with whole | inside
        · cases whole
          rfl
        · rw [List.singleton_append, List.suffix_cons_iff] at inside
          rcases inside with whole | inside
          · cases whole
          · exact induction others inside
      · exact induction others (same ▸ inside)
      · rw [same] at inside
        rcases List.suffix_cons_iff.1 inside with whole | inside
        · exact absurd (List.cons.inj whole).1.symm isReturn
        · exact induction others inside

/-- A character that is no part of a line break is the first one if it was
before. -/
theorem Paired.head?_of_rebreak (paired : text.Paired)
    (head : (text.rebreak lineBreak).head? = some character)
    (notFeed : character ≠ '\n')
    (notReturn : character ≠ '\r') : text.head? = some character := by
  have breaks (text : Text) :
      (rebreak lineBreak ('\n' :: text)).head? ≠ some character := by
    cases lineBreak <;> simp [LineBreak.text, notFeed.symm, notReturn.symm]
  cases text with
  | nil => simp at head
  | cons first rest =>
      rcases rebreak_cons_cases lineBreak first rest with
        ⟨rfl, -⟩ | ⟨rfl, same⟩ | ⟨-, -, same⟩
      · exact absurd head (breaks rest)
      · obtain ⟨others, rfl⟩ :=
          List.head?_eq_some_iff.1 (paired rest (List.suffix_refl _))
        rw [same] at head
        exact absurd head (breaks others)
      · rwa [same] at head

theorem Paired.rebreak_ne_nil (paired : text.Paired) (more : text ≠ []) :
    text.rebreak lineBreak ≠ [] := by
  have breaks (text : Text) : rebreak lineBreak ('\n' :: text) ≠ [] := by
    cases lineBreak <;> simp [LineBreak.text]
  cases text with
  | nil => contradiction
  | cons first rest =>
      rcases rebreak_cons_cases lineBreak first rest with
        ⟨rfl, -⟩ | ⟨rfl, same⟩ | ⟨-, -, same⟩
      · exact breaks rest
      · obtain ⟨others, rfl⟩ :=
          List.head?_eq_some_iff.1 (paired rest (List.suffix_refl _))
        rw [same]
        exact breaks others
      · rw [same]
        exact List.cons_ne_nil _ _

theorem Uncontinued.of_suffix (uncontinued : text.Uncontinued)
    (later : rest <:+ text) :
    rest.Uncontinued :=
  fun place inside => uncontinued place
    ((List.mem_tails _ _).2 (((List.mem_tails _ _).1 inside).trans later))

theorem Uncontinued.notMem
    {literal : Text} (uncontinued : (literal ++ rest).Uncontinued)
    (found : skipString (literal ++ rest) = .ok rest) : '\n' ∉ literal := by
  apply uncontinued (literal ++ rest)
    ((List.mem_tails _ _).2 (List.suffix_refl _))
  rw [stringLiteral?, found, Except.toOption, Option.map_some, upTo_append]
  rfl

theorem Rebreakable.of_suffix (able : text.Rebreakable)
    (later : rest <:+ text) :
    rest.Rebreakable :=
  ⟨able.paired.of_suffix later, able.uncontinued.of_suffix later⟩

theorem Rebreakable.of_append {before : Text}
    (able : (before ++ rest).Rebreakable) :
    rest.Rebreakable :=
  able.of_suffix (List.suffix_append before rest)

theorem Rebreakable.of_cons (able : Rebreakable (character :: rest)) :
    rest.Rebreakable :=
  able.of_suffix (List.suffix_cons character rest)

end Rebreak

theorem crlf_rebreak (text : Text) : (text.rebreak .crlf).Crlf := by
  induction text with
  | nil => exact .nil
  | cons character rest induction =>
      rcases rebreak_cons_cases .crlf character rest with
        ⟨rfl, same⟩ | ⟨rfl, same⟩ | ⟨feed, -, same⟩
      · rw [same]
        exact Crlf.append (by decide) induction
      · rwa [same]
      · rw [same]
        exact induction.cons feed

private theorem Crlf.of_skipStringBody {passed text opener rest : Text}
    {mark : Char} (whole : (passed ++ text).Crlf)
    (found : skipStringBody opener mark text = .ok rest) :
    text.Crlf := by
  apply whole.of_append_right_of_head
  intro feed
  obtain ⟨behind, rfl⟩ := List.head?_eq_some_iff.1 feed
  simp [skipStringBody] at found

private theorem skipStringBody_flat {opener text rest : Text} {mark : Char}
    (found : skipStringBody opener mark text = .ok rest) (crlf : text.Crlf) :
    ∃ body, text = body ++ rest ∧ '\n' ∉ body := by
  have notFeed {character : Char} {others : Text}
      (crlf : Crlf (character :: others)) : character ≠ '\n' := by
    rintro rfl
    exact crlf.1 rfl
  fun_induction skipStringBody opener mark text with
  | case1 | case2 | case3 => contradiction
  | case4 character others induction =>
      obtain ⟨body, rfl, flat⟩ :=
        induction found
          (@Crlf.of_skipStringBody ['\\', character] _ _ _ _ crlf found)
      refine ⟨'\\' :: character :: body, rfl, ?_⟩
      have second := (List.isChain_cons_cons.1 crlf.2).1
      rw [List.mem_cons, List.mem_cons]
      rintro (impossible | rfl | inside)
      · contradiction
      · exact absurd (second rfl) (by decide)
      · exact flat inside
  | case5 others =>
      cases found
      exact ⟨[mark], rfl, by simpa using (notFeed crlf).symm⟩
  | case6 character others _ _ _ _ induction =>
      obtain ⟨body, rfl, flat⟩ :=
        induction found (@Crlf.of_skipStringBody [character] _ _ _ _ crlf found)
      refine ⟨character :: body, rfl, ?_⟩
      rw [List.mem_cons, not_or]
      exact ⟨(notFeed crlf).symm, flat⟩

theorem Crlf.uncontinued {text : Text} (crlf : text.Crlf) :
    text.Uncontinued := by
  intro place inside literal found
  obtain ⟨rest, ended, rfl⟩ := Option.map_eq_some_iff.1 found
  cases place with
  | nil => cases ended
  | cons mark others =>
      rw [skipString] at ended
      split at ended
      · next quotes =>
          have notFeed : mark ≠ '\n' := by
            rintro rfl
            simp [isQuotationMark] at quotes
          have ended := eq_ok_of_toOption ended
          obtain ⟨before, rfl⟩ := (List.mem_tails _ _).1 inside
          have here := crlf.of_append_right_of_head (by simpa using notFeed)
          obtain ⟨body, rfl, flat⟩ :=
            skipStringBody_flat ended
              (@Crlf.of_skipStringBody [mark] _ _ _ _ here ended)
          rw [← List.cons_append, upTo_append, List.mem_cons, not_or]
          exact ⟨notFeed.symm, flat⟩
      · cases ended

theorem rebreakable_crlf (text : Text) : (text.rebreak .crlf).Rebreakable :=
  ⟨paired_rebreak_crlf text, (crlf_rebreak text).uncontinued⟩

end ConfigEdit.Text
