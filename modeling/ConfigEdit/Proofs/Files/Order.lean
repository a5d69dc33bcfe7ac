import ConfigEdit.Files.Path
import ConfigEdit.Proofs.Scan.Paths
import Mathlib.Data.List.Lex
import Mathlib.Data.List.Pairwise

/-!
# The order of paths

Paths are ordered component by component, and two components by the first
characters that differ.  `FilePath.pathBefore` decides this order of names, so
sorting by it leaves distinct names strictly ordered (`pairwise_sorted`), and
joining the names to one directory keeps the order, since it adds them to the
components of the directory (`components_foldl_join`).
-/

namespace ConfigEdit

theorem Text.pieces_append_separator (separator : Char) (left right : Text) :
    (left ++ separator :: right).pieces separator =
      left.pieces separator ++ right.pieces separator := by
  induction left with
  | nil => simp [pieces]
  | cons character rest induction =>
      obtain ⟨piece, others, cut⟩ := exists_pieces separator rest
      rw [cut] at induction
      by_cases same : character = separator
      · rw [List.cons_append, pieces, if_pos same, pieces, if_pos same,
          induction, cut]
        rfl
      · rw [List.cons_append, pieces_cons same induction, pieces_cons same cut]
        rfl

theorem Text.pieces_eq_singleton
    {separator : Char} {text : Text} (plain : separator ∉ text) :
    text.pieces separator = [text] := by
  induction text with
  | nil => rfl
  | cons character rest induction =>
      obtain ⟨different, plain⟩ := List.ne_and_not_mem_of_not_mem_cons plain
      exact pieces_cons different.symm (induction plain)

namespace FilePath

/-- A name comes before another: the first characters that differ decide by
their codes, and a name comes before those that it begins. -/
def NameBefore : Text → Text → Prop :=
  List.Lex fun one other : Char => one.toNat < other.toNat

/-- The components of a path, between its slashes.  A slash at the end has
nothing behind it. -/
def components (path : Text) : List Text :=
  match path.getLast? with
  | none => []
  | some last =>
      if last = '/' then Text.pieces '/' path.dropLast else path.pieces '/'

/-- A path comes before another: the first components that differ decide. -/
def Before (left right : Text) : Prop :=
  List.Lex NameBefore (components left) (components right)

/-- A text that can be the name of an entry. -/
def IsName (name : Text) : Prop := name ≠ [] ∧ '/' ∉ name

instance : DecidablePred IsName := fun name =>
  inferInstanceAs (Decidable (name ≠ [] ∧ '/' ∉ name))

section Order

instance asymm_code :
    Std.Asymm fun one other : Char => one.toNat < other.toNat where
  asymm _ _ := Nat.lt_asymm

instance trichotomous_code :
    Std.Trichotomous fun one other : Char => one.toNat < other.toNat where
  trichotomous one other notBefore notAfter := by
    have same : one.toNat = other.toNat := by omega
    exact Char.ext (UInt32.toNat_inj.1 same)

instance asymm_nameBefore : Std.Asymm NameBefore :=
  inferInstanceAs (Std.Asymm (List.Lex _))

instance trichotomous_nameBefore : Std.Trichotomous NameBefore :=
  inferInstanceAs (Std.Trichotomous (List.Lex _))

theorem NameBefore.trans
    {first second third : Text} (left : NameBefore first second)
    (right : NameBefore second third) : NameBefore first third :=
  List.lex_trans Nat.lt_trans left right

theorem nameBefore_iff {left right : Text} :
    nameBefore left right = true ↔ NameBefore left right := by
  simp [nameBefore, NameBefore, List.lex_eq_true_iff_lex]

theorem pathBefore_iff {left right : List Text} :
    pathBefore left right = true ↔ List.Lex NameBefore left right := by
  simp [pathBefore, List.lex_eq_true_iff_lex, nameBefore_iff]

/-- Distinct names stand in their order when they are sorted. -/
theorem pairwise_sorted {paths : List (List Text)} (distinct : paths.Nodup) :
    (paths.mergeSort fun left right => !pathBefore right left).Pairwise
      (List.Lex NameBefore) := by
  have notAfter {left right : List Text} :
      (!pathBefore right left) = true ↔ ¬ List.Lex NameBefore right left := by
    rw [Bool.not_eq_true', ← Bool.not_eq_true, pathBefore_iff]
  have sorted :
      (paths.mergeSort fun left right => !pathBefore right left).Pairwise
        fun left right => (!pathBefore right left) = true := by
    apply List.pairwise_mergeSort
    · intro first second third left right
      rw [notAfter] at left right ⊢
      intro after
      rcases trichotomous_of (List.Lex NameBefore) first second with
        before | rfl | before
      · exact right (List.lex_trans NameBefore.trans after before)
      · exact right after
      · exact left before
    · intro left right
      rw [Bool.or_eq_true, notAfter, notAfter, ← not_and_or]
      exact fun both => asymm both.1 both.2
  have nodup :
      (paths.mergeSort fun left right => !pathBefore right left).Nodup :=
    (List.mergeSort_perm _ _).nodup_iff.2 distinct
  refine (sorted.and nodup).imp fun {left right} both => ?_
  rcases trichotomous_of (List.Lex NameBefore) left right with
    before | same | after
  · exact before
  · exact absurd same both.2
  · exact absurd after (notAfter.1 both.1)

theorem Before.ne {left right : Text} (before : Before left right) :
    left ≠ right := by
  rintro rfl
  exact irrefl_of (List.Lex NameBefore) _ before

end Order

section Components

variable {directory name : Text} {names : List Text}

/-- Behind a name there is no slash at the end of a path. -/
theorem components_append (isName : IsName name) (front : Text) :
    components (front ++ name) = (front ++ name).pieces '/' := by
  obtain ⟨last, ends⟩ :=
    Option.ne_none_iff_exists'.1 (mt List.getLast?_eq_none_iff.1 isName.1)
  have plain : last ≠ '/' := by
    rintro rfl
    exact isName.2 (List.mem_of_getLast? ends)
  rw [components, List.getLast?_append, ends, Option.some_or]
  exact if_neg plain

theorem components_join (isName : IsName name) (directory : Text) :
    components (join directory name) = components directory ++ [name] := by
  have behind (front : Text) :
      components (front ++ '/' :: name) = front.pieces '/' ++ [name] := by
    rw [List.append_cons, components_append isName, ← List.append_cons,
      Text.pieces_append_separator, Text.pieces_eq_singleton isName.2]
  rw [join]
  cases ends : directory.getLast? with
  | none =>
      rw [List.getLast?_eq_none_iff.1 ends]
      simpa [components, Text.pieces_eq_singleton isName.2]
        using components_append isName []
  | some last =>
      simp only
      split
      · next slash =>
          subst slash
          obtain ⟨front, rfl⟩ := List.getLast?_eq_some_iff.1 ends
          rw [List.append_assoc, List.cons_append, List.nil_append, behind,
            components, ends]
          simp
      · next different =>
          rw [behind, components, ends]
          simp only [if_neg different]

theorem components_foldl_join
    (areNames : ∀ name ∈ names, IsName name) (directory : Text) :
    components (names.foldl join directory) =
      components directory ++ names := by
  induction names generalizing directory with
  | nil => simp
  | cons name names induction =>
      obtain ⟨isName, areNames⟩ := List.forall_mem_cons.1 areNames
      rw [List.foldl_cons, induction areNames, components_join isName,
        List.append_assoc, List.singleton_append]

theorem eq_of_foldl_join
    {others : List Text} (areNames : ∀ name ∈ names, IsName name)
    (areOthers : ∀ name ∈ others, IsName name)
    (same : names.foldl join directory = others.foldl join directory) :
    names = others := by
  have parts := congrArg components same
  rw [components_foldl_join areNames, components_foldl_join areOthers] at parts
  exact List.append_cancel_left parts

/-- Below one directory paths are ordered as their names are. -/
theorem before_foldl_join
    {others : List Text} (areNames : ∀ name ∈ names, IsName name)
    (areOthers : ∀ name ∈ others, IsName name)
    (before : List.Lex NameBefore names others) (directory : Text) :
    Before (names.foldl join directory) (others.foldl join directory) := by
  rw [Before, components_foldl_join areNames, components_foldl_join areOthers]
  exact before.append_left _ _

end Components

end FilePath

end ConfigEdit
