import ConfigEdit.Proofs.Document.Relocation
import ConfigEdit.Proofs.Document.Values

/-!
# Leaves

A leaf is an expression that is printed in the same way wherever it stands, and
whose print is read back in front of every text that ends an expression.  The
second does not hold of an angled expression: the look for type arguments goes
past its end, and so it depends on what stands there.
-/

namespace ConfigEdit

namespace Expr

/-- In front of the given text, the print is read as an expression of the same
value. -/
def ReadsBefore (options : PrintOptions) (rest : Text) (value : Expr) : Prop :=
  ∃ other, ReadsValue true (value.print options ++ rest) other rest ∧
    other.valueIn .standard = value.valueIn options

/-- An expression that is printed in one way and, unless it is angled, read
back wherever an expression may end. -/
structure Leaf (options : PrintOptions) (value : Expr) : Prop where
  fixed : ∀ lineBreak inline line,
    value.printFrom options lineBreak inline line = value.print options
  begins : ∀ rest, Joins (value.print options) rest →
    BeginsToken (value.print options ++ rest)
  reads : value.angled = false →
    ∀ rest, Stops rest → Joins (value.print options) rest →
      value.ReadsBefore options rest

end Expr

theorem Expr.FromText.print_eq {value : Expr} (fromText : value.FromText)
    (options : PrintOptions) : value.print options = value.source :=
  fromText.printFrom_eq

theorem ReadsValue.leaf {text rest : Text} {value : Expr}
    (reads : ReadsValue true text value rest) (begins : BeginsToken text)
    (options : PrintOptions) : value.Leaf options := by
  obtain ⟨fromText, split⟩ := reads.split
  have same := fromText.print_eq options
  constructor
  · intro lineBreak inline line
    rw [same, fromText.printFrom_eq]
  · intro other joins
    rw [same] at joins ⊢
    refine BeginsToken.congr_right (split ▸ begins) ?_ joins
    intro empty
    obtain ⟨run, whole, more, -⟩ := reads.tracksTo
    rw [split] at whole
    exact more (List.append_cancel_right whole ▸ empty)
  · intro plain other stops joins
    rw [same] at joins
    obtain ⟨body, whole, relocates⟩ := reads.relocates plain
    rw [split] at whole
    rw [← List.append_cancel_right whole] at relocates
    refine ⟨value, ?_, fromText.valueIn_eq _ _⟩
    rw [same]
    exact relocates other stops joins

end ConfigEdit
