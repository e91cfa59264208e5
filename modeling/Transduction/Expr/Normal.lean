import Transduction.Expr.Normalize

/-!
# Normal expressions

The expressions that have nothing to normalise, described node by node.
-/

namespace Transduction.Expr

/-- The node can carry an output that follows it: a literal, a range, an expression with output, or
a concatenation by its last node. -/
def CarriesOutput : Expr → Prop
  | literal .. | range .. | emit .. | concat .. => True
  | union .. | star _ | var _ => False

/-- Two expressions that do not stand beside each other in a concatenation: an empty literal on the
right, one without output on the left, two literals, or an empty literal before a range. -/
def Merges : Expr → Expr → Prop
  | _, literal [] _ => True
  | literal [] [], _ => True
  | literal .., literal .. => True
  | literal [] _, range .. => True
  | _, _ => False

/-- Nothing is left to normalise: no output is empty or could be carried by the node it follows, no
sides of a concatenation merge, and no output ends the outputs of both branches of a union. -/
def IsNormal : Expr → Prop
  | union l r =>
    l.IsNormal ∧ r.IsNormal ∧ ∀ a b s, l.trailingOutput? = some a → r.trailingOutput? = some b →
      s <:+ a → s <:+ b → s = []
  | concat l r => l.IsNormal ∧ r.IsNormal ∧ ¬ Merges l r
  | star b => b.IsNormal
  | emit b out => b.IsNormal ∧ out ≠ [] ∧ ¬ b.CarriesOutput
  | literal .. | range .. | var _ => True

end Transduction.Expr
