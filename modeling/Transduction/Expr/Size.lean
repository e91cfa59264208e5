import Transduction.Expr.Normalize

/-!
# The size of an expression

What an expression is made of, counted: the text of its outputs, and its empty literals. Both are
what normalisation saves: an empty literal vanishes when the expression beside it takes its output
over, and a common end of two branches is written once instead of twice.

## Main definitions

* `Expr.outputs`, `Expr.emptyLiterals`: the text of all outputs; the number of empty literals;
* `Expr.absorbed`: the number of empty literals that normalisation eliminates;
* `Expr.hoisted`: the number of characters that it saves.
-/

namespace Transduction.Expr

/-- The text of all outputs, from left to right. An output that follows a body stands after those of
the body. -/
def outputs : Expr → Output
  | union l r | concat l r => l.outputs ++ r.outputs
  | star b => b.outputs
  | literal _ out | range _ out => out
  | emit b out => b.outputs ++ out
  | var _ => []

/-- The number of empty literals. -/
def emptyLiterals : Expr → Nat
  | union l r | concat l r => l.emptyLiterals + r.emptyLiterals
  | star b | emit b _ => b.emptyLiterals
  | literal word _ => if word.isEmpty then 1 else 0
  | range .. | var _ => 0

/-- The number of empty literals that vanish where two expressions are put in sequence: one on the
left if it has no output or stands before a literal or a range, or else one on the right. -/
def absorbedBetween : Expr → Expr → Nat
  | literal [] [], _ => 1
  | _, literal [] _ => 1
  | literal [] _, literal .. => 1
  | literal [] _, range .. => 1
  | _, _ => 0

/-- The number of empty literals that normalisation eliminates: those that vanish at a concatenation
once both sides are normal. -/
def absorbed : Expr → Nat
  | union l r => l.absorbed + r.absorbed
  | concat l r => l.absorbed + r.absorbed + absorbedBetween l.normalize r.normalize
  | star b | emit b _ => b.absorbed
  | literal .. | range .. | var _ => 0

/-- The number of characters that normalisation saves: those of the common ends of branches, once
both branches are normal. -/
def hoisted : Expr → Nat
  | union l r => l.hoisted + r.hoisted + (commonTrailing l.normalize r.normalize).length
  | concat l r => l.hoisted + r.hoisted
  | star b | emit b _ => b.hoisted
  | literal .. | range .. | var _ => 0

end Transduction.Expr
