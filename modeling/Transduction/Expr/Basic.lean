import Transduction.Symbol
import Transduction.Output

/-!
# Expressions with output

A regular expression whose parts emit text. A literal emits its output after its last symbol, a
range after the symbol it reads, and `emit` adds an output after whatever its body emits.

An *occurrence* is a place of the expression that reads one symbol. The empty literal reads nothing
but counts as an occurrence too: it takes a number like every other leaf, so that the numbers of
the leaves to its right do not depend on its output.
-/

namespace Transduction

/-- A regular expression whose parts emit text. -/
inductive Expr where
  /-- Either side. -/
  | union (lhs rhs : Expr)
  /-- The left side, then the right side. -/
  | concat (lhs rhs : Expr)
  /-- The body, any number of times. -/
  | star (body : Expr)
  /-- One word; `out` is emitted once all of it has been read. -/
  | literal (word : List Symbol) (out : Output)
  /-- One symbol of the range. -/
  | range (range : SymbolRange) (out : Output)
  /-- The body, then `out`. -/
  | emit (body : Expr) (out : Output)
  /-- A named expression. Names are not looked up. -/
  | var (name : String)
deriving DecidableEq

namespace Expr

/-- The literal that a text spells. -/
def text (text : String) (out : Output) : Expr := literal (Symbol.wordOf text) out

/-- The empty word with an output. -/
abbrev empty (out : Output) : Expr := literal [] out

/-- The number of occurrences: one for each symbol of a literal, one for each range and one for each
empty literal. -/
def occurrences : Expr → Nat
  | union l r | concat l r => l.occurrences + r.occurrences
  | star b | emit b _ => b.occurrences
  | literal w _ => max w.length 1
  | range _ _ => 1
  | var _ => 0

end Expr

end Transduction
