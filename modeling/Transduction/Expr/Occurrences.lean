import Mathlib.Data.Nat.Basic
import Mathlib.Order.Monotone.Defs
import Transduction.Expr.Basic
import Transduction.StateSet

/-!
# The occurrences of an expression

The leaves of an expression from left to right, which is the order of their numbers. An empty
literal is an occurrence that reads nothing. When empty literals are dropped, the occurrences that
are left get new numbers in the same order; `Picks` says which old number belongs to a new one.

## Main definitions

* `Expr.occurrenceRanges`: what the occurrences read;
* `Picks`: the numbers of what is left, among the numbers of all occurrences.
-/

namespace Transduction

/-- What the occurrences of the expression read, from left to right; `none` for an empty literal,
which reads nothing. -/
def Expr.occurrenceRanges : Expr → List (Option SymbolRange)
  | union l r | concat l r => l.occurrenceRanges ++ r.occurrenceRanges
  | star b | emit b _ => b.occurrenceRanges
  | literal word _ => if word.isEmpty then [none] else word.map fun x ↦ some (.single x)
  | range r _ => [some r]
  | var _ => []

/-- Occurrence `s` of those that are left is occurrence `ρ s` of all of them. The order is kept, and
what is read; nothing is dropped that reads something. The number after the last occurrence, which
is that of the initial state, belongs to the one after the last occurrence. -/
structure Picks (ρ : StateId → StateId) (left all : List (Option SymbolRange)) : Prop where
  /-- The order is kept. -/
  strictMono : StrictMono ρ
  /-- The end belongs to the end. -/
  length : ρ left.length = all.length
  /-- An occurrence reads what it did. -/
  reads : ∀ s < left.length, all[ρ s]? = left[s]?
  /-- What is dropped reads nothing. -/
  dropped : ∀ t < all.length, (∀ s, ρ s ≠ t) → all[t]? = some none

end Transduction
