import Transduction.Expr.Denotation

/-!
# Unambiguous expressions

An expression is unambiguous if each word can be read by it in one way at most. This is a condition
on the words that its parts accept: outputs do not matter, and neither does the empty word, which
every part reads without a symbol.
-/

namespace Transduction.Expr

/-- Each word can be read in one way at most: no word but the empty one is accepted by both branches
of a union, a word has one division between the sides of a concatenation, and one division into
rounds of a star that read something. -/
def Unambiguous : Expr → Prop
  | union l r =>
    l.Unambiguous ∧ r.Unambiguous ∧ ∀ w, w ≠ [] → l.Accepts w → ¬ r.Accepts w
  | concat l r =>
    l.Unambiguous ∧ r.Unambiguous ∧
      ∀ u v s t, l.Accepts u → r.Accepts v → l.Accepts s → r.Accepts t → u ++ v = s ++ t → u = s
  | star b =>
    b.Unambiguous ∧ ∀ us vs : List (List Symbol),
      (∀ u ∈ us, u ≠ [] ∧ b.Accepts u) → (∀ v ∈ vs, v ≠ [] ∧ b.Accepts v) →
        us.flatten = vs.flatten → us = vs
  | emit b _ => b.Unambiguous
  | literal .. | range .. | var _ => True

end Transduction.Expr
