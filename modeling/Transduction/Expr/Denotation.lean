import Transduction.Expr.Basic

/-!
# What an expression means

An expression relates words to outputs. The relation is read off the expression part by part,
without positions and without machines; a word can have several outputs.

## Main definitions

* `Expr.Denotes`: the word has the output;
* `Expr.Accepts`: the word has an output.
-/

namespace Transduction

/-- Pairs of a word and an output that are put together from any number of pairs of `R`. -/
inductive Iterated (R : List Symbol → Output → Prop) : List Symbol → Output → Prop
  /-- No pair at all. -/
  | nil : Iterated R [] []
  /-- One pair before the others. -/
  | cons {u v : List Symbol} {o p : Output} (head : R u o) (tail : Iterated R v p) :
      Iterated R (u ++ v) (o ++ p)

namespace Expr

/-- The word has the output. A variable has no word. -/
def Denotes : Expr → List Symbol → Output → Prop
  | union l r, w, o => l.Denotes w o ∨ r.Denotes w o
  | concat l r, w, o => ∃ u v p q, w = u ++ v ∧ o = p ++ q ∧ l.Denotes u p ∧ r.Denotes v q
  | star b, w, o => Iterated b.Denotes w o
  | literal word out, w, o => w = word ∧ o = out
  | range r out, w, o => ∃ x, x ∈ r ∧ w = [x] ∧ o = out
  | emit b out, w, o => ∃ p, b.Denotes w p ∧ o = p ++ out
  | var _, _, _ => False

/-- The word has an output. -/
def Accepts (e : Expr) (w : List Symbol) : Prop := ∃ o, e.Denotes w o

end Expr

namespace Iterated

variable {R : List Symbol → Output → Prop}

/-- One round. -/
theorem single {u : List Symbol} {o : Output} (h : R u o) : Iterated R u o := by
  simpa using Iterated.cons h .nil

end Iterated

end Transduction
