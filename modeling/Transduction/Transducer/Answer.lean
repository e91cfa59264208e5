import Transduction.Transducer.Evaluate
import Transduction.Transducer.Functional
import Transduction.Transducer.Run

/-!
# What answers say

The answer to a word is a statement about the computations over it, and a failure of the check is a
statement about the computations over some word. Both are said here in terms of computations alone,
whatever the way in which answers and failures are found.

## Main definitions

* `Transducer.Describes`: what the answer to a word says, case by case;
* `Transducer.Exhibits`: the word shows an ambiguity that the check reports;
* `SameAnswer`: two answers that differ in the numbers of states at most.
-/

namespace Transduction

/-- The same output, or the same failure up to the states that it names. A trellis that does not
lead back is no answer. -/
inductive SameAnswer : Except EvalError (Option Output) → Except EvalError (Option Output) → Prop
  /-- The word has the same output, or none. -/
  | ok (r : Option Output) : SameAnswer (.ok r) (.ok r)
  /-- A state is reached in two ways, after as many symbols. -/
  | paths (position : Nat) (target source source' target₂ source₂ source₂' : StateId) :
    SameAnswer (.error (.paths position target source source'))
      (.error (.paths position target₂ source₂ source₂'))
  /-- Two states accept. -/
  | acceptance (state state' state₂ state₂' : StateId) :
    SameAnswer (.error (.acceptance state state')) (.error (.acceptance state₂ state₂'))

namespace Transducer

variable (m : Transducer)

/-- A computation over the word leads from the initial state to `s`. -/
def Reaches (w : List Symbol) (s : StateId) : Prop := ∃ is o, m.Run m.initial w is s o

/-- Two computations over the word lead from the initial state to `s`. -/
def ReachesTwice (w : List Symbol) (s : StateId) : Prop :=
  ∃ is js o p, m.Run m.initial w is s o ∧ m.Run m.initial w js s p ∧ is ≠ js

/-- One computation over the word, and no other, leads from the initial state to `s`. -/
def ReachesOnce (w : List Symbol) (s : StateId) : Prop :=
  ∃ is o, m.Run m.initial w is s o ∧ ∀ js p, m.Run m.initial w js s p → js = is

/-- The computation over the word with the given indices leads from the initial state to `t`, and
its last edge leaves `s`. -/
def EntersFrom (w : List Symbol) (is : List Nat) (s t : StateId) : Prop :=
  ∃ u x js i o e, w = u ++ [x] ∧ is = js ++ [i] ∧ m.Run m.initial u js s o ∧
    (m.edges s)[i]? = some e ∧ x ∈ e.range ∧ e.target = t

/-- What the answer to a word says about the computations over it. -/
def Describes (w : List Symbol) : Except EvalError (Option Output) → Prop
  | .ok (some o) => ∃ is, m.AcceptingRun w is o ∧ ∀ js p, m.AcceptingRun w js p → js = is
  | .ok none => ∀ is o, ¬ m.AcceptingRun w is o
  | .error (.paths position target s t) =>
    position ≤ w.length ∧ m.ReachesTwice (w.take position) target ∧
      (∀ n < position, ∀ u, ¬ m.ReachesTwice (w.take n) u) ∧
      ∃ is js, is ≠ js ∧ m.EntersFrom (w.take position) is s target ∧
        m.EntersFrom (w.take position) js t target
  | .error (.acceptance s t) =>
    s ≠ t ∧ (m.final? s).isSome ∧ (m.final? t).isSome ∧ m.ReachesOnce w s ∧ m.ReachesOnce w t
  | .error (.brokenBacktrack _) => False

/-- The word shows the ambiguity: the states that are named can be active together after it, and
evaluation fails where it is said. Over a symbol with two ways into one state, it fails whatever
follows the symbol, but not before. -/
def Exhibits (w : List Symbol) : AmbiguityError → Prop
  | .acceptance s t f g =>
    s < t ∧ m.Reaches w s ∧ m.Reaches w t ∧ m.final? s = some f ∧ m.final? t = some g ∧
      ∃ s' t', m.evaluate w = .error (.acceptance s' t')
  | .transitions s t target x =>
    s ≤ t ∧ (∃ r, m.evaluate w = .ok r) ∧ m.Reaches w s ∧ m.Reaches w t ∧
      (∃ (i j : Nat) (e f : Edge), (s, i) ≠ (t, j) ∧
        (m.edges s)[i]? = some e ∧ x ∈ e.range ∧ e.target = target ∧
        (m.edges t)[j]? = some f ∧ x ∈ f.range ∧ f.target = target) ∧
      ∀ v, ∃ target' s' t', m.evaluate (w ++ [x] ++ v) =
        .error (.paths (w.length + 1) target' s' t')
  | .explorationLimit _ => False

end Transducer

end Transduction
