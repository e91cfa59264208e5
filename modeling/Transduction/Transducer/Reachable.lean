import Transduction.Transducer.Functional

/-!
# Sets of states that can be active together

The sets that are active after some word, over all symbols and not only over those that the
exploration tries.
-/

namespace Transduction.Transducer

/-- The set is active after some word, no state having been entered in two ways, and has a
member. -/
inductive Reachable (m : Transducer) : StateSet → Prop
  /-- Before the first symbol, the initial state is active. -/
  | initial : Reachable m m.initialSet
  /-- One more symbol is read. -/
  | step {S T : StateSet} {x : Symbol} (reachable : Reachable m S) (advance : m.advance S x = .ok T)
      (nonempty : T.members ≠ []) : Reachable m T

/-- The set that is active after a word; fails at the first symbol over which a state is entered in
two ways. -/
def advanceWord (m : Transducer) (S : StateSet) : List Symbol → Except AmbiguityError StateSet
  | [] => .ok S
  | x :: w => do advanceWord m (← m.advance S x) w

/-- From the initial state, the sets advance over the first `i` symbols of the word, but not over
the next one. -/
def StopsAt (m : Transducer) (w : List Symbol) (i : Nat) : Prop :=
  ∃ S x e, w[i]? = some x ∧ m.advanceWord m.initialSet (w.take i) = .ok S ∧
    m.advance S x = .error e

end Transduction.Transducer
