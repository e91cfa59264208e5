import Mathlib.Data.Nat.Basic
import Mathlib.Order.Monotone.Defs
import Transduction.Transducer.Basic
import Transduction.Error

/-!
# Machines that differ in their numbers

A machine can stand inside another one under other numbers: its states keep their order, every state
keeps its edges in their order, with their ranges, and the same states accept. Outputs may differ,
and the other machine may have further states, which the edges do not lead to.

What is said of the states of the one machine is then said of the other under the new numbers; for
the verdict of the check this is `SameVerdict`.

## Main definitions

* `Transducer.Renumbers`: the one machine is found in the other, up to numbers and outputs;
* `SameVerdict`: both machines pass, or both fail in the same way at corresponding states.
-/

namespace Transduction

/-- State `s` of the first machine is state `ρ s` of the second one, outputs apart. -/
structure Transducer.Renumbers (m m' : Transducer) (ρ : StateId → StateId) : Prop where
  /-- The order of the states is kept. -/
  strictMono : StrictMono ρ
  /-- States are states of the other machine. -/
  lt_size : ∀ s < m.size, ρ s < m'.size
  /-- Words begin in the same state. -/
  initial : m'.initial = ρ m.initial
  /-- Each state has the same edges, in their order. -/
  edges : ∀ s < m.size, (m'.edges (ρ s)).toList.map (fun e ↦ (e.range, e.target)) =
    (m.edges s).toList.map fun e ↦ (e.range, ρ e.target)
  /-- The same states accept. -/
  accepts : ∀ s < m.size, (m'.final? (ρ s)).isSome = (m.final? s).isSome

/-- The same failure of the check, states being renumbered. The outputs that it shows may differ. -/
inductive AmbiguityError.Renumbered (ρ : StateId → StateId) : AmbiguityError → AmbiguityError → Prop
  /-- Corresponding states accept. -/
  | acceptance (first second : StateId) (firstOut secondOut firstOut' secondOut' : Output) :
    Renumbered ρ (.acceptance first second firstOut secondOut)
      (.acceptance (ρ first) (ρ second) firstOut' secondOut')
  /-- Corresponding states are entered from corresponding states over the same symbol. -/
  | transitions (firstSource secondSource target : StateId) (input : Symbol) :
    Renumbered ρ (.transitions firstSource secondSource target input)
      (.transitions (ρ firstSource) (ρ secondSource) (ρ target) input)
  /-- The same limit has been reached. -/
  | explorationLimit (limit : Nat) :
    Renumbered ρ (.explorationLimit limit) (.explorationLimit limit)

/-- The same verdict of the check, states being renumbered. -/
inductive SameVerdict (ρ : StateId → StateId) :
    Except AmbiguityError Unit → Except AmbiguityError Unit → Prop
  /-- Both machines pass. -/
  | ok : SameVerdict ρ (.ok ()) (.ok ())
  /-- Both fail in the same way. -/
  | error {e e' : AmbiguityError} (renumbered : e.Renumbered ρ e') :
    SameVerdict ρ (.error e) (.error e')

end Transduction
