import Mathlib.Logic.Equiv.Defs
import Transduction.Transducer.Parts

/-!
# Tables under other numbers

The states of a table can be numbered in any way, and the edges of a state can be listed in any
order. `Parts.Relabels` says when one table is another one up to this: a permutation of the states
tells the new numbers, and everything that names a state names it by its new number.

This is a relation between tables as they are given, before their edges are sorted. The sorted
machines differ in more than their numbers, since the order of edges depends on their targets.

## Main definitions

* `Parts.Relabels`: the same table under other numbers, with edges in any order.
-/

namespace Transduction

/-- The number of a state under a permutation. Numbers that are not states stay. -/
def relabel {n : Nat} (p : Equiv.Perm (Fin n)) (s : StateId) : StateId :=
  if h : s < n then p ⟨s, h⟩ else s

namespace Transducer

/-- State `s` of the first table is state `relabel p s` of the second one. -/
structure Parts.Relabels (P P' : Parts) (p : Equiv.Perm (Fin P.edges.length)) : Prop where
  /-- There are as many states. -/
  length_edges : P'.edges.length = P.edges.length
  /-- There are as many final outputs. -/
  length_finals : P'.finals.length = P.finals.length
  /-- Each state has the same edges, in any order, up to the numbers of their targets. -/
  edges : ∀ s < P.edges.length, (P'.edges.getD (relabel p s) []).Perm
    ((P.edges.getD s []).map fun e ↦ { e with target := relabel p e.target })
  /-- Each state has the same final output. -/
  finals : ∀ s < P.edges.length, P'.finals.getD (relabel p s) none = P.finals.getD s none
  /-- Words begin in the same state. -/
  initial : P'.initial = relabel p P.initial

end Transducer

end Transduction
