import Transduction.PositionGraph.Listing

/-!
# Laying a graph out in slots

A graph is laid out as a machine by writing into slots, one for each number up to the greatest one
and, for the final outputs, one more for the initial state. What an occurrence reads is written into
its slot, each passage is put to the slot of the state that it leaves, and what an edge reads is
looked up in the slot of the state that it enters.

Here every slot that is written or looked up has to be there. A slot that is missing stops the
laying out, and nothing is made of the graph.

## Main definitions

* `Slots.put?`, `Slots.push?`: one slot is written, or one value is put to the end of a slot;
* `PositionGraph.partsBy?`: the parts of the machine, if no slot is missing.
-/

namespace Transduction

namespace Slots

variable {α : Type}

/-- The slots with `a` written into slot `i`; none if there is no such slot. -/
def put? (slots : List α) (i : Nat) (a : α) : Option (List α) :=
  if i < slots.length then some (slots.set i a) else none

/-- The slots with `a` put to the end of slot `i`; none if there is no such slot. -/
def push? (slots : List (List α)) (i : Nat) (a : α) : Option (List (List α)) := do
  put? slots i ((← slots[i]?) ++ [a])

end Slots

namespace PositionGraph

/-- What each state reads, written occurrence by occurrence. -/
def rangeSlots? (g : PositionGraph) : Option (List (Option SymbolClass)) :=
  g.ranges.foldlM (fun slots x ↦ Slots.put? slots x.1 x.2) (List.replicate g.bound none)

/-- Where each state passes to, put there passage by passage. -/
def followSlots? (L : Listing) (g : PositionGraph) : Option (List Boundary) :=
  (g.followBy L).foldlM (fun slots x ↦ Slots.push? slots x.1 x.2) (List.replicate g.bound [])

/-- The final outputs: that of the initial state first, then those of the last states. -/
def finalSlots? (L : Listing) (g : PositionGraph) : Option (List (Option Output)) := do
  let slots ← Slots.put? (List.replicate (g.bound + 1) none) g.bound g.empty?
  (L.order .last g.last).foldlM (fun slots x ↦ Slots.put? slots x.1 (some x.2)) slots

/-- The edge to a state, if the state reads something. What it reads is looked up; none if it has no
slot. -/
def edgeTo? (ranges : List (Option SymbolClass)) (x : StateId × Output) : Option (Option Edge) := do
  return (← ranges[x.1]?).map fun r ↦ ⟨r.1, x.1, x.2⟩

/-- The edges to some states, sorted; none if a state has no slot. -/
def edgesTo? (ranges : List (Option SymbolClass)) (targets : Boundary) : Option (List Edge) := do
  return Ascending.sort Edge.le (← targets.mapM (edgeTo? ranges)).reduceOption

/-- The parts of the machine of the graph; none if a slot is missing. -/
def partsBy? (L : Listing) (g : PositionGraph) : Option Transducer.Parts := do
  let ranges ← g.rangeSlots?
  let adjacency ← g.followSlots? L
  let edges ← (adjacency ++ [L.order .first g.first]).mapM (edgesTo? ranges)
  return ⟨edges, ← g.finalSlots? L, g.bound⟩

end PositionGraph

end Transduction
