import Transduction.PositionGraph.Build

/-!
# Numbering expressions in turn

Several expressions can be numbered one after the other, each from the number that the one before it
has left. An expression that has no graph leaves a number too: those that its parts have taken are
not given back.

The numbers of a graph are collected with a stack, since a long literal is a deep graph: a node is
taken off the stack, and its sides are put on it, the left one on top.

## Main definitions

* `PositionGraph.attempts`: what numbering each expression of a list does, in turn;
* `PositionGraph.nodes`: the nodes of a graph;
* `PositionGraph.walk`, `PositionGraph.stateIds`: the nodes and the numbers, as the stack finds
  them;
* `PositionGraph.Separate`: what keeps the numbers of the two sides of a node apart.
-/

namespace Transduction

/-- The computation takes at most `count` numbers and gives none back, whatever its outcome. -/
def Numbering.TakesAtMost {α : Type} (x : Numbering α) (count : Nat) : Prop :=
  ∀ next : Nat, next ≤ (x.runFrom next).2 ∧ (x.runFrom next).2 ≤ next + count

namespace PositionGraph

/-- What numbering one expression of a list has done. -/
structure Attempt where
  /-- The expression. -/
  expr : Expr
  /-- The next free number before. -/
  start : StateId
  /-- The graph, or why there is none. -/
  outcome : Except CompileError PositionGraph
  /-- The next free number after. -/
  stop : StateId

/-- Numbers the expressions of a list in turn, from the next free number on. -/
def attempts (next : StateId) : List Expr → List Attempt
  | [] => []
  | e :: es =>
    let (outcome, stop) := (build e).runFrom next
    ⟨e, next, outcome, stop⟩ :: attempts stop es

/-- The nodes of the graph, each before those of its sides, and the left side before the right
one. -/
def nodes : PositionGraph → List PositionGraph
  | position p => [position p]
  | union l r out => union l r out :: (l.nodes ++ r.nodes)
  | concat l r out => concat l r out :: (l.nodes ++ r.nodes)
  | star b out => star b out :: b.nodes

/-- The nodes of the graphs on a stack, in the order in which they are taken off it. -/
def walk : List PositionGraph → List PositionGraph
  | [] => []
  | position p :: stack => position p :: walk stack
  | union l r out :: stack => union l r out :: walk (l :: r :: stack)
  | concat l r out :: stack => concat l r out :: walk (l :: r :: stack)
  | star b out :: stack => star b out :: walk (b :: stack)
termination_by stack => (stack.flatMap nodes).length
decreasing_by
  all_goals simp only [List.flatMap_cons, nodes, List.length_append, List.length_cons]; omega

/-- The number of a node that is a position. -/
def stateId? : PositionGraph → Option StateId
  | position p => some p.state
  | union .. | concat .. | star .. => none

/-- The numbers of the positions, as the stack finds them. -/
def stateIds (g : PositionGraph) : List StateId := (walk [g]).filterMap stateId?

/-- The two sides of the node, if it has two, share no number, and no state is entered among its
first or its last states when it is listed there already. -/
structure Separate (g : PositionGraph) : Prop where
  /-- The branches of a union share no number. -/
  union : ∀ l r out, g = union l r out → ∀ s ∈ l.stateIds, s ∉ r.stateIds
  /-- The sides of a concatenation share no number. -/
  concat : ∀ l r out, g = concat l r out → ∀ s ∈ l.stateIds, s ∉ r.stateIds
  /-- No state is listed twice among the first ones. -/
  first : (g.first.map (·.1)).Nodup
  /-- No state is listed twice among the last ones. -/
  last : (g.last.map (·.1)).Nodup

end PositionGraph

end Transduction
