import Transduction.Compile
import Transduction.Transducer.Lookups

/-!
# Asking for the edges that read a symbol

A machine is asked which edges of a state read a symbol. The answer is a part of the list of edges
that binary search cuts off, filtered from its back. The search takes the list to be sorted; the
lists that a machine is made of are not.

## Main definitions

* `Transducer.edgesReading?`: the answer, every state and edge being looked up;
* `Transducer.readingFromBack`: what the answer is to be, by going through a whole list;
* `Transducer.MadeOf`: the ways to make a machine, with the edges that are given for each state.
-/

namespace Transduction.Transducer

/-- The edges of state `s` that read `x`, from the back of the list, each looked up by the index
that the search gives; none if the state or an edge is missing. -/
def edgesReading? (m : Transducer) (s : StateId) (x : Symbol) : Option (List Edge) := do
  let row ← m.states[s]?
  let found ← m.matching? s x
  found.mapM fun e ↦ row.edges[e.2]?

/-- The edges of a list that read `x`, from the back of the list. -/
def readingFromBack (edges : List Edge) (x : Symbol) : List Edge :=
  edges.reverse.filter fun e ↦ x ∈ e.range

/-- The machine is made of these edges, given state by state in any order. -/
inductive MadeOf : Transducer → List (List Edge) → Prop
  /-- From its parts. -/
  | ofParts? {m : Transducer} {edges : List (List Edge)} {finals : List (Option Output)}
    {initial : StateId} (h : Transducer.ofParts? edges finals initial = some m) : MadeOf m edges
  /-- From a position graph, any graph at all. -/
  | ofGraph (g : PositionGraph) : MadeOf (Transducer.ofGraph g) (g.rows.map (·.1))
  /-- From an expression, by its position graph. -/
  | compile {e : Expr} {g : PositionGraph} {m : Transducer}
    (hgraph : ((PositionGraph.build e).runFrom 0).1 = .ok g) (h : e.compile = .ok m) :
    MadeOf m (g.rows.map (·.1))

end Transduction.Transducer
