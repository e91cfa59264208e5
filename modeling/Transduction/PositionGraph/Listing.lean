import Transduction.PositionGraph.History
import Transduction.Transducer.OfGraph
import Transduction.Transducer.Parts

/-!
# Tables listed in any order

The first states of a part and its last states are tables: each state is found with its output, and
no order is meant. But they are listed when a machine is made of a graph: at each node whose parts
are joined, the last states of the one part and, for each of them, the first states of the next; and
at the end the first and the last states of the whole graph.

A `Listing` says in which order this is done, at each place in an order of its own. With it, the
parts of the machine are collected step by step: the nodes are walked through, every passage is put
to the edges of the state that it leaves, and every last state has its final output written into its
slot, in place of what is there.

## Main definitions

* `Listing`: the orders in which tables are listed, place by place;
* `PositionGraph.followBy`, `PositionGraph.partsBy`: the passages and the parts that are collected.
-/

namespace Transduction

/-- A place at which a table is listed. -/
inductive Listing.Place where
  /-- The ends that a node joins to beginnings; nodes are counted as they are walked through. -/
  | exits (node : Nat)
  /-- The beginnings that a node joins to the end with number `turn`. -/
  | entries (node turn : Nat)
  /-- The first states of the graph. -/
  | first
  /-- The last states of the graph. -/
  | last

/-- The orders in which tables are listed. -/
structure Listing where
  /-- The table as it is listed at a place. -/
  order : Listing.Place → Boundary → Boundary
  /-- What is listed is the table. -/
  perm : ∀ place b, (order place b).Perm b

/-- The passages that a node adds between some ends and some beginnings, as they are listed. -/
def Listing.passages (L : Listing) (node : Nat) (exits entries : Boundary) : List Passage :=
  (L.order (.exits node) exits).zipIdx.flatMap fun x ↦
    (L.order (.entries node x.2) entries).map fun y ↦ (x.1.1, y.1, x.1.2 ++ y.2)

namespace PositionGraph

/-- The ends and the beginnings that the node joins. -/
def joint : PositionGraph → Boundary × Boundary
  | concat l r _ => (l.last, r.first)
  | star b _ => (b.last, b.first)
  | position _ | union .. => ([], [])

/-- The passages of the graph as they are collected node by node. -/
def followBy (L : Listing) (g : PositionGraph) : List Passage :=
  (walk [g]).zipIdx.flatMap fun q ↦ L.passages q.2 q.1.joint.1 q.1.joint.2

/-- The final outputs as they are written, one after the other. At first, there is only that of the
initial state. -/
def finalsBy (L : Listing) (g : PositionGraph) : List (Option Output) :=
  (L.order .last g.last).foldl (fun finals x ↦ finals.set x.1 (some x.2))
    (List.replicate g.bound none ++ [g.empty?])

/-- The parts of the machine of the graph as they are collected. -/
def partsBy (L : Listing) (g : PositionGraph) : Transducer.Parts where
  edges := ((Numbered.tabulate g.bound (g.followBy L)).toList ++ [L.order .first g.first]).map
    fun targets ↦ Ascending.sort Edge.le (edgesTo g.rangeOf? targets)
  finals := g.finalsBy L
  initial := g.bound

end PositionGraph

end Transduction
