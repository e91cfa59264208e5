import Transduction.PositionGraph.Basic
import Transduction.Transducer.Basic

/-!
# The transducer of a position graph

Every occurrence keeps its number as a state; numbers below the greatest one that the graph does not
use become states without edges. The initial state comes last. Its edges lead to the states that a
word can begin in, and it accepts if the empty word does. An edge reads what the state that it leads
to reads, so no edge leads to the occurrence of an empty literal.

## Main statements

* `PositionGraph.rows_eq`: the rows of the table, state by state.
-/

namespace Transduction

namespace PositionGraph

/-- The edges to some states, each reading what the state reads. A state that reads nothing has
none. -/
def edgesTo (rangeOf? : StateId → Option SymbolClass) (targets : Boundary) : List Edge :=
  targets.filterMap fun x ↦ (rangeOf? x.1).map fun r ↦ ⟨r.1, x.1, x.2⟩

/-- The rows of the table: one for each number up to the greatest one, then the initial state. -/
def rows (g : PositionGraph) : List (List Edge × Option Output) :=
  let ranges := Numbered.tabulate g.bound g.ranges
  let rangeOf? (s : StateId) := (ranges[s]?.bind (·.head?)).join
  List.zipWith (fun targets outs ↦ (edgesTo rangeOf? targets, outs.head?))
    (Numbered.tabulate g.bound g.follow).toList (Numbered.tabulate g.bound g.last).toList ++
    [(edgesTo rangeOf? g.first, g.empty?)]

/-- **The table row by row.** A state has the edges of its passages and the first output that is
emitted on leaving it; the initial state has edges to the first states, and the output on the empty
word. -/
theorem rows_eq (g : PositionGraph) :
    g.rows =
      (List.range g.bound).map (fun s ↦
        (edgesTo g.rangeOf? (Numbered.valuesAt g.follow s),
          (Numbered.valuesAt g.last s).head?)) ++
      [(edgesTo g.rangeOf? g.first, g.empty?)] := by
  have hrange : (fun s : StateId ↦ ((Numbered.tabulate g.bound g.ranges)[s]?.bind
      (·.head?)).join) = g.rangeOf? := by
    funext s
    rcases Nat.lt_or_ge s g.bound with h | h
    · rw [Numbered.getElem?_tabulate h]
      rfl
    · rw [Numbered.getElem?_tabulate_eq_none h, rangeOf?_eq_none h]
      rfl
  rw [rows, hrange, Numbered.toList_tabulate, Numbered.toList_tabulate, List.zipWith_map,
    List.zipWith_self]

theorem length_rows (g : PositionGraph) : g.rows.length = g.bound + 1 := by
  simp [rows_eq]

/-- An edge leads to an occurrence and reads some symbol. -/
theorem mem_edgesTo {g : PositionGraph} {targets : Boundary} {e : Edge}
    (h : e ∈ edgesTo g.rangeOf? targets) : e.target < g.bound ∧ ¬ e.range.IsEmpty := by
  obtain ⟨x, -, hx⟩ := List.mem_filterMap.1 h
  obtain ⟨r, hr, rfl⟩ := Option.map_eq_some_iff.1 hx
  exact ⟨lt_bound_of_rangeOf? hr, r.2⟩

/-- Every edge of the table leads to a row and reads some symbol. -/
theorem edge_ok_of_mem_rows {g : PositionGraph} {row : List Edge × Option Output}
    (hrow : row ∈ g.rows) {e : Edge} (he : e ∈ row.1) :
    e.target < g.rows.length ∧ ¬ e.range.IsEmpty := by
  rw [length_rows]
  rw [rows_eq] at hrow
  rcases List.mem_append.1 hrow with h | h
  · obtain ⟨s, -, rfl⟩ := List.mem_map.1 h
    exact (mem_edgesTo he).imp_left Nat.lt_succ_of_lt
  · rw [List.mem_singleton.1 h] at he
    exact (mem_edgesTo he).imp_left Nat.lt_succ_of_lt

end PositionGraph

/-- The transducer of a position graph. -/
def Transducer.ofGraph (g : PositionGraph) : Transducer :=
  ofRows g.rows g.bound (g.length_rows ▸ Nat.lt_succ_self _)
    fun _ hrow _ he ↦ PositionGraph.edge_ok_of_mem_rows hrow he

end Transduction
