import Transduction.Proofs.PositionGraph.Renumbering
import Transduction.Proofs.Transducer.Lookups
import Transduction.Proofs.Transducer.Parts
import Transduction.Transducer.EdgeQuery

/-!
# No edge is lost

Binary search is right on sorted lists only, and every machine has them sorted, however it was made
(`MadeOf.toList_edges`). So the part of a list that the search leaves out holds no edge that reads
the symbol, whether ranges overlap, lie in each other or are equal, and the answer is what going
through the whole list finds (`edgesReading?_eq`). Sorting does not add or drop an edge, so of the
edges that were given the answer has each one that reads the symbol, as often as it was given
(`MadeOf.edgesReading?_eq`).
-/

namespace Transduction.Transducer

variable {m : Transducer} {s : StateId} {x : Symbol} {rows : List (List Edge)}

/-! ### The query -/

/-- Edges that are found with their indices are found again by their indices. -/
theorem mapM_getElem?_eq {edges : Array Edge} {found : List (Edge × Nat)}
    (h : ∀ e ∈ found, edges[e.2]? = some e.1) :
    (found.mapM fun e ↦ edges[e.2]?) = some (found.map (·.1)) := by
  induction found with
  | nil => rfl
  | cons e found ih =>
    rw [List.forall_mem_cons] at h
    rw [List.mapM_cons, h.1, ih h.2]
    rfl

/-- **The search finds what going through the whole list finds.** -/
theorem edgesReading?_eq_readingFromBack (hs : s < m.size) (x : Symbol) :
    m.edgesReading? s x = some (readingFromBack (m.edges s).toList x) := by
  have hlt : s < m.states.size := hs
  have hedges : m.edges s = m.states[s].edges := by
    rw [edges, Array.getElem?_eq_getElem hlt]
    rfl
  rw [edgesReading?, matching?_eq hs, Array.getElem?_eq_getElem hlt, readingFromBack,
    ← map_fst_matching, ← mapM_getElem?_eq fun e he ↦ (mem_matching.1 he).1, hedges]
  rfl

/-! ### Making a machine -/

/-- The machine of a graph has the rows of the graph, each sorted. -/
theorem exists_row_ofGraph (g : PositionGraph) (hs : s < (ofGraph g).size) :
    ∃ row, (g.rows.map (·.1))[s]? = some row ∧
      ((ofGraph g).edges s).toList = Ascending.sort Edge.le row := by
  have hlt : s < g.rows.length := by rwa [PositionGraph.length_rows, ← PositionGraph.size_ofGraph]
  refine ⟨g.rows[s].1, ?_, ?_⟩
  · rw [List.getElem?_map, List.getElem?_eq_getElem hlt, Option.map_some]
  · rw [PositionGraph.toList_edges_ofGraph, List.getElem?_eq_getElem hlt, Option.map_some,
      Option.getD_some]

/-- **Every way to make a machine sorts the edges of each state.** -/
theorem MadeOf.exists_row (h : m.MadeOf rows) (hs : s < m.size) :
    ∃ row, rows[s]? = some row ∧ (m.edges s).toList = Ascending.sort Edge.le row := by
  cases h with
  | ofParts? h =>
    have hlt : s < rows.length := size_of_ofParts? h ▸ hs
    refine ⟨rows[s], List.getElem?_eq_getElem hlt, ?_⟩
    rw [edges_of_ofParts? h, List.getD_eq_getElem rows [] hlt]
  | ofGraph g => exact exists_row_ofGraph g hs
  | compile hgraph h =>
    rw [Expr.compile, hgraph] at h
    cases h
    exact exists_row_ofGraph _ hs

/-- Each edge that reads the symbol is found as often as it stands in the list, in any order. -/
theorem count_readingFromBack {edges row : List Edge} (h : edges.Perm row) (x : Symbol) (e : Edge) :
    (readingFromBack edges x).count e = if x ∈ e.range then row.count e else 0 := by
  rw [readingFromBack, (((List.reverse_perm edges).trans h).filter _).count_eq]
  split
  · next hx => exact List.count_filter (decide_eq_true hx)
  · next hx => exact List.count_eq_zero.2 fun he ↦ hx (of_decide_eq_true (List.mem_filter.1 he).2)

/-- **The query loses nothing.** However a machine is made, the edges that are found are those of
the list of the state that read the symbol, from the back of the list, as if all of it were gone
through; and of the edges that were given each one that reads the symbol is there as often as it was
given. -/
theorem MadeOf.edgesReading?_eq (h : m.MadeOf rows) (hs : s < m.size) (x : Symbol) :
    ∃ row, rows[s]? = some row ∧ (m.edges s).toList = Ascending.sort Edge.le row ∧
      m.edgesReading? s x = some (readingFromBack (m.edges s).toList x) ∧
      ∀ e, (readingFromBack (m.edges s).toList x).count e =
        if x ∈ e.range then row.count e else 0 := by
  obtain ⟨row, hrow, hsorted⟩ := h.exists_row hs
  have hperm : (m.edges s).toList.Perm row := hsorted ▸ Ascending.sort_perm row
  exact ⟨row, hrow, hsorted, edgesReading?_eq_readingFromBack hs x, count_readingFromBack hperm x⟩

/-- A state whose ranges overlap, lie in each other and are given twice, not in order. -/
def overlapping : List (List Edge) :=
  [[], [⟨⟨4, 4⟩, 1, ['w']⟩, ⟨⟨1, 9⟩, 0, ['x']⟩, ⟨⟨3, 5⟩, 1, ['y']⟩, ⟨⟨1, 9⟩, 0, ['x']⟩,
    ⟨⟨2, 3⟩, 0, []⟩]]

/-- Four of five edges read the symbol. They are found from the back of the sorted list: the ranges
that begin last come first, and an edge that is given twice is found twice. -/
theorem overlapping_edgesReading? :
    ∃ m, ofParts? overlapping [some [], none] 1 = some m ∧
      m.edgesReading? 1 4 =
        some [⟨⟨4, 4⟩, 1, ['w']⟩, ⟨⟨3, 5⟩, 1, ['y']⟩, ⟨⟨1, 9⟩, 0, ['x']⟩, ⟨⟨1, 9⟩, 0, ['x']⟩] := by
  obtain ⟨m, hm⟩ := exists_ofParts?_iff.2 (show ([some [], none] : List (Option Output)).length =
    overlapping.length ∧ 1 < overlapping.length ∧ ∀ es ∈ overlapping, ∀ e ∈ es,
      e.target < overlapping.length ∧ ¬ e.range.IsEmpty by decide)
  have hsize : 1 < m.size := size_of_ofParts? hm ▸ (by decide : 1 < overlapping.length)
  obtain ⟨row, hrow, hsorted, hread, -⟩ := MadeOf.edgesReading?_eq (.ofParts? hm) hsize 4
  obtain rfl := Option.some.inj hrow
  refine ⟨m, hm, ?_⟩
  rw [hread, hsorted]
  decide

end Transduction.Transducer
