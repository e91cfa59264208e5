import Mathlib.Data.List.Nodup
import Transduction.Proofs.PositionGraph.Denotation
import Transduction.Transducer.OfGraph
import Transduction.Transducer.Run

/-!
# The machine of a graph runs as the graph reads

The rows of the machine are the tables of the graph: a state that is an occurrence has an edge for
each passage out of it (`mem_edges_ofGraph`), and the initial state has one for each first state
(`mem_edges_ofGraph_initial`). No occurrence has the number of the initial state, which comes last.
In a coherent graph every number stands once, so the range and the output that are kept for a number
are those of its occurrence (`rangeOf?_eq_some_iff`, `final?_ofGraph`).

A computation is told by the indices of its edges, a reading by its states; `entered` gives the
states that a computation enters. Every reading is then a computation that enters its states, and
every accepting computation is a reading through the states that it enters
(`reading_iff_acceptingRun`). Together with the readings of an expression this is the correctness
of compilation, unambiguous or not.
-/

namespace Transduction

/-! ### Values with one number each -/

/-- Where no number stands twice, a number has its own value only. -/
theorem Numbered.valuesAt_eq_singleton {α : Type} {l : List (Nat × α)}
    (hnodup : (l.map (·.1)).Nodup) {i : Nat} {a : α} (h : (i, a) ∈ l) : valuesAt l i = [a] := by
  induction l with
  | nil => exact absurd h List.not_mem_nil
  | cons x l ih =>
    rw [List.map_cons, List.nodup_cons] at hnodup
    rw [valuesAt_cons]
    rcases List.mem_cons.1 h with rfl | h
    · have hrest : valuesAt l i = [] := by
        refine List.eq_nil_iff_forall_not_mem.2 fun b hb ↦ hnodup.1 ?_
        exact List.mem_map.2 ⟨(i, b), mem_valuesAt.1 hb, rfl⟩
      rw [if_pos rfl, hrest]
    · have hne : x.1 ≠ i := fun heq ↦ hnodup.1 (heq ▸ List.mem_map.2 ⟨(i, a), h, rfl⟩)
      rw [if_neg hne, ih hnodup.2 h]

/-- The first value of a number, where no number stands twice. -/
theorem Numbered.head?_valuesAt_eq_some_iff {α : Type} {l : List (Nat × α)}
    (hnodup : (l.map (·.1)).Nodup) {i : Nat} {a : α} :
    (valuesAt l i).head? = some a ↔ (i, a) ∈ l := by
  refine ⟨fun h ↦ ?_, fun h ↦ ?_⟩
  · exact mem_valuesAt.1 (List.mem_of_head? h)
  · rw [valuesAt_eq_singleton hnodup h]
    rfl

namespace Transducer

/-- The states that the computation with the given indices enters. -/
def entered (m : Transducer) : StateId → List Nat → List StateId
  | _, [] => []
  | s, i :: is =>
    match (m.edges s)[i]? with
    | some e => e.target :: entered m e.target is
    | none => []

/-- The first edge leads to the first state that is entered. -/
theorem entered_cons {m : Transducer} {s : StateId} {i : Nat} {e : Edge}
    (h : (m.edges s)[i]? = some e) (is : List Nat) :
    m.entered s (i :: is) = e.target :: m.entered e.target is := by
  rw [entered, h]

end Transducer

namespace PositionGraph

open Transducer

variable {g : PositionGraph} {s t : StateId} {x : Symbol} {w : List Symbol} {ss : List StateId}
  {o p : Output} {e : Edge}

/-! ### The rows of the machine -/

/-- In a coherent graph a state reads what is listed with it. -/
theorem rangeOf?_eq_some_iff (hg : g.Coherent) {c : SymbolClass} :
    g.rangeOf? s = some c ↔ (s, some c) ∈ g.ranges := by
  have hnodup : (g.ranges.map (·.1)).Nodup := by
    rw [map_fst_ranges]
    exact hg.nodup_ids
  rw [rangeOf?, Option.join_eq_some_iff, Numbered.head?_valuesAt_eq_some_iff hnodup]

/-- The states that read something are the readers. -/
theorem exists_rangeOf?_iff (hg : g.Coherent) :
    (∃ c, g.rangeOf? s = some c) ↔ s ∈ g.readers := by
  simp only [rangeOf?_eq_some_iff hg, mem_readers]

/-- A symbol is read by the range of its state. -/
theorem reads_iff (hg : g.Coherent) : g.Reads s x ↔ ∃ c, g.rangeOf? s = some c ∧ x ∈ c.1 := by
  simp only [Reads, rangeOf?_eq_some_iff hg]

theorem states_ofGraph (g : PositionGraph) :
    (ofGraph g).states = (g.rows.map State.ofRow).toArray := rfl

theorem getElem?_rows_of_lt (h : s < g.bound) :
    g.rows[s]? = some (edgesTo g.rangeOf? (Numbered.valuesAt g.follow s),
      (Numbered.valuesAt g.last s).head?) := by
  have hlength : s < ((List.range g.bound).map fun s ↦
      (edgesTo g.rangeOf? (Numbered.valuesAt g.follow s),
        (Numbered.valuesAt g.last s).head?)).length := by
    rwa [List.length_map, List.length_range]
  rw [rows_eq, List.getElem?_append_left hlength, List.getElem?_map, List.getElem?_range h]
  rfl

theorem getElem?_rows_bound (g : PositionGraph) :
    g.rows[g.bound]? = some (edgesTo g.rangeOf? g.first, g.empty?) := by
  rw [rows_eq, List.getElem?_append_right (by simp)]
  simp

/-- Beyond the initial state there is no row. -/
theorem getElem?_rows_eq_none (h : g.bound < s) : g.rows[s]? = none :=
  List.getElem?_eq_none (by rw [length_rows]; omega)

/-- The edges of a state are those of its row, sorted; a state without a row has none. -/
theorem toList_edges_ofGraph (g : PositionGraph) (s : StateId) :
    ((ofGraph g).edges s).toList =
      Ascending.sort Edge.le ((g.rows[s]?.map (·.1)).getD []) := by
  rw [edges, states_ofGraph, List.getElem?_toArray, List.getElem?_map]
  rcases g.rows[s]? with - | row <;> rfl

theorem final?_ofGraph_eq_bind (g : PositionGraph) (s : StateId) :
    (ofGraph g).final? s = g.rows[s]?.bind (·.2) := by
  rw [final?, states_ofGraph, List.getElem?_toArray, List.getElem?_map, Option.bind_map]
  rfl

/-- The edges of a state are those of its row, sorted. -/
theorem edges_ofGraph_of_rows {row : List Edge × Option Output} (h : g.rows[s]? = some row) :
    ((ofGraph g).edges s).toList = Ascending.sort Edge.le row.1 := by
  rw [toList_edges_ofGraph, h]
  rfl

theorem final?_ofGraph_of_rows {row : List Edge × Option Output} (h : g.rows[s]? = some row) :
    (ofGraph g).final? s = row.2 := by
  rw [final?_ofGraph_eq_bind, h]
  rfl

/-- **An edge leads to a target that reads something**, emits what is listed with the target, and
reads what the target reads. -/
theorem mem_edgesTo_iff {targets : Boundary} :
    e ∈ edgesTo g.rangeOf? targets ↔
      (e.target, e.out) ∈ targets ∧ ∃ c, g.rangeOf? e.target = some c ∧ e.range = c.1 := by
  rw [edgesTo, List.mem_filterMap]
  refine ⟨fun h ↦ ?_, fun h ↦ ?_⟩
  · obtain ⟨⟨t, o⟩, ht, he⟩ := h
    obtain ⟨c, hc, rfl⟩ := Option.map_eq_some_iff.1 he
    exact ⟨ht, c, hc, rfl⟩
  · obtain ⟨ht, c, hc, hrange⟩ := h
    refine ⟨_, ht, ?_⟩
    rw [hc, Option.map_some, ← hrange]

theorem mem_edges_ofGraph_of_rows {row : List Edge × Option Output} (h : g.rows[s]? = some row) :
    e ∈ (ofGraph g).edges s ↔ e ∈ row.1 := by
  rw [← Array.mem_toList_iff, edges_ofGraph_of_rows h, Ascending.mem_sort]

/-- **An occurrence has an edge for each passage out of it.** -/
theorem mem_edges_ofGraph (hs : s ∈ g.ids) :
    e ∈ (ofGraph g).edges s ↔
      (s, e.target, e.out) ∈ g.follow ∧ ∃ c, g.rangeOf? e.target = some c ∧ e.range = c.1 := by
  rw [mem_edges_ofGraph_of_rows (getElem?_rows_of_lt (lt_bound hs)), mem_edgesTo_iff,
    Numbered.mem_valuesAt]

/-- **The initial state has an edge for each first state.** -/
theorem mem_edges_ofGraph_initial :
    e ∈ (ofGraph g).edges (ofGraph g).initial ↔
      (e.target, e.out) ∈ g.first ∧ ∃ c, g.rangeOf? e.target = some c ∧ e.range = c.1 := by
  show e ∈ (ofGraph g).edges g.bound ↔ _
  rw [mem_edges_ofGraph_of_rows (getElem?_rows_bound g), mem_edgesTo_iff]

/-- A passage is an edge, which reads what the state that is entered reads. -/
theorem exists_edge_of_mem_follow (hg : g.Coherent) (hpass : (s, t, o) ∈ g.follow)
    (hreads : g.Reads t x) :
    ∃ (i : Nat) (r : SymbolRange), ((ofGraph g).edges s)[i]? = some ⟨r, t, o⟩ ∧ x ∈ r := by
  obtain ⟨c, hc, hx⟩ := (reads_iff hg).1 hreads
  have hedge : (⟨c.1, t, o⟩ : Edge) ∈ (ofGraph g).edges s :=
    (mem_edges_ofGraph (mem_ids_of_mem_follow hpass).1).2 ⟨hpass, c, hc, rfl⟩
  obtain ⟨i, hi⟩ := Array.mem_iff_getElem?.1 hedge
  exact ⟨i, c.1, hi, hx⟩

/-- A first state is entered by an edge, which reads what the state reads. -/
theorem exists_edge_of_mem_first (hg : g.Coherent) (hfirst : (s, o) ∈ g.first)
    (hreads : g.Reads s x) :
    ∃ (i : Nat) (r : SymbolRange),
      ((ofGraph g).edges (ofGraph g).initial)[i]? = some ⟨r, s, o⟩ ∧ x ∈ r := by
  obtain ⟨c, hc, hx⟩ := (reads_iff hg).1 hreads
  have hedge : (⟨c.1, s, o⟩ : Edge) ∈ (ofGraph g).edges (ofGraph g).initial :=
    mem_edges_ofGraph_initial.2 ⟨hfirst, c, hc, rfl⟩
  obtain ⟨i, hi⟩ := Array.mem_iff_getElem?.1 hedge
  exact ⟨i, c.1, hi, hx⟩

/-- A state other than the initial one accepts if it is a last state. -/
theorem final?_ofGraph (hg : g.Coherent) (hs : s ≠ g.bound) :
    (ofGraph g).final? s = some o ↔ (s, o) ∈ g.last := by
  rcases Nat.lt_or_gt_of_ne hs with hlt | hgt
  · rw [final?_ofGraph_of_rows (getElem?_rows_of_lt hlt),
      Numbered.head?_valuesAt_eq_some_iff (nodup_last hg.nodup_ids)]
  · have hnone : (ofGraph g).final? s = none := by
      rw [final?_ofGraph_eq_bind, getElem?_rows_eq_none hgt]
      rfl
    rw [hnone]
    refine iff_of_false (Option.some_ne_none o).symm fun hlast ↦ ?_
    exact Nat.lt_asymm hgt (lt_bound (mem_ids_of_mem_last hlast))

/-- The initial state accepts if the graph accepts the empty word. -/
theorem final?_ofGraph_initial (g : PositionGraph) :
    (ofGraph g).final? (ofGraph g).initial = g.empty? :=
  final?_ofGraph_of_rows (getElem?_rows_bound g)

/-! ### Computations -/

/-- From an occurrence on, leaving the graph is a computation to a state that accepts. -/
theorem Leaves.exists_run (hg : g.Coherent) (h : g.Leaves s w ss o) (hs : s ∈ g.ids) :
    ∃ is t p f, (ofGraph g).Run s w is t p ∧ (ofGraph g).final? t = some f ∧ o = p ++ f ∧
      (ofGraph g).entered s is = ss := by
  induction h with
  | @last s o hlast =>
    exact ⟨[], s, [], o, .nil s, (final?_ofGraph hg (Nat.ne_of_lt (lt_bound hs))).2 hlast, rfl, rfl⟩
  | @pass s t x w ss o q hpass hreads _ ih =>
    obtain ⟨is, u, p, f, hrun, hf, rfl, rfl⟩ := ih hreads.mem_ids
    obtain ⟨i, r, hi, hx⟩ := exists_edge_of_mem_follow hg hpass hreads
    exact ⟨i :: is, u, _, f, .cons hi hx hrun, hf, (List.append_assoc ..).symm,
      entered_cons hi is⟩

/-- A computation from an occurrence to a state that accepts leaves the graph through the states
that it enters. -/
theorem leaves_of_run (hg : g.Coherent) {is : List Nat} {f : Output}
    (h : (ofGraph g).Run s w is t p) (hs : s ∈ g.ids) (hf : (ofGraph g).final? t = some f) :
    g.Leaves s w ((ofGraph g).entered s is) (p ++ f) := by
  induction h with
  | nil s => exact .last ((final?_ofGraph hg (Nat.ne_of_lt (lt_bound hs))).1 hf)
  | @cons s t x w i is e o edge mem _ ih =>
    obtain ⟨hpass, c, hc, hrange⟩ := (mem_edges_ofGraph hs).1 (Array.mem_of_getElem? edge)
    rw [entered_cons edge, List.append_assoc]
    exact .pass hpass ((reads_iff hg).2 ⟨c, hc, hrange ▸ mem⟩)
      (ih (mem_ids_of_mem_follow hpass).2 hf)

/-- **The accepting computations are the readings**, through the states that they enter. -/
theorem reading_iff_acceptingRun (hg : g.Coherent) :
    g.Reading w ss o ↔ ∃ is, (ofGraph g).AcceptingRun w is o ∧
      (ofGraph g).entered (ofGraph g).initial is = ss := by
  refine ⟨fun h ↦ ?_, fun h ↦ ?_⟩
  · rcases h with hempty | htrace
    · rw [← final?_ofGraph_initial] at hempty
      exact ⟨[], ⟨_, [], _, .nil _, hempty, rfl⟩, rfl⟩
    · obtain @⟨s, x, w, ss, a, o, hfirst, hreads, hrest⟩ := htrace
      obtain ⟨is, t, p, f, hrun, hf, rfl, rfl⟩ := hrest.exists_run hg hreads.mem_ids
      obtain ⟨i, r, hi, hx⟩ := exists_edge_of_mem_first hg hfirst hreads
      exact ⟨i :: is, ⟨t, _, f, .cons hi hx hrun, hf, (List.append_assoc ..).symm⟩,
        entered_cons hi is⟩
  · obtain ⟨is, ⟨t, p, f, hrun, hf, rfl⟩, rfl⟩ := h
    rcases hrun with - | @⟨-, t, x, w, i, is, e, o, edge, mem, tail⟩
    · rw [final?_ofGraph_initial] at hf
      exact .empty hf
    · -- what the initial state enters are the first positions
      obtain ⟨hfirst, c, hc, hrange⟩ := mem_edges_ofGraph_initial.1 (Array.mem_of_getElem? edge)
      rw [entered_cons edge, List.append_assoc]
      exact .trace (.enter hfirst ((reads_iff hg).2 ⟨c, hc, hrange ▸ mem⟩)
        (leaves_of_run hg tail (mem_ids_of_mem_first hfirst) hf))

/-- **A word has an output in an expression exactly when the machine of its graph has an accepting
computation that emits it.** -/
theorem denotes_iff_acceptingRun {e : Expr} {n n' : StateId}
    (h : (build e).runFrom n = (.ok g, n')) :
    e.Denotes w o ↔ ∃ is, (ofGraph g).AcceptingRun w is o := by
  have hg := coherent_of_build h
  rw [denotes_iff_reading h]
  refine ⟨fun h' ↦ ?_, fun h' ↦ ?_⟩
  · obtain ⟨ss, hreading⟩ := h'
    obtain ⟨is, hrun, -⟩ := (reading_iff_acceptingRun hg).1 hreading
    exact ⟨is, hrun⟩
  · obtain ⟨is, hrun⟩ := h'
    exact ⟨_, (reading_iff_acceptingRun hg).2 ⟨is, hrun, rfl⟩⟩

end PositionGraph

end Transduction
