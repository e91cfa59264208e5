import Mathlib.Data.List.Basic
import Mathlib.Data.List.GetD
import Transduction.Transducer.Parts

/-!
# Machines and their parts

A machine is known by its parts (`ext_parts`), and the table by the number of the state is read off
them (`edges_eq_getD`, `final?_eq_getD`). Making a machine of parts keeps them, except that each
list of edges is sorted (`parts_of_ofParts?`).

The parts of a machine fit together, and its edges are sorted already, in an order that leaves edges
where they stand if it does not tell them apart. So a machine can be taken apart and put together
again without a change, and it is made of no other parts than its own, with the edges of each state
in some order (`ofParts?_parts`).
-/

namespace Transduction.Transducer

variable {m m' : Transducer} {edges : List (List Edge)} {finals : List (Option Output)}
  {initial : StateId}

/-! ### Taking a machine apart -/

/-- The parts of a table are its rows, sorted. -/
theorem parts_ofRows (rows : List (List Edge × Option Output)) (initial : StateId)
    (initial_lt : initial < rows.length)
    (edge_ok : ∀ row ∈ rows, ∀ e ∈ row.1, e.target < rows.length ∧ ¬ e.range.IsEmpty) :
    (ofRows rows initial initial_lt edge_ok).parts =
      ⟨rows.map fun row ↦ Ascending.sort Edge.le row.1, rows.map (·.2), initial⟩ := by
  rw [parts, edgeLists, Transducer.finals, ofRows, List.toList_toArray, List.map_map, List.map_map]
  rfl

/-- **A machine is known by its parts.** -/
theorem ext_parts (h : m.parts = m'.parts) : m = m' := by
  obtain ⟨hedges, hfinals, hinitial⟩ := Parts.mk.inj h
  have hrows : m.states.toList.map (fun st ↦ (st.edges.toList, st.final?)) =
      m'.states.toList.map fun st ↦ (st.edges.toList, st.final?) := by
    rw [← List.zip_map', ← List.zip_map']
    exact congrArg₂ List.zip hedges hfinals
  have hinjective : Function.Injective fun st : State ↦ (st.edges.toList, st.final?) := by
    intro st st' heq
    obtain ⟨edges, f⟩ := st
    obtain ⟨edges', f'⟩ := st'
    obtain rfl : edges = edges' := Array.toList_inj.1 (congrArg Prod.fst heq)
    obtain rfl : f = f' := congrArg Prod.snd heq
    rfl
  have hstates : m.states = m'.states :=
    Array.toList_inj.1 (List.map_injective_iff.2 hinjective hrows)
  obtain ⟨states, initial, _, _, _, _⟩ := m
  obtain ⟨states', initial', _, _, _, _⟩ := m'
  obtain rfl : states = states' := hstates
  obtain rfl : initial = initial' := hinitial
  rfl

theorem edges_eq_getD (m : Transducer) (s : StateId) :
    (m.edges s).toList = m.parts.edges.getD s [] := by
  rw [Transducer.edges, parts, edgeLists, List.getD_eq_getElem?_getD, List.getElem?_map,
    Array.getElem?_toList]
  cases m.states[s]? <;> rfl

theorem final?_eq_getD (m : Transducer) (s : StateId) :
    m.final? s = m.parts.finals.getD s none := by
  rw [final?, parts, Transducer.finals, List.getD_eq_getElem?_getD, List.getElem?_map,
    Array.getElem?_toList]
  cases m.states[s]? <;> rfl

theorem length_edges_parts (m : Transducer) : m.parts.edges.length = m.size := by
  rw [parts, edgeLists, List.length_map, Array.length_toList, size]

/-! ### Making a machine -/

/-- When parts fit together. -/
theorem exists_ofParts?_iff : (∃ m, ofParts? edges finals initial = some m) ↔
    finals.length = edges.length ∧ initial < edges.length ∧
      ∀ es ∈ edges, ∀ e ∈ es, e.target < edges.length ∧ ¬ e.range.IsEmpty := by
  rw [ofParts?]
  split
  · next hfit => exact iff_of_true ⟨_, rfl⟩ hfit
  · next hfit => exact iff_of_false (fun ⟨_, h⟩ ↦ nomatch h) hfit

/-- **A machine has the parts that it is made of**, the edges of each state being sorted. -/
theorem parts_of_ofParts? (h : ofParts? edges finals initial = some m) :
    m.parts = ⟨edges.map (Ascending.sort Edge.le), finals, initial⟩ := by
  rw [ofParts?] at h
  split at h
  · next hfit =>
    have hedges : (edges.zip finals).map (fun row ↦ Ascending.sort Edge.le row.1) =
        edges.map (Ascending.sort Edge.le) := by
      conv => rhs; rw [← List.map_fst_zip (Nat.le_of_eq hfit.1.symm), List.map_map]
      rfl
    have hfinals : (edges.zip finals).map (·.2) = finals :=
      List.map_snd_zip (Nat.le_of_eq hfit.1)
    cases h
    rw [parts_ofRows, hedges, hfinals]
  · cases h

section

variable (h : ofParts? edges finals initial = some m)

include h

theorem initial_of_ofParts? : m.initial = initial :=
  congrArg Parts.initial (parts_of_ofParts? h)

/-- The edges of each state are sorted. -/
theorem edges_of_ofParts? (s : StateId) :
    (m.edges s).toList = Ascending.sort Edge.le (edges.getD s []) := by
  rw [edges_eq_getD, parts_of_ofParts? h]
  exact List.getD_map edges [] (Ascending.sort Edge.le)

theorem size_of_ofParts? : m.size = edges.length := by
  rw [← length_edges_parts, parts_of_ofParts? h, List.length_map]

theorem final?_of_ofParts? (s : StateId) : m.final? s = finals.getD s none := by
  rw [final?_eq_getD, parts_of_ofParts? h]

end

/-! ### There and back -/

/-- Parts fit together whether or not the edges are sorted. -/
theorem exists_ofParts?_map_sort_iff :
    (∃ m, ofParts? (edges.map (Ascending.sort Edge.le)) finals initial = some m) ↔
      ∃ m, ofParts? edges finals initial = some m := by
  simp only [exists_ofParts?_iff, List.length_map, List.forall_mem_map, Ascending.mem_sort]

/-- The parts of a machine fit together. -/
theorem exists_ofParts?_parts (m : Transducer) :
    ∃ m', ofParts? m.parts.edges m.parts.finals m.parts.initial = some m' := by
  have hlength := length_edges_parts m
  have hlength' : m.parts.finals.length = m.size := by
    rw [parts, Transducer.finals, List.length_map, Array.length_toList, size]
  refine exists_ofParts?_iff.2 ⟨hlength'.trans hlength.symm, hlength ▸ m.initial_lt, ?_⟩
  intro es hes e he
  obtain ⟨st, hst, rfl⟩ := List.mem_map.1 hes
  rw [Array.mem_toList_iff] at hst he
  exact ⟨hlength ▸ m.target_lt st hst e he, m.nonempty st hst e he⟩

/-- The edges of a machine are sorted already. -/
theorem map_sort_edges (m : Transducer) :
    m.parts.edges.map (Ascending.sort Edge.le) = m.parts.edges := by
  refine (List.map_congr_left fun es hes ↦ ?_).trans (List.map_id _)
  obtain ⟨st, hst, rfl⟩ := List.mem_map.1 hes
  exact Ascending.sort_eq_self (m.sorted st (Array.mem_toList_iff.1 hst))

/-- **A machine is made of its own parts and of no others**, but for the order of edges. -/
theorem ofParts?_eq_some_iff : ofParts? edges finals initial = some m ↔
    edges.map (Ascending.sort Edge.le) = m.parts.edges ∧ finals = m.parts.finals ∧
      initial = m.parts.initial := by
  constructor
  · intro h
    rw [parts_of_ofParts? h]
    exact ⟨rfl, rfl, rfl⟩
  · rintro ⟨hedges, rfl, rfl⟩
    have hfit := exists_ofParts?_parts m
    rw [← hedges, exists_ofParts?_map_sort_iff] at hfit
    obtain ⟨m', hm'⟩ := hfit
    have hparts : m'.parts = m.parts := by
      rw [parts_of_ofParts? hm', hedges]
    rw [hm', ext_parts hparts]

/-- **A machine can be taken apart and put together again**: every edge, its place among the others
and all outputs are kept. It is made of no other parts, but for the order of edges. -/
theorem ofParts?_parts (m : Transducer) :
    ofParts? m.parts.edges m.parts.finals m.parts.initial = some m ∧
      ∀ P : Parts, ofParts? P.edges P.finals P.initial = some m ↔
        (⟨P.edges.map (Ascending.sort Edge.le), P.finals, P.initial⟩ : Parts) = m.parts := by
  refine ⟨ofParts?_eq_some_iff.2 ⟨map_sort_edges m, rfl, rfl⟩, fun P ↦ ?_⟩
  rw [ofParts?_eq_some_iff, Parts.mk.injEq]

end Transduction.Transducer
