import Transduction.Symbol
import Transduction.Output
import Transduction.StateSet

/-!
# Transducers

A transducer is a table of states. Each edge of a state reads one symbol of a range, emits an output
and leads to a state; a state that accepts has a final output. Nothing keeps the ranges of two edges
apart, and two edges may be equal: a transducer may have several computations on one word, and they
are told apart by the indices of their edges.

The edges of a state are sorted by the least symbol they read, then by the state they lead to. Edges
that agree in both keep the order in which they were given.

## Main definitions

* `Transducer.ofRows`: the table with given edges and final outputs, each list of edges sorted;
* `Transducer.ofParts?`: the same, for parts that may not fit together;
* `Transducer.edges`, `Transducer.final?`: the table by the number of the state.
-/

namespace Transduction

/-- A step that reads a symbol of `range`. -/
structure Edge where
  /-- The symbols that the edge reads. -/
  range : SymbolRange
  /-- The state that the edge leads to. -/
  target : StateId
  /-- What the edge emits. -/
  out : Output
deriving DecidableEq

namespace Edge

/-- The order of edges: by the least symbol, then by the target. -/
def le (a b : Edge) : Bool :=
  a.range.lower < b.range.lower || (a.range.lower = b.range.lower && a.target ≤ b.target)

/-- Edges are ordered by the least symbols they read, and then by their targets. -/
theorem le_iff {a b : Edge} :
    a.le b ↔ a.range.lower < b.range.lower ∨ (a.range.lower = b.range.lower ∧
      a.target ≤ b.target) := by
  simp [le]

theorem le_trans (a b c : Edge) (hab : a.le b) (hbc : b.le c) : a.le c := by
  rw [le_iff] at *
  rcases hab with hab | ⟨hab, hab'⟩ <;> rcases hbc with hbc | ⟨hbc, hbc'⟩
  · exact .inl (UInt32.lt_trans hab hbc)
  · exact .inl (hbc ▸ hab)
  · exact .inl (hab ▸ hbc)
  · exact .inr ⟨hab.trans hbc, Nat.le_trans hab' hbc'⟩

theorem le_total (a b : Edge) : a.le b || b.le a := by
  rw [Bool.or_eq_true, le_iff, le_iff]
  rcases Std.lt_trichotomy a.range.lower b.range.lower with h | h | h
  · exact .inl (.inl h)
  · exact (Nat.le_total a.target b.target).imp (.inr ⟨h, ·⟩) (.inr ⟨h.symm, ·⟩)
  · exact .inr (.inl h)

/-- Edges that the order does not tell apart lead to one state. -/
theorem target_eq_of_le {a b : Edge} (hab : a.le b) (hba : b.le a) : a.target = b.target := by
  rw [le_iff] at hab hba
  rcases hab with hab | ⟨hlower, hab⟩ <;> rcases hba with hba | ⟨hlower', hba⟩
  · exact absurd (UInt32.lt_trans hab hba) (UInt32.lt_irrefl _)
  · exact absurd (hlower' ▸ hab) (UInt32.lt_irrefl _)
  · exact absurd (hlower ▸ hba) (UInt32.lt_irrefl _)
  · exact Nat.le_antisymm hab hba

theorem lower_le_of_le {a b : Edge} (h : a.le b) : a.range.lower ≤ b.range.lower := by
  rcases le_iff.1 h with h | ⟨h, -⟩
  · exact UInt32.le_of_lt h
  · exact h ▸ UInt32.le_refl _

end Edge

/-- A row of the table. -/
structure Transducer.State where
  /-- The edges out of the state. -/
  edges : Array Edge
  /-- What is emitted when the state accepts; `none` if it does not. -/
  final? : Option Output
deriving DecidableEq

/-- A table of states, one of which is the initial one. -/
structure Transducer where
  /-- The states, by their numbers. -/
  states : Array Transducer.State
  /-- The state in which every computation begins. -/
  initial : StateId
  /-- The initial state is in the table. -/
  initial_lt : initial < states.size
  /-- Every edge leads to a state of the table. -/
  target_lt : ∀ st ∈ states, ∀ e ∈ st.edges, e.target < states.size
  /-- Every edge reads some symbol. -/
  nonempty : ∀ st ∈ states, ∀ e ∈ st.edges, ¬ e.range.IsEmpty
  /-- The edges of every state are sorted. -/
  sorted : ∀ st ∈ states, st.edges.toList.Pairwise (Edge.le · ·)
deriving DecidableEq

namespace Transducer

/-- The state with the given edges in their order. -/
def State.ofRow (row : List Edge × Option Output) : State :=
  ⟨(Ascending.sort Edge.le row.1).toArray, row.2⟩

/-- The table with the given edges and final outputs. -/
def ofRows (rows : List (List Edge × Option Output)) (initial : StateId)
    (initial_lt : initial < rows.length)
    (edge_ok : ∀ row ∈ rows, ∀ e ∈ row.1, e.target < rows.length ∧ ¬ e.range.IsEmpty) :
    Transducer where
  states := (rows.map State.ofRow).toArray
  initial
  initial_lt := by simpa using initial_lt
  target_lt st hst e he := by
    obtain ⟨row, hrow, rfl⟩ := List.mem_map.1 (List.mem_toArray.1 hst)
    simpa using (edge_ok row hrow e (Ascending.mem_sort.1 (List.mem_toArray.1 he))).1
  nonempty st hst e he := by
    obtain ⟨row, hrow, rfl⟩ := List.mem_map.1 (List.mem_toArray.1 hst)
    exact (edge_ok row hrow e (Ascending.mem_sort.1 (List.mem_toArray.1 he))).2
  sorted st hst := by
    obtain ⟨row, -, rfl⟩ := List.mem_map.1 (List.mem_toArray.1 hst)
    exact Ascending.pairwise_sort Edge.le_trans Edge.le_total row.1

/-- The table with the given edges and final outputs. Refused if there are not as many final outputs
as lists of edges, if the initial state or the target of an edge is not in the table, or if an edge
reads no symbol. -/
def ofParts? (edges : List (List Edge)) (finals : List (Option Output)) (initial : StateId) :
    Option Transducer :=
  if h : finals.length = edges.length ∧ initial < edges.length ∧
      ∀ es ∈ edges, ∀ e ∈ es, e.target < edges.length ∧ ¬ e.range.IsEmpty then
    have hlen : (edges.zip finals).length = edges.length := by simp [h.1]
    some <| ofRows (edges.zip finals) initial (hlen ▸ h.2.1) fun row hrow e he ↦
      hlen ▸ h.2.2 row.1 (List.of_mem_zip hrow).1 e he
  else none

variable (m : Transducer)

/-- The number of states. -/
def size : Nat := m.states.size

/-- The edges out of a state; none if it is not in the table. -/
def edges (s : StateId) : Array Edge := (m.states[s]?.map (·.edges)).getD #[]

/-- What is emitted when the state accepts; `none` if it does not, or is not in the table. -/
def final? (s : StateId) : Option Output := m.states[s]?.bind (·.final?)

/-- The lists of edges, by the number of the state. -/
def edgeLists : List (List Edge) := m.states.toList.map (·.edges.toList)

/-- The final outputs, by the number of the state. -/
def finals : List (Option Output) := m.states.toList.map (·.final?)

/-- The number of edges in the table. -/
def edgeCount : Nat := m.edgeLists.flatten.length

/-- The number of states that accept. -/
def acceptingCount : Nat := (m.finals.filter (·.isSome)).length

/-- The machine in one line: its counts and its initial state. -/
def summary : String :=
  "Mealy \x7b " ++ s!"state_count: {m.size}, transition_count: {m.edgeCount}, " ++
    s!"accepting_count: {m.acceptingCount}, initial_state: {m.initial}" ++ " \x7d"

/-- Every member of the set is a state of the machine. -/
def Covers (S : StateSet) : Prop := ∀ s ∈ S.members, s < m.size

instance (S : StateSet) : Decidable (m.Covers S) :=
  decidable_of_iff (∀ s ∈ S.members, s < m.size) Iff.rfl

end Transducer

end Transduction
