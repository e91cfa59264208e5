import Mathlib.Order.Monotone.Basic
import Transduction.Error
import Transduction.Transducer.Basic

/-!
# Shifted machines

The numbers of a machine need not begin at zero: an expression can be numbered from any number on.
Its machine then has states in front that stand for nothing. `Transducer.shift n` puts `n` such
states before those of a machine: they have no edges, they do not accept, and no edge leads to them.

The machine is still found behind them, under greater numbers but with its edges in their order and
with all outputs; `Transducer.Embeds` says so. A failure then names other states and is the same
otherwise.

## Main definitions

* `Transducer.shift`: the machine behind a number of states that stand for nothing;
* `Transducer.Embeds`: the one machine is found in the other under other numbers;
* `EvalError.renumber`, `AmbiguityError.renumber`: a failure that names states by other numbers.

## Main statements

* `embeds_shift`: a machine is found in the shifted one.
-/

namespace Transduction

variable {ρ : StateId → StateId} {n : Nat} {s : StateId}

/-! ### Other numbers -/

/-- The same failure, states being renumbered. -/
def EvalError.renumber (ρ : StateId → StateId) : EvalError → EvalError
  | paths position target firstSource secondSource =>
    paths position (ρ target) (ρ firstSource) (ρ secondSource)
  | acceptance first second => acceptance (ρ first) (ρ second)
  | brokenBacktrack state => brokenBacktrack (ρ state)

/-- The same failure, states being renumbered. -/
def AmbiguityError.renumber (ρ : StateId → StateId) : AmbiguityError → AmbiguityError
  | acceptance first second firstOut secondOut =>
    acceptance (ρ first) (ρ second) firstOut secondOut
  | transitions firstSource secondSource target input =>
    transitions (ρ firstSource) (ρ secondSource) (ρ target) input
  | explorationLimit limit => explorationLimit limit

/-- The same edge, to the renumbered state. -/
def Edge.renumber (ρ : StateId → StateId) (e : Edge) : Edge := { e with target := ρ e.target }

/-- Shifted states keep their order. -/
theorem strictMono_add (n : Nat) : StrictMono fun s : StateId ↦ s + n :=
  fun _ _ hlt ↦ Nat.add_lt_add_right hlt n

/-- Renumbering keeps the order of edges if it keeps that of states. -/
theorem Edge.le_renumber (hρ : StrictMono ρ) (a b : Edge) :
    (a.renumber ρ).le (b.renumber ρ) = a.le b := by
  rw [le, le]
  exact congrArg (fun c : Bool ↦ decide _ || (decide _ && c)) (decide_eq_decide.2 hρ.le_iff_le)

namespace Transducer

/-- The same row, its edges leading to the renumbered states. -/
def State.renumber (ρ : StateId → StateId) (st : State) : State :=
  ⟨st.edges.map (·.renumber ρ), st.final?⟩

/-- State `s` of the first machine is state `ρ s` of the second one, with its edges in their order
and with all outputs. A number that is no state of the first machine gives none that has edges or
accepts. -/
structure Embeds (m m' : Transducer) (ρ : StateId → StateId) : Prop where
  /-- The order of the states is kept. -/
  strictMono : StrictMono ρ
  /-- States are states of the other machine. -/
  lt_size : ∀ s < m.size, ρ s < m'.size
  /-- Words begin in the same state. -/
  initial : m'.initial = ρ m.initial
  /-- Each state has the same edges, in their order. -/
  edges : ∀ s, m'.edges (ρ s) = (m.edges s).map (·.renumber ρ)
  /-- The same states accept, with the same outputs. -/
  final? : ∀ s, m'.final? (ρ s) = m.final? s

/-! ### States in front -/

/-- The table of a shifted machine. -/
def shiftedStates (n : Nat) (states : Array State) : Array State :=
  .replicate n ⟨#[], none⟩ ++ states.map (·.renumber (· + n))

theorem size_shiftedStates (n : Nat) (states : Array State) :
    (shiftedStates n states).size = n + states.size := by
  rw [shiftedStates, Array.size_append, Array.size_replicate, Array.size_map]

/-- The states in front have no edges and do not accept. -/
theorem getElem?_shiftedStates_of_lt (h : s < n) (states : Array State) :
    (shiftedStates n states)[s]? = some ⟨#[], none⟩ := by
  rw [shiftedStates, Array.getElem?_append_left (by rwa [Array.size_replicate]),
    Array.getElem?_replicate, if_pos h]

/-- The states of the machine stand behind them. -/
theorem getElem?_shiftedStates_add (n s : Nat) (states : Array State) :
    (shiftedStates n states)[s + n]? = states[s]?.map (·.renumber (· + n)) := by
  have hle : (Array.replicate n (⟨#[], none⟩ : State)).size ≤ s + n := by
    rw [Array.size_replicate]
    exact Nat.le_add_left n s
  rw [shiftedStates, Array.getElem?_append_right hle, Array.size_replicate, Nat.add_sub_cancel,
    Array.getElem?_map]

/-- An edge of a shifted machine is an edge of the machine. -/
theorem exists_of_mem_shiftedStates {states : Array State} {st : State} {e : Edge}
    (hst : st ∈ shiftedStates n states) (he : e ∈ st.edges) :
    ∃ st' ∈ states, ∃ e' ∈ st'.edges, e'.renumber (· + n) = e := by
  rcases Array.mem_append.1 hst with hst | hst
  · rw [Array.eq_of_mem_replicate hst] at he
    exact absurd he (Array.not_mem_empty e)
  · obtain ⟨st', hst', rfl⟩ := Array.mem_map.1 hst
    obtain ⟨e', he', rfl⟩ := Array.mem_map.1 he
    exact ⟨st', hst', e', he', rfl⟩

/-- The machine behind `n` states that have no edges and do not accept. -/
def shift (n : Nat) (m : Transducer) : Transducer where
  states := shiftedStates n m.states
  initial := m.initial + n
  initial_lt := by
    rw [size_shiftedStates, Nat.add_comm]
    exact Nat.add_lt_add_left m.initial_lt n
  target_lt st hst e he := by
    obtain ⟨st', hst', e', he', rfl⟩ := exists_of_mem_shiftedStates hst he
    rw [size_shiftedStates, Nat.add_comm]
    exact Nat.add_lt_add_right (m.target_lt st' hst' e' he') n
  nonempty st hst e he := by
    obtain ⟨st', hst', e', he', rfl⟩ := exists_of_mem_shiftedStates hst he
    exact m.nonempty st' hst' e' he'
  sorted st hst := by
    rcases Array.mem_append.1 hst with hst | hst
    · rw [Array.eq_of_mem_replicate hst]
      exact .nil
    · obtain ⟨st', hst', rfl⟩ := Array.mem_map.1 hst
      show (st'.edges.map (·.renumber (· + n))).toList.Pairwise (Edge.le · ·)
      rw [Array.toList_map]
      refine (m.sorted st' hst').map _ fun a b hab ↦ ?_
      rwa [Edge.le_renumber (strictMono_add n)]

variable (m : Transducer)

theorem states_shift (n : Nat) : (m.shift n).states = shiftedStates n m.states := rfl

theorem size_shift (n : Nat) : (m.shift n).size = n + m.size := size_shiftedStates n m.states

/-- The states in front have no edges. -/
theorem edges_shift_of_lt (h : s < n) : (m.shift n).edges s = #[] := by
  rw [edges, states_shift, getElem?_shiftedStates_of_lt h]
  rfl

/-- The states in front do not accept. -/
theorem final?_shift_of_lt (h : s < n) : (m.shift n).final? s = none := by
  rw [final?, states_shift, getElem?_shiftedStates_of_lt h]
  rfl

/-- **A machine is found behind the states in front.** -/
theorem embeds_shift (n : Nat) : m.Embeds (m.shift n) (· + n) where
  strictMono := strictMono_add n
  lt_size s hs := by
    rw [size_shift, Nat.add_comm]
    exact Nat.add_lt_add_left hs n
  initial := rfl
  edges s := by
    rw [edges, edges, states_shift, getElem?_shiftedStates_add]
    rcases m.states[s]? with - | st
    · exact Array.map_empty.symm
    · rfl
  final? s := by
    rw [final?, final?, states_shift, getElem?_shiftedStates_add]
    cases m.states[s]? <;> rfl

end Transducer

end Transduction
