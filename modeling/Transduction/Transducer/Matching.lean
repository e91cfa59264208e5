import Transduction.PartitionPoint
import Transduction.Transducer.Basic

/-!
# Reading one symbol

The edges of a state that read a symbol are its *matches*. They are taken from the back of the
sorted list to its front. Since the list is sorted by the least symbols of its edges, only a leading
part of it can match, and binary search finds where that part ends.

When several states read the same symbol, each match is an *arrival* at a state. Two arrivals at one
state are a *clash*: from there on, the ways that led to it cannot be told apart.

## Main statements

* `matchingBelow_eq`: the matches in a leading part of the list, by filtering it in reverse.
-/

namespace Transduction

/-- An edge taken: from `source`, by the edge with that index, to `target`. -/
structure Arrival where
  /-- The state that is left. -/
  source : StateId
  /-- The index of the edge in the list of its state. -/
  index : Nat
  /-- The state that is entered. -/
  target : StateId
deriving DecidableEq

/-- The first arrival at a state that an earlier arrival has entered, and that earlier arrival.
`seen` holds the arrivals before the list. -/
def clashAfter? (seen : List Arrival) : List Arrival → Option (Arrival × Arrival)
  | [] => none
  | a :: rest =>
    match seen.find? (·.target = a.target) with
    | some b => some (b, a)
    | none => clashAfter? (a :: seen) rest

/-- The first arrival of the list at a state that an earlier one has entered, and that earlier
one. -/
def clash? (arrivals : List Arrival) : Option (Arrival × Arrival) := clashAfter? [] arrivals

namespace Transducer

/-- The edges of a list that read `x` and have an index below the given one, from the back of the
list, with their indices. -/
def matchingBelow (edges : Array Edge) (x : Symbol) : Nat → List (Edge × Nat)
  | 0 => []
  | i + 1 =>
    match edges[i]? with
    | some e =>
      if x ∈ e.range then (e, i) :: matchingBelow edges x i else matchingBelow edges x i
    | none => matchingBelow edges x i

/-- The search finds the edges among the first `n` that read the symbol, with their indices, from
the back. -/
theorem matchingBelow_eq {edges : Array Edge} {x : Symbol} {n : Nat} (h : n ≤ edges.size) :
    matchingBelow edges x n =
      ((edges.toList.take n).zipIdx.reverse).filter fun e ↦ x ∈ e.1.range := by
  induction n with
  | zero => rfl
  | succ i ih =>
    have hi : i < edges.size := h
    rw [matchingBelow, ih (Nat.le_of_lt h), List.take_add_one, List.zipIdx_append,
      List.reverse_append, List.filter_append]
    simp [hi, Nat.min_eq_left (Nat.le_of_lt h), List.filter_cons]
    split <;> rfl

variable (m : Transducer)

/-- The edges of state `s` that read `x`, from the back of the list, with their indices. -/
def matching (s : StateId) (x : Symbol) : List (Edge × Nat) :=
  let edges := m.edges s
  matchingBelow edges x (partitionPoint (fun e ↦ e.range.lower ≤ x) edges)

/-- The edge of state `s` with index `i` reads `x` and leads to `t`. -/
def Leads (x : Symbol) (s : StateId) (i : Nat) (t : StateId) : Prop :=
  ∃ e, (m.edges s)[i]? = some e ∧ x ∈ e.range ∧ e.target = t

/-- The arrivals from some states over one symbol, state by state. -/
def arrivals (sources : List StateId) (x : Symbol) : List Arrival :=
  sources.flatMap fun s ↦ (m.matching s x).map fun e ↦ ⟨s, e.2, e.1.target⟩

/-- The states among some that accept, with their final outputs. -/
def accepting (states : List StateId) : List (StateId × Output) :=
  states.filterMap fun s ↦ (m.final? s).map fun out ↦ (s, out)

end Transducer

end Transduction
