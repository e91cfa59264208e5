import Transduction.Transducer.Basic

/-!
# Computations of a transducer

A computation reads a word along edges of the table. It is told apart from others by the indices of
its edges, so two equal edges of one state give two computations.

## Main definitions

* `Transducer.Run`: a computation from one state to another;
* `Transducer.AcceptingRun`: one from the initial state to a state that accepts.

## Main statements

* `Run.append`, `Run.split`: computations can be put together and divided along the word;
* `Run.eq_of_indices`: the indices determine where a computation ends and what it emits.
-/

namespace Transduction.Transducer

/-- A computation that leads from one state to another, reads a word along the edges with the given
indices, and emits an output. -/
inductive Run (m : Transducer) :
    StateId → List Symbol → List Nat → StateId → Output → Prop
  /-- Nothing is read. -/
  | nil (s : StateId) : Run m s [] [] s []
  /-- One edge, then the rest. -/
  | cons {s t : StateId} {x : Symbol} {w : List Symbol} {i : Nat} {is : List Nat} {e : Edge}
      {o : Output} (edge : (m.edges s)[i]? = some e) (mem : x ∈ e.range)
      (tail : Run m e.target w is t o) : Run m s (x :: w) (i :: is) t (e.out ++ o)

/-- A computation from the initial state over a whole word to a state that accepts, with all that it
emits. -/
def AcceptingRun (m : Transducer) (w : List Symbol) (is : List Nat) (o : Output) : Prop :=
  ∃ s p f, m.Run m.initial w is s p ∧ m.final? s = some f ∧ o = p ++ f

namespace Run

variable {m : Transducer} {s t u : StateId} {w v : List Symbol} {is js : List Nat} {o p : Output}

/-- A computation takes one edge for each symbol. -/
theorem length_indices (h : m.Run s w is t o) : is.length = w.length := by
  induction h with
  | nil => rfl
  | cons _ _ _ ih => rw [List.length_cons, List.length_cons, ih]

/-- Computations are put after each other. -/
theorem append (h : m.Run s w is t o) (k : m.Run t v js u p) :
    m.Run s (w ++ v) (is ++ js) u (o ++ p) := by
  induction h with
  | nil => exact k
  | cons edge mem _ ih =>
    rw [List.append_assoc]
    exact .cons edge mem (ih k)

/-- A computation on two words is one on the first and then one on the second. -/
theorem split (h : m.Run s (w ++ v) is u o) :
    ∃ t js ks p q, is = js ++ ks ∧ o = p ++ q ∧ m.Run s w js t p ∧ m.Run t v ks u q := by
  induction w generalizing s is o with
  | nil => exact ⟨s, [], is, [], o, rfl, rfl, .nil s, h⟩
  | cons x w ih =>
    cases h with
    | cons edge mem tail =>
      obtain ⟨t, js, ks, p, q, rfl, rfl, hw, hv⟩ := ih tail
      exact ⟨t, _ :: js, ks, _, q, rfl, (List.append_assoc ..).symm, .cons edge mem hw, hv⟩

/-- **The edges that are taken determine the computation**: its end and its output. -/
theorem eq_of_indices (h : m.Run s w is t o) (k : m.Run s w is u p) : t = u ∧ o = p := by
  induction h generalizing p with
  | nil => cases k; exact ⟨rfl, rfl⟩
  | cons edge _ _ ih =>
    cases k with
    | cons edge₂ _ tail₂ =>
      obtain rfl := Option.some.inj (edge.symm.trans edge₂)
      obtain ⟨rfl, rfl⟩ := ih tail₂
      exact ⟨rfl, rfl⟩

end Run

end Transduction.Transducer
