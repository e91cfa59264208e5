import Transduction.Transducer.Run

/-!
# Trim machines

A machine that is made of a list of occurrences has a state for each of them, and an initial state
after them. It is trim if no state is dead that need not be: an occurrence that reads a symbol lies
on an accepting computation. An occurrence that reads nothing stands by itself.

It is local if what an edge reads is known from the state that it leads to: all edges into an
occurrence read what the occurrence reads, wherever they come from.

## Main definitions

* `Transducer.Visits`: an accepting computation leads through the state;
* `Transducer.Trim`: the machine is trim and local, for given occurrences.
-/

namespace Transduction.Transducer

/-- An accepting computation leads through the state: the state is reached over some word, and from
there a state that accepts is reached over some word. -/
def Visits (m : Transducer) (s : StateId) : Prop :=
  ∃ u v is js o p t f, m.Run m.initial u is s o ∧ m.Run s v js t p ∧ m.final? t = some f

/-- The machine is trim and local, if state `s` is the occurrence that reads `reads[s]`; `none`
stands for an occurrence of the empty literal, which reads nothing. -/
structure Trim (m : Transducer) (reads : List (Option SymbolRange)) : Prop where
  /-- There is a state for each occurrence, and one more. -/
  size_eq : m.size = reads.length + 1
  /-- The initial state comes after the occurrences. -/
  initial_eq : m.initial = reads.length
  /-- No edge leaves an occurrence that reads nothing or leads to it, and it does not accept. -/
  isolated : ∀ s, reads[s]? = some none →
    m.edges s = #[] ∧ (∀ t, ∀ d ∈ m.edges t, d.target ≠ s) ∧ m.final? s = none
  /-- No edge leads to the initial state. -/
  target_ne_initial : ∀ s, ∀ d ∈ m.edges s, d.target ≠ m.initial
  /-- An edge reads what the occurrence that it leads to reads. -/
  range_eq : ∀ s, ∀ d ∈ m.edges s, reads[d.target]? = some (some d.range)
  /-- An occurrence that reads something lies on an accepting computation. -/
  visits : ∀ s r, reads[s]? = some (some r) → m.Visits s

end Transduction.Transducer
