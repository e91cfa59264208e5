import Std.Data.TreeMap.Basic
import Transduction.Transducer.EdgeQuery

/-!
# Entering states one after the other

A set of states advances over a symbol member by member, in ascending order, and each member takes
its edges that read the symbol, from the back of their list. Two records grow together on the way:
the set of the states that have been entered, and the state that each of them was entered from. The
first state that is entered again ends the advance.

Every state and every edge is looked up. A state or an edge outside of its table stops the advance
without an outcome, and so does an entered state that has no place in the set. All matches of a
member are looked up before the first of them is taken.

What makes an advance fail is said without any order: which edges of which members read the symbol,
and where they lead.

## Main definitions

* `Entered.enter`: the edges of one member;
* `Transducer.advanceChecked`: the states that are active after the members of a set have read a
  symbol;
* `Transducer.EntersTwice`: what makes an advance fail.
-/

namespace Transduction

/-- The states that have been entered over a symbol. -/
structure Entered where
  /-- The state that each of them was entered from. -/
  sources : Std.TreeMap StateId StateId
  /-- The states themselves. -/
  states : StateSet

namespace Entered

/-- No state has been entered, of a machine with `size` states. -/
def empty (size : Nat) : Entered := ⟨∅, .empty size⟩

/-- Takes edges of state `s` over `x` one after the other, up to the first one that leads to a state
that has been entered; none if an edge leads to a state that has no place in the set. -/
def enter (x : Symbol) (s : StateId) (q : Entered) :
    List Edge → Option (Except AmbiguityError Entered)
  | [] => some (.ok q)
  | e :: rest =>
    match q.sources[e.target]? with
    | some first => some (.error (.transitions first s e.target x))
    | none => do
      let states ← q.states.insert? e.target
      enter x s ⟨q.sources.insert e.target s, states⟩ rest

end Entered

namespace Transducer

variable (m : Transducer)

/-- Takes the edges of some states that read `x`, state by state. -/
def enterFrom (x : Symbol) (q : Entered) :
    List StateId → Option (Except AmbiguityError Entered)
  | [] => some (.ok q)
  | s :: members => do
    let found ← m.edgesReading? s x
    match ← q.enter x s found with
    | .error e => return .error e
    | .ok q => enterFrom x q members

/-- The states that are active after the members of the set have read `x`, each state and each edge
looked up. Fails if one of them is entered in two ways; none if a state or an edge is missing. -/
def advanceChecked (S : StateSet) (x : Symbol) : Option (Except AmbiguityError StateSet) := do
  let r ← m.enterFrom x (.empty m.size) S.members
  return r.map (·.states)

/-- Two different edges of members of the set read `x` and lead to one state. They may be edges of
one member. -/
def EntersTwice (S : StateSet) (x : Symbol) : Prop :=
  ∃ s ∈ S, ∃ s' ∈ S, ∃ i j t, (s, i) ≠ (s', j) ∧ m.Leads x s i t ∧ m.Leads x s' j t

end Transducer

end Transduction
