import Transduction.Transducer.Buffers

/-!
# Evaluation with every edge looked up

Evaluation on flat memory stops when a cell or a state is missing, but the matches of a state are
found in a list that leaves out what is not there. Here each edge that is looked at is looked up by
its index, and an edge outside of its list stops the evaluation too. All matches of a state are
looked up before the first of them is recorded.

## Main definitions

* `Transducer.matching?`: the matches of a state, if no edge is missing;
* `Transducer.evaluateChecked`: the output of a word, if no cell, state or edge is missing.
-/

namespace Transduction.Transducer

/-- The edges of a list that read `x` and have an index below the given one, from the back of the
list, with their indices; none if there is an index without an edge. -/
def matchingBelow? (edges : Array Edge) (x : Symbol) : Nat → Option (List (Edge × Nat))
  | 0 => some []
  | i + 1 => do
    let e ← edges[i]?
    let found ← matchingBelow? edges x i
    return if x ∈ e.range then (e, i) :: found else found

variable (m : Transducer)

/-- The edges of state `s` that read `x`, from the back of the list, with their indices; none if the
state or an edge is missing. -/
def matching? (s : StateId) (x : Symbol) : Option (List (Edge × Nat)) := do
  let row ← m.states[s]?
  matchingBelow? row.edges x (partitionPoint (fun e ↦ e.range.lower ≤ x) row.edges)

/-- Records the arrivals from some states over a symbol, each edge looked up. -/
def recordChecked (position : Nat) (x : Symbol) (b : Buffers) :
    List StateId → Option (Except EvalError Unit × Buffers)
  | [] => some (.ok (), b)
  | s :: sources => do
    let found ← m.matching? s x
    match ← b.record position (found.map fun e ↦ ⟨s, e.2, e.1.target⟩) with
    | (.error e, b) => return (.error e, b)
    | (.ok (), b) => recordChecked position x b sources

/-- Reads the rest of a word, `position` symbols having been read, each edge looked up. -/
def readChecked (position : Nat) (b : Buffers) :
    List Symbol → Option (Except EvalError Bool × Buffers)
  | [] => some (.ok true, b)
  | x :: word => do
    match ← m.recordChecked (position + 1) x { b with next := b.next.take 0 }
      b.frontier.toList with
    | (.error e, b) => return (.error e, b)
    | (.ok (), b) =>
      if b.swap.frontier.isEmpty then return (.ok false, b.swap)
      else readChecked (position + 1) b.swap word

/-- The output of a word, worked out on given memory, and the memory as it is left; none if a cell,
a state or an edge is missing. -/
def evaluateChecked (b : Buffers) (word : List Symbol) :
    Option (Except EvalError (Option Output) × Buffers) := do
  let b ← (b.reset word.length m.size).set? 0 m.initial .seed
  match ← m.readChecked 0 { b with frontier := b.frontier.push m.initial } word with
  | (.error e, b) => return (.error e, b)
  | (.ok false, b) => return (.ok none, b)
  | (.ok true, b) =>
    match ← m.soleAfter? none b.frontier.toList with
    | .error e => return (.error e, b)
    | .ok none => return (.ok none, b)
    | .ok (some s) =>
      let row ← m.states[s]?
      let out ← m.backtrackOn b s (row.final?.getD []) word.length
      return (out.map some, b)

end Transduction.Transducer
