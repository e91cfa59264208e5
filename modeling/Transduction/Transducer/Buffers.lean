import Transduction.Transducer.Evaluate

/-!
# Evaluation on flat working memory

The arrivals at all positions of a word are recorded in one array, row after row: the row of a
position has one cell for each state. With the states that have been reached, and those that are
being reached, the array is memory that is kept from one evaluation to the next, for other machines
and other words. Each evaluation lays it out anew before it begins.

An evaluation leaves the memory as it happens to be when it ends, which may be midway: at a state
that two ways lead to, or at a position that no way leads to.

A cell or a state outside of its table stops an evaluation without an answer.

## Main definitions

* `Buffers`: the working memory; `Buffers.reset` lays it out;
* `Transducer.evaluateOn`: the output of a word, worked out on given memory;
* `evaluateEach`: evaluations in turn on one memory.
-/

namespace Transduction

/-- What is recorded for a state that has been reached. -/
structure Step where
  /-- The state that was left; `none` before the first symbol. -/
  source? : Option StateId
  /-- The index of the edge in the list of the state that was left. -/
  index : Nat
deriving DecidableEq

/-- What is recorded for the initial state before the first symbol. -/
def Step.seed : Step := ⟨none, 0⟩

/-- What is recorded for the state that an arrival enters. -/
def Arrival.step (a : Arrival) : Step := ⟨some a.source, a.index⟩

/-- Working memory of evaluation. -/
structure Buffers where
  /-- The number of cells of a row. -/
  stride : Nat
  /-- The cells, row after row; `none` for a state that has not been reached. -/
  cells : Array (Option Step)
  /-- The states that have been reached, in the order in which they were found. -/
  frontier : Array StateId
  /-- The states that are being reached by one more symbol. -/
  next : Array StateId
deriving DecidableEq

namespace Buffers

/-- Memory that has not been used. -/
def empty : Buffers := ⟨0, #[], #[], #[]⟩

/-- Memory for a machine with the given number of states. -/
def new (size : Nat) : Buffers := ⟨size, #[], #[], #[]⟩

/-- The first `count` cells, with blank cells after them if there are fewer. -/
def resize (cells : Array (Option Step)) (count : Nat) : Array (Option Step) :=
  cells.take count ++ Array.replicate (count - cells.size) none

/-- The memory laid out for a word of the given length and a machine with the given number of
states. -/
def reset (b : Buffers) (length size : Nat) : Buffers where
  stride := size
  cells := resize (b.cells.take 0) ((length + 1) * size)
  frontier := b.frontier.take 0
  next := b.next.take 0

variable (b : Buffers)

/-- The cell of a state at a position; none if there is no such cell. -/
def cell? (position : Nat) (s : StateId) : Option (Option Step) :=
  b.cells[position * b.stride + s]?

/-- The memory with a step recorded for a state at a position; none if there is no such cell. -/
def set? (position : Nat) (s : StateId) (step : Step) : Option Buffers :=
  let i := position * b.stride + s
  if i < b.cells.size then some { b with cells := b.cells.setIfInBounds i (some step) } else none

/-- The memory with the states being reached taken for those that have been reached. -/
def swap : Buffers := { b with frontier := b.next, next := b.frontier }

/-- Records arrivals at a position, up to the first one at a state that has been reached there
already. -/
def record (position : Nat) (b : Buffers) :
    List Arrival → Option (Except EvalError Unit × Buffers)
  | [] => some (.ok (), b)
  | a :: rest => do
    match (← b.cell? position a.target).bind (·.source?) with
    | some first => return (.error (.paths position a.target first a.source), b)
    | none =>
      let b ← b.set? position a.target a.step
      record position { b with next := b.next.push a.target } rest

end Buffers

namespace Transducer

variable (m : Transducer)

/-- Records the arrivals from some states over a symbol, state by state. -/
def recordFrom (position : Nat) (x : Symbol) (b : Buffers) :
    List StateId → Option (Except EvalError Unit × Buffers)
  | [] => some (.ok (), b)
  | s :: sources =>
    if s < m.size then do
      match ← b.record position (m.arrivals [s] x) with
      | (.error e, b) => return (.error e, b)
      | (.ok (), b) => recordFrom position x b sources
    else none

/-- Reads the rest of a word, `position` symbols having been read: whether it has been read to its
end, and not only to a position that no state reaches. -/
def readAll (position : Nat) (b : Buffers) :
    List Symbol → Option (Except EvalError Bool × Buffers)
  | [] => some (.ok true, b)
  | x :: word => do
    match ← m.recordFrom (position + 1) x { b with next := b.next.take 0 } b.frontier.toList with
    | (.error e, b) => return (.error e, b)
    | (.ok (), b) =>
      if b.swap.frontier.isEmpty then return (.ok false, b.swap)
      else readAll (position + 1) b.swap word

/-- The only state that accepts among some and one that was found before, if there was one. -/
def soleAfter? (found? : Option StateId) :
    List StateId → Option (Except EvalError (Option StateId))
  | [] => some (.ok found?)
  | s :: states => do
    let row ← m.states[s]?
    match row.final?, found? with
    | none, _ => soleAfter? found? states
    | some _, none => soleAfter? (some s) states
    | some _, some first => return .error (.acceptance first s)

/-- The output of the computation that the memory records for state `s` after `position` symbols,
with `out` after it. -/
def backtrackOn (b : Buffers) (s : StateId) (out : Output) :
    Nat → Option (Except EvalError Output)
  | 0 =>
    if s = m.initial then do
      if (← b.cell? 0 s) = some .seed then return .ok out
      else return .error (.brokenBacktrack s)
    else return .error (.brokenBacktrack s)
  | position + 1 => do
    match ← b.cell? (position + 1) s with
    | some ⟨some source, i⟩ =>
      let e ← (m.edges source)[i]?
      backtrackOn b source (e.out ++ out) position
    | some ⟨none, _⟩ | none => return .error (.brokenBacktrack s)

/-- The output of a word, worked out on given memory, and the memory as it is left. -/
def evaluateOn (b : Buffers) (word : List Symbol) :
    Option (Except EvalError (Option Output) × Buffers) := do
  let b ← (b.reset word.length m.size).set? 0 m.initial .seed
  match ← m.readAll 0 { b with frontier := b.frontier.push m.initial } word with
  | (.error e, b) => return (.error e, b)
  | (.ok false, b) => return (.ok none, b)
  | (.ok true, b) =>
    match ← m.soleAfter? none b.frontier.toList with
    | .error e => return (.error e, b)
    | .ok none => return (.ok none, b)
    | .ok (some s) =>
      let row ← m.states[s]?
      let out ← m.backtrackOn b s (row.final?.getD []) word.length
      return (out.map some, b)

end Transducer

/-- Evaluates words in turn, each with a machine of its own, all on one memory. -/
def evaluateEach (b : Buffers) :
    List (Transducer × List Symbol) → Option (List (Except EvalError (Option Output)) × Buffers)
  | [] => some ([], b)
  | (m, word) :: calls => do
    let (answer, b) ← m.evaluateOn b word
    let (answers, b) ← evaluateEach b calls
    return (answer :: answers, b)

end Transduction
