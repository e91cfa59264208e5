import Transduction.Error
import Transduction.Transducer.Matching

/-!
# Evaluation

A word is read from left to right, keeping the states that can be reached. The arrivals at each
position are recorded in a *trellis*, one column for each symbol. Two arrivals at one state at one
position are an error, and so are two accepting states at the end: the output of a word is given
only if the word has one computation. Its output is read off the trellis from the last column to the
first.

A trellis can be used for several evaluations. A column is written before it is read, so what an
earlier evaluation left there is never seen.

## Main definitions

* `Transducer.evaluate`: the output of a word;
* `Transducer.evaluateWith`: the same, on a given trellis.
-/

namespace Transduction

/-- Working memory of evaluation: the arrivals at each position, the first column holding those
after the first symbol. Columns beyond the word being read are left over from earlier words. -/
structure Trellis where
  /-- The columns. -/
  columns : Array (List Arrival)

namespace Trellis

/-- A trellis without columns. -/
def empty : Trellis := ⟨#[]⟩

/-- The trellis with column `i` replaced; a column just after the last one is added. -/
def write (t : Trellis) (i : Nat) (column : List Arrival) : Trellis :=
  if i < t.columns.size then ⟨t.columns.setIfInBounds i column⟩ else ⟨t.columns.push column⟩

/-- The arrival at a state in column `i`. -/
def arrivalAt? (t : Trellis) (i : Nat) (s : StateId) : Option Arrival :=
  t.columns[i]?.bind fun column ↦ column.find? (·.target = s)

end Trellis

namespace Transducer

variable (m : Transducer)

/-- Reads the rest of a word from the states in `frontier`, `position` symbols having been read:
the states reached at its end, in the order in which they were found, and the trellis. -/
def advanceAll (position : Nat) (frontier : List StateId) (t : Trellis) :
    List Symbol → Except EvalError (List StateId) × Trellis
  | [] => (.ok frontier, t)
  | x :: word =>
    let column := m.arrivals frontier x
    match clash? column with
    | some (a, b) => (.error (.paths (position + 1) b.target a.source b.source), t)
    | none => advanceAll (position + 1) (column.map (·.target)) (t.write position column) word

/-- The only state among some that accepts, with its final output; `none` if there is none, and an
error if there are two. -/
def soleAccepting? (frontier : List StateId) : Except EvalError (Option (StateId × Output)) :=
  match m.accepting frontier with
  | [] => .ok none
  | [x] => .ok (some x)
  | x :: y :: _ => .error (.acceptance x.1 y.1)

/-- The output of the computation that the trellis records for state `s` after `position` symbols,
with `out` after it. -/
def backtrack (t : Trellis) (s : StateId) (out : Output) : Nat → Except EvalError Output
  | 0 => if s = m.initial then .ok out else .error (.brokenBacktrack s)
  | position + 1 =>
    match t.arrivalAt? position s with
    | none => .error (.brokenBacktrack s)
    | some a =>
      match (m.edges a.source)[a.index]? with
      | none => .error (.brokenBacktrack s)
      | some e => backtrack t a.source (e.out ++ out) position

/-- The output of a word, and the trellis after its evaluation. -/
def evaluateWith (t : Trellis) (word : List Symbol) :
    Except EvalError (Option Output) × Trellis :=
  match m.advanceAll 0 [m.initial] t word with
  | (.error e, t) => (.error e, t)
  | (.ok frontier, t) =>
    match m.soleAccepting? frontier with
    | .error e => (.error e, t)
    | .ok none => (.ok none, t)
    | .ok (some (s, out)) => ((m.backtrack t s out word.length).map some, t)

/-- The output of a word; `none` if the machine does not accept it, and an error if it may have
several computations. -/
def evaluate (word : List Symbol) : Except EvalError (Option Output) :=
  (m.evaluateWith .empty word).1

end Transducer

end Transduction
