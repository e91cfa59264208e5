import Transduction.PositionGraph.History
import Transduction.Transducer.OfGraph

/-!
# Numbers that are kept in words

`PositionGraph.build` counts without end. A program keeps its counter in a word, and there is no
number after the greatest one of a word: depending on how the program has been built, it stops
there, or it goes on from zero and gives numbers a second time. Tables end too, since there is room
for so many rows only.

`Platform` says where the ends are and what happens there. Numbering on a platform takes its numbers
one at a time, a literal symbol by symbol; each number is taken by raising the counter, so the
greatest number of a word can be given only if the counter is wrapped. A machine is laid out with a
row for each number up to the greatest one of its graph, and one more for the initial state.

## Main definitions

* `Platform`: the size of words, what is done beyond it, and the room for rows;
* `Platform.number`, `Platform.attempts?`: `PositionGraph.build` and `PositionGraph.attempts` with a
  counter that ends;
* `Platform.layOut?`, `Platform.machine?`: a machine, if there is room for it.
-/

namespace Transduction

/-- What becomes of the counter after the greatest number of a word. -/
inductive Overflow where
  /-- The program stops. -/
  | stop
  /-- The counter goes on from zero. -/
  | wrap
deriving DecidableEq

/-- What a program can count and lay out. -/
structure Platform where
  /-- The number of numbers that a word has. -/
  size : Nat
  /-- What becomes of the counter after the greatest one. -/
  overflow : Overflow
  /-- The number of rows that there is room for. -/
  room : Nat
  /-- The rows are counted in a word. -/
  room_lt : room < size

/-- A computation that gives out numbers and may fail. It has no outcome where the program stops. -/
abbrev Counting := ExceptT CompileError (StateT StateId Option)

namespace Counting

/-- The outcome of a computation, and the counter after it; none if the program stops. -/
abbrev runFrom {α : Type} (x : Counting α) (next : StateId) :
    Option (Except CompileError α × StateId) :=
  x.run.run next

/-- A failure keeps the counter, and where the program stops nothing follows. -/
theorem run_bind {α β : Type} (x : Counting α) (f : α → Counting β) (next : StateId) :
    (x >>= f).runFrom next =
      (x.runFrom next).bind fun
        | (.ok a, next) => (f a).runFrom next
        | (.error e, next) => some (.error e, next) := by
  rw [runFrom, runFrom, ExceptT.run_bind, StateT.run_bind]
  rcases x.run.run next with - | ⟨_ | _, _⟩ <;> rfl

end Counting

namespace Platform

open PositionGraph

variable (P : Platform)

/-- The same platform for a program that stops where its counter ends. -/
def checked : Platform := { P with overflow := .stop }

/-- The number after `n`; none if the program stops. -/
def next? (n : StateId) : Option StateId :=
  if n + 1 < P.size then some (n + 1)
  else match P.overflow with
    | .stop => none
    | .wrap => some ((n + 1) % P.size)

/-- Takes a number. -/
def take : Counting StateId := ExceptT.mk fun n ↦ (P.next? n).map fun next ↦ (.ok n, next)

/-- A position for a symbol of a literal, with `rest` after it. Only the last position of a literal
emits its output. -/
def link (c : Symbol) (rest : List Symbol) (out : Output) (state : StateId) : PositionGraph :=
  position ⟨state, some (.single c), if rest.isEmpty then out else []⟩

/-- The part `g` with a position for each further symbol of a literal. -/
def numberRest (out : Output) (g : PositionGraph) : List Symbol → Counting PositionGraph
  | [] => return g
  | c :: rest => do
    let state ← P.take
    numberRest out (concat g (link c rest out state) []) rest

/-- The expression with its occurrences numbered, each as soon as the counter comes to it. -/
def number : Expr → Counting PositionGraph
  | .union l r => do
    let l ← number l
    let r ← number r
    unite l r
  | .concat l r => do
    let l ← number l
    let r ← number r
    return concat l r []
  | .star b => do
    let b ← number b
    iterate b
  | .literal [] out => do
    let state ← P.take
    return position ⟨state, none, out⟩
  | .literal (c :: rest) out => do
    let state ← P.take
    P.numberRest out (link c rest out state) rest
  | .range r out =>
    if h : r.IsEmpty then throw (.invalidRange r)
    else do
      let state ← P.take
      return position ⟨state, some ⟨r, h⟩, out⟩
  | .emit b out => do
    let b ← number b
    return b.emit out
  | .var name => throw (.unsupportedVariable name)

/-- Numbers the expressions of a list in turn; none if the program stops on the way. -/
def attempts? (next : StateId) : List Expr → Option (List Attempt)
  | [] => some []
  | e :: es => do
    let (outcome, stop) ← (P.number e).runFrom next
    let rest ← attempts? stop es
    return ⟨e, next, outcome, stop⟩ :: rest

/-- The number of rows in front of the initial state's: one for each number up to the greatest one
of the graph. -/
def slots? (g : PositionGraph) : Option Nat :=
  match g.ids.max? with
  | some last => P.next? last
  | none => some 0

/-- The machine of a graph; none if a number has no row or there is no room for the rows. -/
def layOut? (g : PositionGraph) : Option Transducer := do
  let slots ← P.slots? g
  if g.bound ≤ slots ∧ slots < P.room then some (.ofGraph g) else none

/-- The machine of an expression that is numbered from `n` on, or why it has none; none if the
program stops. -/
def machine? (e : Expr) (n : StateId) : Option (Except CompileError Transducer) := do
  match ← (P.number e).runFrom n with
  | (.ok g, _) => (P.layOut? g).map .ok
  | (.error err, _) => some (.error err)

/-- Words of 64 bits. A row takes 24 bytes, and a table has less than half of the bytes that a word
can count. -/
def bits64 (overflow : Overflow) : Platform where
  size := 0x10000000000000000
  overflow := overflow
  room := 0x7FFFFFFFFFFFFFFF / 24
  room_lt := by decide

end Platform

end Transduction
