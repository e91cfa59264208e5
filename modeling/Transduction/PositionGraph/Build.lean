import Transduction.Expr.Basic
import Transduction.Error
import Transduction.PositionGraph.Basic

/-!
# Numbering an expression

`PositionGraph.build` gives every occurrence of an expression the next free number, from left to
right. The free number is a state of the computation, and a failure does not take back the numbers
that were given before it: several expressions can be numbered in turn, and no number is given
twice.

A part is refused as soon as its own pieces are numbered: a union whose branches emit different
outputs on the empty word, and a star whose body emits an output on the empty word. A range that
holds no symbol and a variable are refused before they take a number.

## Main statements

* `build_concat`, `build_union`, `build_star`, `build_emit`: how the number passes through a node;
* `Numbering.run_bind`: a failure keeps the number.
-/

namespace Transduction

/-- A computation that gives out numbers and may fail; the next free number outlives a failure. -/
abbrev Numbering := ExceptT CompileError (StateM StateId)

namespace Numbering

/-- The outcome of a computation, and the next free number after it. -/
abbrev runFrom {α : Type} (x : Numbering α) (next : StateId) : Except CompileError α × StateId :=
  x.run.run next

/-- Takes `count` numbers and gives the first of them. -/
def take (count : Nat) : Numbering StateId := modifyGet fun next ↦ (next, next + count)

@[simp] theorem run_take (count : Nat) (next : StateId) :
    (take count).runFrom next = (.ok next, next + count) := rfl

/-- A failure keeps the next free number, and nothing is done after it. -/
theorem run_bind {α β : Type} (x : Numbering α) (f : α → Numbering β) (next : StateId) :
    (x >>= f).runFrom next =
      match x.runFrom next with
      | (.ok a, next) => (f a).runFrom next
      | (.error e, next) => (.error e, next) := by
  rw [runFrom, runFrom, ExceptT.run_bind, StateT.run_bind]
  rcases x.run.run next with ⟨_ | _, _⟩ <;> rfl

end Numbering

namespace PositionGraph

/-- Positions in sequence. The last one is given first, and those before it from the back. -/
def chain (last : Position) : List Position → PositionGraph
  | [] => position last
  | p :: before => concat (chain p before) (position last) []

/-- The positions of a literal, numbered from `state` on; the last one emits `out`. An empty literal
has one position too, which reads nothing. -/
def ofWord (state : StateId) (word : List Symbol) (out : Output) : PositionGraph :=
  match (word.zipIdx state).reverse with
  | [] => position ⟨state, none, out⟩
  | x :: before =>
    chain ⟨x.2, some (.single x.1), out⟩ (before.map fun y ↦ ⟨y.2, some (.single y.1), []⟩)

/-- Two parts as branches of a union; refused if they emit different outputs on the empty word. -/
def unite (l r : PositionGraph) : Except CompileError PositionGraph :=
  match l.empty?, r.empty? with
  | some a, some b => if a = b then .ok (union l r []) else .error (.ambiguousUnion a b)
  | _, _ => .ok (union l r [])

/-- A part any number of times; refused if it emits an output on the empty word. -/
def iterate (b : PositionGraph) : Except CompileError PositionGraph :=
  match b.empty? with
  | none | some [] => .ok (star b [])
  | some out => .error (.ambiguousStar out)

/-- The expression with its occurrences numbered from the next free number on. -/
def build : Expr → Numbering PositionGraph
  | .union l r => do
    let l ← build l
    let r ← build r
    unite l r
  | .concat l r => do
    let l ← build l
    let r ← build r
    return concat l r []
  | .star b => do
    let b ← build b
    iterate b
  | .literal word out => do
    let state ← Numbering.take (max word.length 1)
    return ofWord state word out
  | .range r out =>
    if h : r.IsEmpty then throw (.invalidRange r)
    else do
      let state ← Numbering.take 1
      return position ⟨state, some ⟨r, h⟩, out⟩
  | .emit b out => do
    let b ← build b
    return b.emit out
  | .var name => throw (.unsupportedVariable name)

/-! ### How the number passes through a node -/

/-- The right branch is numbered after the left one, and then both are compared. -/
theorem build_union (l r : Expr) (n : StateId) :
    (build (.union l r)).runFrom n =
      match (build l).runFrom n with
      | (.error e, n) => (.error e, n)
      | (.ok l, n) =>
        match (build r).runFrom n with
        | (.error e, n) => (.error e, n)
        | (.ok r, n) => (unite l r, n) := by
  rw [build, Numbering.run_bind]
  rcases (build l).runFrom n with ⟨_ | l, n⟩
  · rfl
  · dsimp only
    rw [Numbering.run_bind]
    rcases (build r).runFrom n with ⟨_ | r, n⟩ <;> rfl

/-- The right side is numbered after the left one. -/
theorem build_concat (l r : Expr) (n : StateId) :
    (build (.concat l r)).runFrom n =
      match (build l).runFrom n with
      | (.error e, n) => (.error e, n)
      | (.ok l, n) =>
        match (build r).runFrom n with
        | (.error e, n) => (.error e, n)
        | (.ok r, n) => (.ok (concat l r []), n) := by
  rw [build, Numbering.run_bind]
  rcases (build l).runFrom n with ⟨_ | l, n⟩
  · rfl
  · dsimp only
    rw [Numbering.run_bind]
    rcases (build r).runFrom n with ⟨_ | r, n⟩ <;> rfl

/-- The body is numbered, and then its output on the empty word is looked at. -/
theorem build_star (b : Expr) (n : StateId) :
    (build (.star b)).runFrom n =
      match (build b).runFrom n with
      | (.error e, n) => (.error e, n)
      | (.ok b, n) => (iterate b, n) := by
  rw [build, Numbering.run_bind]
  rcases (build b).runFrom n with ⟨_ | b, n⟩ <;> rfl

theorem build_emit (b : Expr) (out : Output) (n : StateId) :
    (build (.emit b out)).runFrom n =
      match (build b).runFrom n with
      | (.error e, n) => (.error e, n)
      | (.ok b, n) => (.ok (b.emit out), n) := by
  rw [build, Numbering.run_bind]
  rcases (build b).runFrom n with ⟨_ | b, n⟩ <;> rfl

/-- A literal takes a number for each symbol, and an empty one takes one. -/
theorem build_literal (word : List Symbol) (out : Output) (n : StateId) :
    (build (.literal word out)).runFrom n = (.ok (ofWord n word out), n + max word.length 1) := rfl

/-- A range without symbols takes no number. -/
theorem build_range_of_isEmpty {r : SymbolRange} (h : r.IsEmpty) (out : Output) (n : StateId) :
    (build (.range r out)).runFrom n = (.error (.invalidRange r), n) := by
  rw [build, dif_pos h]
  rfl

/-- A range takes one number. -/
theorem build_range {r : SymbolRange} (h : ¬ r.IsEmpty) (out : Output) (n : StateId) :
    (build (.range r out)).runFrom n = (.ok (position ⟨n, some ⟨r, h⟩, out⟩), n + 1) := by
  rw [build, dif_neg h]
  rfl

theorem build_var (name : String) (n : StateId) :
    (build (.var name)).runFrom n = (.error (.unsupportedVariable name), n) := rfl

end PositionGraph

end Transduction
