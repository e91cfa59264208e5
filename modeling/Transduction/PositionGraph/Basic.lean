import Transduction.Symbol
import Transduction.Output
import Transduction.StateSet
import Transduction.Numbered

/-!
# Position graphs

A position graph is an expression whose occurrences are numbered: each leaf is a state. It says
which states a word can begin in (`first`), end in (`last`) and pass between (`follow`), and what is
emitted on the way. Outputs are of three kinds:

* on entering a state as the first one of a part, what the parts before it emit on the empty word;
* on leaving a state as the last one of a part, what the part and the parts after it emit;
* on passing from one state to the next, what is emitted on leaving the one and on entering the
  other.

Every node carries the output that is emitted whenever the node as a whole is left. A star passes
from the ends of its body to the beginnings of its body, so its body's output is emitted at each
round, and its own output only once, at the end.

## Main definitions

* `PositionGraph.first`, `PositionGraph.last`, `PositionGraph.empty?`, `PositionGraph.follow`;
* `PositionGraph.tables?`: the same information by the number of the state.

## Main statements

* `follow_union`, `follow_concat`, `follow_star`: the passages, node by node. They are collected in
  front of a list that is handed on, so a long chain of nodes is passed over once.
-/

namespace Transduction

/-- A numbered occurrence. -/
structure Position where
  /-- The number of the occurrence. -/
  state : StateId
  /-- The symbols that the occurrence reads; `none` for the empty literal, which reads nothing. -/
  range : Option SymbolClass
  /-- The output emitted when the occurrence is left. -/
  out : Output
deriving DecidableEq

/-- An expression with numbered occurrences. At each node that is not a position, `out` is emitted
when the node is left. -/
inductive PositionGraph where
  /-- One occurrence. -/
  | position (p : Position)
  /-- Either side. -/
  | union (lhs rhs : PositionGraph) (out : Output)
  /-- The left side, then the right side. -/
  | concat (lhs rhs : PositionGraph) (out : Output)
  /-- The body, any number of times. -/
  | star (body : PositionGraph) (out : Output)
deriving DecidableEq

/-- A state with what is emitted on entering or on leaving it. -/
abbrev Boundary := List (StateId × Output)

namespace Boundary

/-- The states with `out` before what is emitted. -/
def before (out : Output) (b : Boundary) : Boundary := b.map fun x ↦ (x.1, out ++ x.2)

/-- The states with `out` after what is emitted. -/
def after (out : Output) (b : Boundary) : Boundary := b.map fun x ↦ (x.1, x.2 ++ out)

end Boundary

/-- A passage from one state to the next: the state that is left, the state that is entered, and
what is emitted on the way. -/
abbrev Passage := StateId × StateId × Output

/-- The passages from each of some ends to each of some beginnings. -/
def Boundary.passages (exits entries : Boundary) : List Passage :=
  exits.flatMap fun x ↦ entries.map fun y ↦ (x.1, y.1, x.2 ++ y.2)

namespace PositionGraph

/-- The output on the empty word; `none` if the part does not accept it. -/
def empty? : PositionGraph → Option Output
  | position p => if p.range.isNone then some p.out else none
  | union l r out => (l.empty?.or r.empty?).map (· ++ out)
  | concat l r out => r.empty?.bind fun b ↦ l.empty?.map fun a ↦ a ++ b ++ out
  | star _ out => some out

/-- The states that a word of the part can begin in, with what is emitted on entering them. -/
def first : PositionGraph → Boundary
  | position p => if p.range.isSome then [(p.state, [])] else []
  | union l r _ => l.first ++ r.first
  | concat l r _ =>
    l.first ++ match l.empty? with
      | some e => r.first.before e
      | none => []
  | star b _ => b.first

/-- The states that a word of the part can end in, with what is emitted on leaving them. -/
def last : PositionGraph → Boundary
  | position p => if p.range.isSome then [(p.state, p.out)] else []
  | union l r out => (l.last ++ r.last).after out
  | concat l r out =>
    ((match r.empty? with
      | some e => l.last.after e
      | none => []) ++ r.last).after out
  | star b out => b.last.after out

/-- The passages inside the part, with `rest` after them. -/
def followOnto : PositionGraph → List Passage → List Passage
  | position _, rest => rest
  | union l r _, rest => l.followOnto (r.followOnto rest)
  | concat l r _, rest => l.last.passages r.first ++ l.followOnto (r.followOnto rest)
  | star b _, rest => b.last.passages b.first ++ b.followOnto rest

/-- The passages inside the part. Those of a node come before those of its parts, and the left part
before the right one; two nodes may give the same passage. -/
def follow (g : PositionGraph) : List Passage := g.followOnto []

/-- The occurrences from left to right, with `rest` after them. -/
def positionsOnto : PositionGraph → List Position → List Position
  | position p, rest => p :: rest
  | union l r _, rest | concat l r _, rest => l.positionsOnto (r.positionsOnto rest)
  | star b _, rest => b.positionsOnto rest

/-- The occurrences from left to right. -/
def positions (g : PositionGraph) : List Position := g.positionsOnto []

/-- The numbers of the occurrences from left to right. -/
def ids (g : PositionGraph) : List StateId := g.positions.map (·.state)

/-- One more than the greatest number of an occurrence. -/
def bound (g : PositionGraph) : Nat := g.ids.foldr (fun s n ↦ max (s + 1) n) 0

/-- The part with one more output, emitted after all others when the part is left. -/
def emit (s : Output) : PositionGraph → PositionGraph
  | position p => position { p with out := p.out ++ s }
  | union l r out => union l r (out ++ s)
  | concat l r out => concat l r (out ++ s)
  | star b out => star b (out ++ s)

/-- The symbols that each occurrence reads, numbered by its state. -/
def ranges (g : PositionGraph) : List (StateId × Option SymbolClass) :=
  g.positions.map fun p ↦ (p.state, p.range)

/-- The symbols that state `s` reads; `none` if it reads nothing or is not in the graph. -/
def rangeOf? (g : PositionGraph) (s : StateId) : Option SymbolClass :=
  (Numbered.valuesAt g.ranges s).head?.join

/-- A position graph by the numbers of its states. -/
structure Tables where
  /-- The symbols that each state reads. -/
  ranges : List (Option SymbolClass)
  /-- The states that each state passes to, with what is emitted. -/
  adjacency : List Boundary

/-- The tables of a position graph with `slots` entries; none if a state has no entry. -/
def tables? (g : PositionGraph) (slots : Nat) : Option Tables :=
  if g.bound ≤ slots then
    some {
      ranges := (Numbered.tabulate slots g.ranges).toList.map (·.head?.join)
      adjacency := (Numbered.tabulate slots g.follow).toList }
  else none

/-! ### Node by node -/

/-- A concatenation accepts the empty word if both sides do. -/
theorem empty?_concat (l r : PositionGraph) (out : Output) :
    (concat l r out).empty? = (Output.join? l.empty? r.empty?).map (· ++ out) := by
  rw [empty?]
  cases l.empty? <;> cases r.empty? <;> rfl

/-- The list that is handed on stands behind the passages. -/
theorem followOnto_eq (g : PositionGraph) (rest : List Passage) :
    g.followOnto rest = g.follow ++ rest := by
  rw [follow]
  induction g generalizing rest with
  | position => rfl
  | union l r _ ihl ihr =>
    rw [followOnto, followOnto, ihr, ihl, ihl (r.followOnto []), List.append_assoc]
  | concat l r _ ihl ihr =>
    rw [followOnto, followOnto, ihr, ihl, ihl (r.followOnto []), List.append_assoc,
      List.append_assoc]
  | star b _ ih => rw [followOnto, followOnto, ih, List.append_assoc]

@[simp] theorem follow_position (p : Position) : (position p).follow = [] := rfl

/-- No passage leads from one branch to the other. -/
@[simp] theorem follow_union (l r : PositionGraph) (out : Output) :
    (union l r out).follow = l.follow ++ r.follow := by
  rw [← followOnto_eq]
  rfl

/-- The ends of the left side pass to the beginnings of the right one. -/
@[simp] theorem follow_concat (l r : PositionGraph) (out : Output) :
    (concat l r out).follow = l.last.passages r.first ++ (l.follow ++ r.follow) := by
  rw [← followOnto_eq]
  rfl

/-- The ends of the body pass to its beginnings. -/
@[simp] theorem follow_star (b : PositionGraph) (out : Output) :
    (star b out).follow = b.last.passages b.first ++ b.follow := rfl

theorem positionsOnto_eq (g : PositionGraph) (rest : List Position) :
    g.positionsOnto rest = g.positions ++ rest := by
  rw [positions]
  induction g generalizing rest with
  | position => rfl
  | union l r _ ihl ihr | concat l r _ ihl ihr =>
    rw [positionsOnto, positionsOnto, ihr, ihl, ihl (r.positionsOnto []), List.append_assoc]
  | star b _ ih => exact ih rest

@[simp] theorem positions_position (p : Position) : (position p).positions = [p] := rfl

@[simp] theorem positions_union (l r : PositionGraph) (out : Output) :
    (union l r out).positions = l.positions ++ r.positions := by
  rw [← positionsOnto_eq]
  rfl

@[simp] theorem positions_concat (l r : PositionGraph) (out : Output) :
    (concat l r out).positions = l.positions ++ r.positions := by
  rw [← positionsOnto_eq]
  rfl

@[simp] theorem positions_star (b : PositionGraph) (out : Output) :
    (star b out).positions = b.positions := rfl

/-! ### Numbers within bounds -/

/-- The bound is above all numbers that occur. -/
theorem lt_bound {g : PositionGraph} {s : StateId} (h : s ∈ g.ids) : s < g.bound := by
  rw [bound]
  generalize g.ids = ids at h
  induction ids with
  | nil => cases h
  | cons t l ih =>
    rw [List.foldr_cons]
    rcases List.mem_cons.1 h with rfl | h
    · exact Nat.lt_of_lt_of_le (Nat.lt_succ_self s) (Nat.le_max_left _ _)
    · exact Nat.lt_of_lt_of_le (ih h) (Nat.le_max_right _ _)

theorem mem_ids_of_mem_ranges {g : PositionGraph} {s : StateId} {r : Option SymbolClass}
    (h : (s, r) ∈ g.ranges) : s ∈ g.ids := by
  obtain ⟨p, hp, heq⟩ := List.mem_map.1 h
  exact List.mem_map.2 ⟨p, hp, congrArg Prod.fst heq⟩

/-- A state that reads something is below the bound. -/
theorem lt_bound_of_rangeOf? {g : PositionGraph} {s : StateId} {r : SymbolClass}
    (h : g.rangeOf? s = some r) : s < g.bound := by
  have hhead : (Numbered.valuesAt g.ranges s).head? = some (some r) := Option.join_eq_some_iff.1 h
  exact lt_bound (mem_ids_of_mem_ranges (Numbered.mem_valuesAt.1 (List.mem_of_head? hhead)))

/-- From the bound on nothing is read. -/
theorem rangeOf?_eq_none {g : PositionGraph} {s : StateId} (h : g.bound ≤ s) :
    g.rangeOf? s = none := by
  cases hr : g.rangeOf? s with
  | none => rfl
  | some r => exact absurd (lt_bound_of_rangeOf? hr) (Nat.not_lt.2 h)

end PositionGraph

end Transduction
