import Std.Data.TreeSet.Lemmas
import Transduction.Error
import Transduction.Transducer.Matching

/-!
# Functional machines

A machine is functional if every word has at most one computation. `checkFunctional` explores the
sets of states that can be active together after some word, each set once. It fails if two members
of a set accept, or if one symbol leads from a set to one state in two ways.

The symbols that have to be tried from a set are its *boundaries*: between two boundaries, every
member has the same matches. The exploration is depth first, the last set found being expanded
first, and it can be limited to a number of sets.

## Main definitions

* `Transducer.checkAcceptance`, `Transducer.boundaries`, `Transducer.advance`: one set;
* `Transducer.explore`: all sets;
* `Transducer.checkFunctional`, `Transducer.checkFunctionalWithin`: the verdict.
-/

namespace Transduction

/-- The sets that an exploration has found. -/
structure Search where
  /-- All of them. -/
  seen : Std.TreeSet StateSet
  /-- Those that have not been expanded, the last one first. -/
  pending : List StateSet

/-- The search with one more set, unless the set has no member or has been found before. If there is
a limit, it must not have been reached. -/
def Search.discover (limit : Option Nat) (q : Search) (S : StateSet) :
    Except AmbiguityError Search :=
  if S.isEmpty ∨ S ∈ q.seen then .ok q
  else
    match limit with
    | some n =>
      if n ≤ q.seen.size then .error (.explorationLimit n)
      else .ok ⟨q.seen.insert S, S :: q.pending⟩
    | none => .ok ⟨q.seen.insert S, S :: q.pending⟩

namespace Transducer

variable (m : Transducer)

/-! ### One set of states -/

/-- Fails if two members of the set accept. -/
def checkAcceptance (S : StateSet) : Except AmbiguityError Unit :=
  match m.accepting S.members with
  | x :: y :: _ => .error (.acceptance x.1 y.1 x.2 y.2)
  | _ => .ok ()

/-- The symbols at which the matches of some member may change, in ascending order: zero, the least
symbol of each edge, and the symbol after its greatest one. -/
def boundaries (S : StateSet) : List Symbol :=
  Ascending.distinct <| 0 :: S.members.flatMap fun s ↦
    (m.edges s).toList.flatMap fun e ↦ e.range.lower :: e.range.upper.next?.toList

/-- The states that are active after the members of the set have read `x`. Fails if one of them is
entered in two ways. -/
def advance (S : StateSet) (x : Symbol) : Except AmbiguityError StateSet :=
  let arrivals := m.arrivals S.members x
  match clash? arrivals with
  | some (a, b) => .error (.transitions a.source b.source b.target x)
  | none => .ok (StateSet.ofList m.size (arrivals.map (·.target)))

/-- The set of the initial state. -/
def initialSet : StateSet := StateSet.singleton m.size m.initial m.initial_lt

/-! ### All sets of states -/

/-- The search after a set has been expanded: the set is checked, then every boundary is tried. -/
def expand (limit : Option Nat) (S : StateSet) (q : Search) : Except AmbiguityError Search := do
  m.checkAcceptance S
  (m.boundaries S).foldlM (fun q x ↦ do q.discover limit (← m.advance S x)) q

/-- Expands up to `fuel` pending sets. -/
def exploreFrom (limit : Option Nat) : Nat → Search → Except AmbiguityError Search
  | 0, q => .ok q
  | fuel + 1, q =>
    match q.pending with
    | [] => .ok q
    | S :: pending => do exploreFrom limit fuel (← m.expand limit S { q with pending })

/-- All sets of states that can be active together. No set is expanded twice, so there are at most
as many expansions as sets. -/
def explore (limit : Option Nat) : Except AmbiguityError Search :=
  m.exploreFrom limit (Nat.pow 2 m.size) ⟨{m.initialSet}, [m.initialSet]⟩

/-- Succeeds if every word has at most one computation and the exploration finds no more than
`limit` sets. The set of the initial state counts as one of them, and is always allowed. -/
def checkFunctionalWithin (limit : Option Nat) : Except AmbiguityError Unit :=
  (m.explore limit).map fun _ ↦ ()

/-- Succeeds if every word has at most one computation. -/
def checkFunctional : Except AmbiguityError Unit := m.checkFunctionalWithin none

/-! ### Sets made for another machine -/

/-- The outcome of an operation on a set that may have been made for another machine. Members are
taken in ascending order, so an error found among the states of the machine stands; otherwise the
operation has no outcome if some member is not a state of the machine. -/
def onForeign {α : Type} (S : StateSet) (outcome : Except AmbiguityError α) :
    Option (Except AmbiguityError α) :=
  match outcome with
  | .error e => some (.error e)
  | .ok a => if m.Covers S then some (.ok a) else none

end Transducer

end Transduction
