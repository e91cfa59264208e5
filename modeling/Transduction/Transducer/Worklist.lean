import Transduction.Transducer.Functional

/-!
# The exploration action by action

An exploration cut into single actions: a pending set is taken off and checked, one symbol is tried
from the set that is being expanded, or the expansion of a set is over. Nothing bounds the number of
actions; the exploration is over when no action is left. The sets that are taken off the pending
list and put onto it are recorded on the way, so that the record is there also after a failure in
the middle of an expansion.

## Main definitions

* `Worklist`: an exploration between two of its actions;
* `Transducer.act?`: the next action;
* `Transducer.Works`: what is met from the beginning on.
-/

namespace Transduction

/-- The sets by which the pending list has grown from one search to a later one. -/
def Search.pushes (q q' : Search) : List StateSet :=
  q'.pending.take (q'.pending.length - q.pending.length)

/-- What an exploration is about to do. -/
inductive Worklist.Stage where
  /-- To take a pending set off. -/
  | idle
  /-- To try some symbols, one after the other, from a set that has been taken off. -/
  | trying (S : StateSet) (symbols : List Symbol)
  /-- Nothing more. -/
  | failed (e : AmbiguityError)

/-- An exploration between two of its actions. -/
structure Worklist where
  /-- What has been found. -/
  search : Search
  /-- What is done next. -/
  stage : Worklist.Stage
  /-- The sets that have been taken off the pending list, the last one first. -/
  popped : List StateSet
  /-- The sets that have been put onto the pending list, the last one first. -/
  pushed : List StateSet

/-- The verdict, if no action is left. -/
def Worklist.verdict (W : Worklist) : Except AmbiguityError Unit :=
  match W.stage with
  | .failed e => .error e
  | .idle | .trying .. => .ok ()

/-- Before the first action, the set of the initial state is pending. -/
def Worklist.initial (m : Transducer) : Worklist where
  search := ⟨{m.initialSet}, [m.initialSet]⟩
  stage := .idle
  popped := []
  pushed := [m.initialSet]

namespace Transducer

/-- What is done next with a set that has been taken off: it is expanded, unless two of its members
accept. -/
def opening (m : Transducer) (S : StateSet) : Worklist.Stage :=
  match m.checkAcceptance S with
  | .error e => .failed e
  | .ok () => .trying S (m.boundaries S)

/-- The exploration after its next action; none if no action is left. -/
def act? (m : Transducer) (limit : Option Nat) (W : Worklist) : Option Worklist :=
  match W.stage with
  | .failed _ => none
  | .idle =>
    match W.search.pending with
    | [] => none
    | S :: pending =>
      some { W with
        search := { W.search with pending }
        stage := m.opening S
        popped := S :: W.popped }
  | .trying _ [] => some { W with stage := .idle }
  | .trying S (x :: xs) =>
    match (do W.search.discover limit (← m.advance S x) : Except AmbiguityError Search) with
    | .error e => some { W with stage := .failed e }
    | .ok q =>
      some { W with
        search := q
        stage := .trying S xs
        pushed := W.search.pushes q ++ W.pushed }

/-- Some number of actions leads from the beginning to the exploration. -/
inductive Works (m : Transducer) (limit : Option Nat) : Worklist → Prop
  /-- No action. -/
  | initial : Works m limit (.initial m)
  /-- One more action. -/
  | act {W W' : Worklist} (works : Works m limit W) (act : m.act? limit W = some W') :
    Works m limit W'

end Transducer

end Transduction
