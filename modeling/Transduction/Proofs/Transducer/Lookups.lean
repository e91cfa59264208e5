import Transduction.Proofs.PositionGraph.Slots
import Transduction.Proofs.Transducer.Buffers
import Transduction.Proofs.Transducer.Exactness
import Transduction.Transducer.Lookups

/-!
# No defect is met

The place where binary search ends is in the list of edges or at its end, so every edge that a
search looks at is there (`matching?_eq`), and an evaluation with every edge looked up is the one
that takes the edges as they are (`evaluateChecked_eq`). That one always answers, and its answer is
not that the way back is broken, since no computation says so (`evaluate_ne_brokenBacktrack`).

Together with the slots of a graph, nothing from an expression to an answer is looked up where there
is nothing (`lookups_suffice`).
-/

namespace Transduction

namespace Transducer

variable {m : Transducer} {s : StateId} {x : Symbol}

/-- No edge is missing where the search looks. -/
theorem matchingBelow?_eq {edges : Array Edge} {n : Nat} (h : n ≤ edges.size) :
    matchingBelow? edges x n = some (matchingBelow edges x n) := by
  induction n with
  | zero => rfl
  | succ i ih =>
    have hi : i < edges.size := h
    rw [matchingBelow?, matchingBelow, ih (Nat.le_of_lt h), Array.getElem?_eq_getElem hi]
    rfl

/-- **Every edge that is looked at is there.** -/
theorem matching?_eq (hs : s < m.size) (x : Symbol) : m.matching? s x = some (m.matching s x) := by
  have hlt : s < m.states.size := hs
  rw [matching?, matching, edges, Array.getElem?_eq_getElem hlt]
  exact matchingBelow?_eq (partitionPoint_le_size ..)

/-- There is no row to search beyond the states. -/
theorem matching?_eq_none (hs : ¬ s < m.size) (x : Symbol) : m.matching? s x = none := by
  rw [matching?, Array.getElem?_eq_none (Nat.not_lt.1 hs)]
  rfl

/-- No look-up misses while the arrivals of a symbol are recorded. -/
theorem recordChecked_eq (m : Transducer) (position : Nat) (x : Symbol) (b : Buffers)
    (sources : List StateId) :
    m.recordChecked position x b sources = m.recordFrom position x b sources := by
  induction sources generalizing b with
  | nil => rfl
  | cons s sources ih =>
    rw [recordChecked, recordFrom]
    by_cases hs : s < m.size
    · simp only [if_pos hs, matching?_eq hs, arrivals_singleton, ih]
      rfl
    · rw [if_neg hs, matching?_eq_none hs]
      rfl

/-- No look-up misses while a word is read. -/
theorem readChecked_eq (m : Transducer) (position : Nat) (b : Buffers) (w : List Symbol) :
    m.readChecked position b w = m.readAll position b w := by
  induction w generalizing position b with
  | nil => rfl
  | cons x w ih =>
    rw [readChecked, readAll, recordChecked_eq]
    refine Option.bind_congr fun r _ ↦ ?_
    rcases r with ⟨e | ⟨⟩, b⟩
    · rfl
    · dsimp only
      rw [ih]

/-- **Looking every edge up changes nothing.** -/
theorem evaluateChecked_eq (m : Transducer) (b : Buffers) (w : List Symbol) :
    m.evaluateChecked b w = m.evaluateOn b w := by
  rw [evaluateChecked, evaluateOn]
  refine Option.bind_congr fun b _ ↦ ?_
  exact congrArg₂ Option.bind (m.readChecked_eq 0 _ w) rfl

/-- **The way back is never broken.** -/
theorem evaluate_ne_brokenBacktrack (m : Transducer) (w : List Symbol) (s : StateId) :
    m.evaluate w ≠ .error (.brokenBacktrack s) := by
  intro heval
  have hdescribes := m.describes_evaluateWith .empty w
  rw [← evaluate, heval] at hdescribes
  exact hdescribes

end Transducer

/-- **No defect is met from an expression to an answer.** When an expression is numbered, from any
number on, the graph is laid out without a missing slot, in whatever order its tables are listed.
Whatever the memory holds, an evaluation needs no cell, no state and no edge outside of their
tables, and does not find the way back broken. -/
theorem lookups_suffice :
    (∀ (e : Expr) (n n' : StateId) (g : PositionGraph) (L : Listing),
      (PositionGraph.build e).runFrom n = (.ok g, n') →
        g.partsBy? L = some (Transducer.ofGraph g).parts) ∧
    ∀ (m : Transducer) (b : Buffers) (w : List Symbol),
      (∃ b', m.evaluateChecked b w = some (m.evaluate w, b')) ∧
        ∀ s, m.evaluate w ≠ .error (.brokenBacktrack s) := by
  refine ⟨fun e n n' g L h ↦ PositionGraph.partsBy?_eq (PositionGraph.coherent_of_build h) L,
    fun m b w ↦ ⟨?_, m.evaluate_ne_brokenBacktrack w⟩⟩
  rw [m.evaluateChecked_eq]
  exact m.evaluateOn_eq b .empty w

/-- Every table listed from the back, and memory left by another machine. -/
theorem nested_lookups : ∃ g n, (PositionGraph.build Expr.nested).runFrom 0 = (.ok g, n) ∧
    g.partsBy? .backward = some Expr.nestedMachine.parts ∧
    ∃ b, Expr.nestedMachine.evaluateChecked ⟨1, #[some .seed], #[7], #[]⟩ [97] =
      some (.ok (some ['x', 'z']), b) := by
  have hparts := lookups_suffice.1 Expr.nested 0 _ _ .backward rfl
  obtain ⟨b, hb⟩ := (lookups_suffice.2 Expr.nestedMachine ⟨1, #[some .seed], #[7], #[]⟩ [97]).1
  have heval : Expr.nestedMachine.evaluate [97] = .ok (some ['x', 'z']) := by decide +kernel
  exact ⟨_, _, rfl, hparts.trans (by decide +kernel), b, heval ▸ hb⟩

end Transduction
