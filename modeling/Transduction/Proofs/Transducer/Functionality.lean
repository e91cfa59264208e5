import Transduction.Proofs.Transducer.Exploration
import Transduction.Proofs.Transducer.Frontier

/-!
# Machines that pass the check

Evaluation and exploration step together: the frontier lists, in its own order, the members of the
set that the exploration advances. A symbol has a clash for the one exactly when the other does not
advance (`clash?_frontier_eq_none_iff`), and without a clash both hold the same states again
(`perm_members_of_advance`). So evaluation reads a word as far as the sets of the word advance
(`exists_advanceAll_of_advanceWord`).

In a machine without conflicts every evaluation therefore runs through and finds at most one
accepting state (`exists_evaluateWith`). Backtracking cannot fail, since the trellis tracks the
word, and the answer is the output of the accepting computation (`evaluateWith_eq_some_iff`). So a
machine that passes the check, under any limit, answers every word over all symbols, and no word has
two accepting computations.
-/

namespace Transduction.Transducer

variable {m : Transducer}

/-! ### In step -/

/-- The members of the set that is advanced to are the targets of the arrivals. -/
theorem perm_members_of_advance {S T : StateSet} {x : Symbol} (h : m.advance S x = .ok T) :
    T.members.Perm ((m.arrivals S.members x).map (·.target)) := by
  obtain ⟨hnodup, rfl⟩ := advance_eq_ok_iff.1 h
  refine (List.perm_ext_iff_of_nodup (StateSet.nodup_members _) hnodup).2 fun t ↦ ?_
  have hlt : t ∈ (m.arrivals S.members x).map (·.target) → t < m.size := by
    intro ht
    obtain ⟨a, ha, rfl⟩ := List.mem_map.1 ht
    obtain ⟨-, e, he, -, htarget⟩ := mem_arrivals.1 ha
    exact htarget ▸ target_lt_size he
  rw [← StateSet.mem_def, StateSet.mem_ofList]
  exact and_iff_left_of_imp hlt

variable {S T : StateSet} {x : Symbol} {w : List Symbol} {frontier : List StateId}

/-- **The frontier clashes exactly when the set does not advance.** -/
theorem clash?_frontier_eq_none_iff (hperm : frontier.Perm S.members) :
    clash? (m.arrivals frontier x) = none ↔ ∃ T, m.advance S x = .ok T := by
  rw [clash?_eq_none_iff, ((perm_arrivals hperm x).map _).nodup_iff]
  refine ⟨fun hnodup ↦ ?_, fun h ↦ ?_⟩
  · exact ⟨_, advance_eq_ok_iff.2 ⟨hnodup, rfl⟩⟩
  · obtain ⟨T, hT⟩ := h
    exact (advance_eq_ok_iff.1 hT).1

/-- If the frontier holds the members of a set, the next frontier holds those of the next set. -/
theorem perm_frontier_of_advance (hperm : frontier.Perm S.members) (h : m.advance S x = .ok T) :
    ((m.arrivals frontier x).map (·.target)).Perm T.members :=
  ((perm_arrivals hperm x).map _).trans (perm_members_of_advance h).symm

/-- **Evaluation follows the sets of a word**: as long as they advance, the word is read. -/
theorem exists_advanceAll_of_advanceWord (hperm : frontier.Perm S.members)
    (h : m.advanceWord S w = .ok T) (position : Nat) (t : Trellis) :
    ∃ frontier' t', frontier'.Perm T.members ∧
      m.advanceAll position frontier t w = (.ok frontier', t') := by
  induction w generalizing S frontier position t with
  | nil =>
    cases h
    exact ⟨frontier, t, hperm, rfl⟩
  | cons x w ih =>
    obtain ⟨U, hU, hrest⟩ := bind_eq_ok_iff.1 h
    obtain ⟨frontier', t', hperm', hread⟩ :=
      ih (perm_frontier_of_advance hperm hU) hrest (position + 1)
        (t.write position (m.arrivals frontier x))
    refine ⟨frontier', t', hperm', ?_⟩
    rw [advanceAll, (clash?_frontier_eq_none_iff hperm).2 ⟨U, hU⟩]
    exact hread

/-! ### Without conflicts -/

/-- The set can be active, or nothing is active any more. -/
def Active (m : Transducer) (S : StateSet) : Prop := S.members = [] ∨ m.Reachable S

namespace ConflictFree

/-- Over every symbol, what is active advances to what is active. -/
theorem exists_advance (hm : m.ConflictFree) (hS : m.Active S) (x : Symbol) :
    ∃ T, m.advance S x = .ok T ∧ m.Active T := by
  rcases hS with hnil | hreach
  · have hnone : m.arrivals S.members x = [] := by
      rw [hnil]
      rfl
    refine ⟨_, advance_eq_ok_iff.2 ⟨by rw [hnone]; exact .nil, rfl⟩, .inl ?_⟩
    rw [hnone]
    rfl
  · obtain ⟨T, hT⟩ := hm.advance hreach x
    rcases hmembers : T.members with - | ⟨t, l⟩
    · exact ⟨T, hT, .inl hmembers⟩
    · exact ⟨T, hT, .inr (.step hreach hT (by simp [hmembers]))⟩

/-- What is active advances over every word. -/
theorem exists_advanceWord (hm : m.ConflictFree) (hS : m.Active S) (w : List Symbol) :
    ∃ T, m.advanceWord S w = .ok T ∧ m.Active T := by
  induction w generalizing S with
  | nil => exact ⟨S, rfl, hS⟩
  | cons x w ih =>
    obtain ⟨T, hT, hactive⟩ := hm.exists_advance hS x
    obtain ⟨U, hU, hactive'⟩ := ih hactive
    exact ⟨U, bind_eq_ok_iff.2 ⟨T, hT, hU⟩, hactive'⟩

/-- What is active accepts in one place at most. -/
theorem length_accepting_le (hm : m.ConflictFree) (hS : m.Active S)
    (hperm : frontier.Perm S.members) : (m.accepting frontier).length ≤ 1 := by
  have hacc : (m.accepting frontier).Perm (m.accepting S.members) := hperm.filterMap _
  rw [hacc.length_eq]
  rcases hS with hnil | hreach
  · rw [hnil]
    exact Nat.zero_le 1
  · exact checkAcceptance_eq_ok_iff.1 (hm.acceptance hreach)

/-- **A machine without conflicts answers every word**, whatever the trellis holds. -/
theorem exists_evaluateWith (hm : m.ConflictFree) (t : Trellis) (w : List Symbol) :
    ∃ r, (m.evaluateWith t w).1 = .ok r := by
  obtain ⟨S, hadv, hS⟩ := hm.exists_advanceWord (.inr .initial) w
  obtain ⟨frontier, t', hperm, hread⟩ :=
    exists_advanceAll_of_advanceWord (List.Perm.refl [m.initial]) hadv 0 t
  exact exists_evaluateWith_of_advanceAll hread (hm.length_accepting_le hS hperm)

/-- The answer is the output of the accepting computation. -/
theorem evaluateWith_eq_some_iff (hm : m.ConflictFree) (t : Trellis) (w : List Symbol)
    (o : Output) :
    (m.evaluateWith t w).1 = .ok (some o) ↔ ∃ is, m.AcceptingRun w is o := by
  refine ⟨fun h ↦ ?_, fun h ↦ ?_⟩
  · obtain ⟨is, hrun, -⟩ := acceptingRun_of_evaluateWith h
    exact ⟨is, hrun⟩
  · obtain ⟨is, hrun⟩ := h
    obtain ⟨r, hr⟩ := hm.exists_evaluateWith t w
    rcases r with - | p
    · exact absurd hrun (not_acceptingRun_of_evaluateWith hr is o)
    · obtain ⟨js, hrun', hunique⟩ := acceptingRun_of_evaluateWith hr
      obtain rfl := hunique is o hrun
      rw [hr, hrun.output_eq hrun']

/-- There is no answer exactly when there is no accepting computation. -/
theorem evaluateWith_eq_none_iff (hm : m.ConflictFree) (t : Trellis) (w : List Symbol) :
    (m.evaluateWith t w).1 = .ok none ↔ ∀ is o, ¬ m.AcceptingRun w is o := by
  constructor
  · exact not_acceptingRun_of_evaluateWith
  · intro hnone
    obtain ⟨r, hr⟩ := hm.exists_evaluateWith t w
    rcases r with - | p
    · exact hr
    · obtain ⟨is, hrun, -⟩ := acceptingRun_of_evaluateWith hr
      exact absurd hrun (hnone is p)

/-- No word has two accepting computations in a machine without conflicts. -/
theorem acceptingRun_unique (hm : m.ConflictFree) {w : List Symbol} {is js : List Nat}
    {o p : Output} (his : m.AcceptingRun w is o) (hjs : m.AcceptingRun w js p) : is = js := by
  obtain ⟨r, hr⟩ := hm.exists_evaluateWith .empty w
  exact acceptingRun_unique_of_evaluateWith hr his hjs

end ConflictFree

/-- **A machine that passes the check answers every word**, and no word has two accepting
computations. -/
theorem evaluate_ok_and_acceptingRun_unique {limit : Option Nat}
    (h : m.checkFunctionalWithin limit = .ok ()) (w : List Symbol) :
    (∃ r, m.evaluate w = .ok r) ∧
      ∀ is js o p, m.AcceptingRun w is o → m.AcceptingRun w js p → is = js := by
  have hm := conflictFree_of_checkFunctionalWithin h
  refine ⟨hm.exists_evaluateWith .empty w, fun is js o p his hjs ↦ ?_⟩
  exact hm.acceptingRun_unique his hjs

/-- Two states that take turns: one reads any symbol, the other one leaves over the lower half of
the symbols and stays over the upper half. -/
def turns : Transducer :=
  ofRows [
    ([⟨⟨0, 0xFFFFFFFF⟩, 1, ['a']⟩], none),
    ([⟨⟨0, 0x7FFFFFFF⟩, 0, []⟩, ⟨⟨0x80000000, 0xFFFFFFFF⟩, 1, ['b']⟩], some ['.'])]
    0 (by decide) (by decide)

/-- The machine passes the check under a limit that is just enough, and a word with the least and
the greatest symbol of the ranges has an answer and one accepting computation at most. -/
theorem turns_evaluate_ok :
    turns.checkFunctionalWithin (some 2) = .ok () ∧
      (∃ r, turns.evaluate [0, 0x7FFFFFFF, 0xFFFFFFFF, 0xFFFFFFFF] = .ok r) ∧
      ∀ is js o p, turns.AcceptingRun [0, 0x7FFFFFFF, 0xFFFFFFFF, 0xFFFFFFFF] is o →
        turns.AcceptingRun [0, 0x7FFFFFFF, 0xFFFFFFFF, 0xFFFFFFFF] js p → is = js := by
  have hcheck : turns.checkFunctionalWithin (some 2) = .ok () := by decide +kernel
  exact ⟨hcheck, evaluate_ok_and_acceptingRun_unique hcheck _⟩

end Transduction.Transducer
