import Mathlib.Logic.Equiv.Fin.Rotate
import Transduction.Proofs.Transducer.Agreement
import Transduction.Proofs.Transducer.Parts
import Transduction.Proofs.Transducer.Skeleton
import Transduction.Transducer.Relabelling

/-!
# Numbers of states cannot be observed

A table and the same table under other numbers are two machines with one skeleton: the states of the
first machine are the states of the skeleton, and the permutation finds them in the second one
(`Relabelled.fits`). So both read a word equally far. They emit the same outputs, since an edge
keeps its output: a computation of the one is a computation of the other through the renamed states,
along other indices (`Relabelled.exists_run`). Hence every word gets the same answer.

The sets that the check explores, their order and the states that it names are not the same. But a
machine passes the check exactly when it answers every word, and the answers agree
(`Relabelled.checkFunctional_eq_ok_iff`).

That a table fits together does not depend on the numbers either (`Parts.Relabels.exists_ofParts?`).
-/

namespace Transduction

/-! ### Permuted numbers -/

section Relabel

variable {n : Nat} {p : Equiv.Perm (Fin n)} {s : StateId}

theorem relabel_of_lt (h : s < n) : relabel p s = p ⟨s, h⟩ := dif_pos h

theorem relabel_of_le (h : n ≤ s) : relabel p s = s := dif_neg (Nat.not_lt.2 h)

theorem relabel_lt (h : s < n) : relabel p s < n := by
  rw [relabel_of_lt h]
  exact (p ⟨s, h⟩).isLt

/-- Every state has a number that is renamed to its own. -/
theorem exists_relabel_eq (p : Equiv.Perm (Fin n)) (h : s < n) : ∃ t < n, relabel p t = s := by
  refine ⟨p.symm ⟨s, h⟩, (p.symm ⟨s, h⟩).isLt, ?_⟩
  rw [relabel_of_lt (p.symm ⟨s, h⟩).isLt, Fin.eta, Equiv.apply_symm_apply]

theorem relabel_injective (p : Equiv.Perm (Fin n)) : (relabel p).Injective := by
  intro s t heq
  rcases Nat.lt_or_ge s n with hs | hs <;> rcases Nat.lt_or_ge t n with ht | ht
  · rw [relabel_of_lt hs, relabel_of_lt ht] at heq
    exact congrArg Fin.val (p.injective (Fin.ext heq))
  · have hlt : relabel p s < n := relabel_lt hs
    rw [heq, relabel_of_le ht] at hlt
    exact absurd ht (Nat.not_le.2 hlt)
  · have hlt : relabel p t < n := relabel_lt ht
    rw [← heq, relabel_of_le hs] at hlt
    exact absurd hs (Nat.not_le.2 hlt)
  · rwa [relabel_of_le hs, relabel_of_le ht] at heq

end Relabel

/-- Answers that agree are outputs alike. -/
theorem SameAnswer.exists_ok_iff {x y : Except EvalError (Option Output)} (h : SameAnswer x y) :
    (∃ r, x = .ok r) ↔ ∃ r, y = .ok r := by
  cases h with
  | ok r => exact Iff.rfl
  | paths | acceptance => simp

namespace Transducer

variable {m m' : Transducer} {ρ : StateId → StateId}

/-! ### Machines under other numbers -/

/-- What a machine is without its outputs, its states being called by their numbers. -/
def skeleton (m : Transducer) : Skeleton StateId where
  initial := m.initial
  edges s := ((m.edges s).toList.map fun e ↦ (e.range, e.target) : List (SymbolRange × StateId))
  accepts s := (m.final? s).isSome

/-- State `s` of the first machine is state `ρ s` of the second one; the edges of a state may stand
in another order. -/
structure Relabelled (m m' : Transducer) (ρ : StateId → StateId) : Prop where
  /-- Different states have different numbers. -/
  injective : ρ.Injective
  /-- Words begin in the same state. -/
  initial : m'.initial = ρ m.initial
  /-- Each state has the same edges, up to their order. -/
  edges : ∀ s, (m'.edges (ρ s)).toList.Perm
    ((m.edges s).toList.map fun e ↦ { e with target := ρ e.target })
  /-- Each state has the same final output. -/
  final?_eq : ∀ s, m'.final? (ρ s) = m.final? s

theorem fits_skeleton (m : Transducer) : m.skeleton.Fits m id where
  injective := Function.injective_id
  initial := rfl
  edges s := by
    rw [Prod.map_id, Multiset.map_id]
    rfl
  accepts _ := rfl

namespace Relabelled

variable (h : m.Relabelled m' ρ)

include h

/-- **The skeleton of a machine fits it under other numbers.** -/
theorem fits : m.skeleton.Fits m' ρ where
  injective := h.injective
  initial := h.initial
  edges s := by
    have hperm := (h.edges s).map fun e : Edge ↦ (e.range, e.target)
    rw [List.map_map] at hperm
    rw [Multiset.coe_eq_coe.2 hperm, skeleton, Multiset.map_coe, List.map_map]
    rfl
  accepts s := congrArg Option.isSome (h.final?_eq s)

/-- **A computation goes through the renamed states**, along other indices, and emits the same. -/
theorem exists_run {s t : StateId} {w : List Symbol} {is : List Nat} {o : Output}
    (hrun : m.Run s w is t o) : ∃ js, m'.Run (ρ s) w js (ρ t) o := by
  induction hrun with
  | nil s => exact ⟨[], .nil (ρ s)⟩
  | @cons s t x w i is e o edge mem _ ih =>
    obtain ⟨js, htail⟩ := ih
    have he : e ∈ (m.edges s).toList := Array.mem_toList_iff.2 (Array.mem_of_getElem? edge)
    have he' := (h.edges s).mem_iff.2 (List.mem_map_of_mem he)
    obtain ⟨j, hj⟩ := Array.getElem?_of_mem (Array.mem_toList_iff.1 he')
    exact ⟨j :: js, .cons (e := { e with target := ρ e.target }) hj mem htail⟩

/-- **An accepting computation goes through the renamed states**, along other indices, with the same
output. -/
theorem exists_acceptingRun {w : List Symbol} {is : List Nat} {o : Output}
    (hrun : m.AcceptingRun w is o) : ∃ js, m'.AcceptingRun w js o := by
  obtain ⟨s, p, f, hrun, hf, ho⟩ := hrun
  obtain ⟨js, hrun'⟩ := h.exists_run hrun
  rw [← h.initial] at hrun'
  exact ⟨js, ρ s, p, f, hrun', (h.final?_eq s).trans hf, ho⟩

/-- **Under other numbers, every word gets the same answer.** -/
theorem sameAnswer (w : List Symbol) : SameAnswer (m.evaluate w) (m'.evaluate w) :=
  m.fits_skeleton.sameAnswer h.fits fun _ _ ↦ h.exists_acceptingRun

/-- Under other numbers, a machine passes the check as before. -/
theorem checkFunctional_eq_ok_iff : m.checkFunctional = .ok () ↔ m'.checkFunctional = .ok () := by
  rw [checkFunctional_eq_ok_iff_evaluate, checkFunctional_eq_ok_iff_evaluate]
  exact forall_congr' fun w ↦ (h.sameAnswer w).exists_ok_iff

end Relabelled

/-! ### Parts under other numbers -/

namespace Parts.Relabels

variable {P P' : Parts} {p : Equiv.Perm (Fin P.edges.length)} (h : P.Relabels P' p)

include h

/-- Parts fit together under any numbers. -/
theorem exists_ofParts? (hm : ofParts? P.edges P.finals P.initial = some m) :
    ∃ m', ofParts? P'.edges P'.finals P'.initial = some m' := by
  obtain ⟨hfinals, hinitial, hedges⟩ := exists_ofParts?_iff.1 ⟨m, hm⟩
  refine exists_ofParts?_iff.2 ⟨?_, ?_, fun es hes e he ↦ ?_⟩
  · rw [h.length_finals, h.length_edges, hfinals]
  · rw [h.initial, h.length_edges]
    exact relabel_lt hinitial
  · obtain ⟨t, ht, rfl⟩ := List.mem_iff_getElem.1 hes
    obtain ⟨s, hs, rfl⟩ := exists_relabel_eq p (h.length_edges ▸ ht)
    rw [← List.getD_eq_getElem _ [] ht, (h.edges s hs).mem_iff] at he
    obtain ⟨d, hd, rfl⟩ := List.mem_map.1 he
    rw [List.getD_eq_getElem _ _ hs] at hd
    obtain ⟨htarget, hrange⟩ := hedges _ (List.getElem_mem hs) d hd
    rw [h.length_edges]
    exact ⟨relabel_lt htarget, hrange⟩

/-- **The machines of a table under two numberings are one machine under two numberings.** -/
theorem relabelled (hm : ofParts? P.edges P.finals P.initial = some m)
    (hm' : ofParts? P'.edges P'.finals P'.initial = some m') :
    m.Relabelled m' (relabel p) where
  injective := relabel_injective p
  initial := by rw [initial_of_ofParts? hm, initial_of_ofParts? hm', h.initial]
  edges s := by
    rw [edges_of_ofParts? hm, edges_of_ofParts? hm']
    rcases Nat.lt_or_ge s P.edges.length with hs | hs
    · -- both machines sort the edges, each by its own numbers
      exact (Ascending.sort_perm _).trans
        ((h.edges s hs).trans ((Ascending.sort_perm _).map _).symm)
    · rw [relabel_of_le hs, List.getD_eq_default _ _ hs,
        List.getD_eq_default _ _ (h.length_edges ▸ hs)]
      exact .nil
  final?_eq s := by
    rw [final?_of_ofParts? hm, final?_of_ofParts? hm']
    rcases Nat.lt_or_ge s P.edges.length with hs | hs
    · exact h.finals s hs
    · have hlength : P.finals.length = P.edges.length := (exists_ofParts?_iff.1 ⟨m, hm⟩).1
      have hs' : P.finals.length ≤ s := hlength ▸ hs
      rw [relabel_of_le hs, List.getD_eq_default _ _ hs',
        List.getD_eq_default _ _ (h.length_finals ▸ hs')]

end Parts.Relabels

/-- **Numbers of states and the order of edges cannot be observed.** A table that fits together does
so under other numbers; every word gets the same output, or the same failure after as many symbols,
and the check passes as before. -/
theorem ofParts?_relabel {P P' : Parts} {p : Equiv.Perm (Fin P.edges.length)}
    (h : P.Relabels P' p) (hm : ofParts? P.edges P.finals P.initial = some m) :
    ∃ m', ofParts? P'.edges P'.finals P'.initial = some m' ∧
      (∀ w, SameAnswer (m.evaluate w) (m'.evaluate w)) ∧
      (m.checkFunctional = .ok () ↔ m'.checkFunctional = .ok ()) := by
  obtain ⟨m', hm'⟩ := h.exists_ofParts? hm
  have hrelabelled := h.relabelled hm hm'
  exact ⟨m', hm', hrelabelled.sameAnswer, hrelabelled.checkFunctional_eq_ok_iff⟩

/-- The parts of the diamond in which no state in the middle accepts. -/
def diamondParts : Parts where
  edges := [[⟨⟨97, 97⟩, 1, ['x']⟩, ⟨⟨97, 98⟩, 2, ['y']⟩], [⟨⟨99, 99⟩, 3, []⟩],
    [⟨⟨98, 100⟩, 3, []⟩], []]
  finals := [none, none, none, some []]
  initial := 0

/-- The same diamond, each state having the next number and the last one the first, with the edges
of the initial state exchanged. -/
def rotatedParts : Parts where
  edges := [[], [⟨⟨97, 98⟩, 3, ['y']⟩, ⟨⟨97, 97⟩, 2, ['x']⟩], [⟨⟨99, 99⟩, 0, []⟩],
    [⟨⟨98, 100⟩, 0, []⟩]]
  finals := [some [], none, none, none]
  initial := 1

/-- A rotation of the four states, with the edges of the initial state exchanged. -/
theorem diamond_relabel :
    diamondParts.Relabels rotatedParts (finRotate 4) ∧
      ofParts? diamondParts.edges diamondParts.finals diamondParts.initial =
        some (diamond false) ∧
      ∃ m', ofParts? rotatedParts.edges rotatedParts.finals rotatedParts.initial = some m' ∧
        (∀ w, SameAnswer ((diamond false).evaluate w) (m'.evaluate w)) ∧
        ((diamond false).checkFunctional = .ok () ↔ m'.checkFunctional = .ok ()) := by
  have hrelabels : diamondParts.Relabels rotatedParts (finRotate 4) :=
    ⟨rfl, rfl, by decide +kernel, by decide +kernel, by decide +kernel⟩
  have hparts : ofParts? diamondParts.edges diamondParts.finals diamondParts.initial =
      some (diamond false) := by decide +kernel
  exact ⟨hrelabels, hparts, ofParts?_relabel hrelabels hparts⟩

end Transducer

end Transduction
