import Transduction.Proofs.Transducer.Exactness
import Transduction.Proofs.Transducer.Functionality

/-!
# Words that show an ambiguity

A set that can be active is the set of some word (`Reachable.exists_advanceWord`), and evaluation
follows the sets of a word step by step (`exists_advanceAll_of_advanceWord`). Where the next set
does not advance, the frontier clashes, so evaluation fails there, whatever comes after.

The check reports what it finds in a set that can be active, before it looks at any set behind it:
two members that accept, or else two ways into one state. The word of the set shows the same to an
evaluation (`exists_exhibits_of_checkFunctional`). The members of a set are taken in ascending
order, hence so are the states that a report names; an evaluation may name them in another order, or
name other states that clash over the same symbol.
-/

namespace Transduction.Transducer

variable {m : Transducer} {S T : StateSet} {frontier : List StateId} {u v w : List Symbol}
  {x : Symbol} {e : AmbiguityError}

/-! ### The set of a word -/

/-- A word is gone through part by part. -/
theorem advanceWord_append (m : Transducer) (S : StateSet) (u v : List Symbol) :
    m.advanceWord S (u ++ v) = m.advanceWord S u >>= fun T ↦ m.advanceWord T v := by
  induction u generalizing S with
  | nil => rfl
  | cons x u ih =>
    rw [List.cons_append, advanceWord, advanceWord]
    rcases m.advance S x with e | T
    · rfl
    · exact ih T

/-- **A set that can be active is the set of some word.** -/
theorem Reachable.exists_advanceWord (h : m.Reachable S) :
    ∃ w, m.advanceWord m.initialSet w = .ok S := by
  induction h with
  | initial => exact ⟨[], rfl⟩
  | @step S T x _ hadv _ ih =>
    obtain ⟨w, hw⟩ := ih
    refine ⟨w ++ [x], ?_⟩
    rw [advanceWord_append, hw]
    show m.advanceWord S [x] = .ok T
    exact bind_eq_ok_iff.2 ⟨T, hadv, rfl⟩

/-- The members of the set of a word are reached over it. -/
theorem reaches_of_advanceWord (h : m.advanceWord m.initialSet w = .ok S) {s : StateId}
    (hs : s ∈ S) : m.Reaches w s := by
  obtain ⟨frontier, t, hperm, hread⟩ :=
    exists_advanceAll_of_advanceWord (List.Perm.refl [m.initial]) h 0 .empty
  have htracks : m.Tracks w frontier t := (Tracks.initial m .empty).advanceAll hread
  exact htracks.mem_iff.1 (hperm.mem_iff.2 hs)

/-! ### What a set shows, evaluation shows -/

/-- If one member of the set at most accepts, the word is answered. -/
theorem exists_evaluate_eq_ok (h : m.advanceWord m.initialSet w = .ok S)
    (hacc : m.checkAcceptance S = .ok ()) : ∃ r, m.evaluate w = .ok r := by
  obtain ⟨frontier, t, hperm, hread⟩ :=
    exists_advanceAll_of_advanceWord (List.Perm.refl [m.initial]) h 0 .empty
  have hle : (m.accepting frontier).length ≤ 1 :=
    (hperm.filterMap _).length_eq.trans_le (checkAcceptance_eq_ok_iff.1 hacc)
  exact exists_evaluateWith_of_advanceAll hread hle

/-- If two members of the set accept, evaluation finds two accepting states. -/
theorem exists_evaluate_eq_acceptance (h : m.advanceWord m.initialSet w = .ok S)
    (hacc : m.checkAcceptance S = .error e) :
    ∃ s t, m.evaluate w = .error (.acceptance s t) := by
  obtain ⟨frontier, t, hperm, hread⟩ :=
    exists_advanceAll_of_advanceWord (List.Perm.refl [m.initial]) h 0 .empty
  obtain ⟨_, _, _, _, -, hsub⟩ := sublist_of_checkAcceptance hacc
  have hle : 2 ≤ (m.accepting frontier).length :=
    hsub.length_le.trans_eq (hperm.filterMap _).length_eq.symm
  rcases evaluateWith_of_advanceAll hread with
    ⟨hnone, -⟩ | ⟨s, f, is, p, hone, -⟩ | ⟨a, b, l, -, heval⟩
  · rw [hnone] at hle
    cases hle
  · rw [hone] at hle
    simp at hle
  · exact ⟨a.1, b.1, heval⟩

/-- If the set does not advance over a symbol, evaluation finds two ways into one state after that
symbol, whatever follows it. -/
theorem exists_evaluate_eq_paths (h : m.advanceWord m.initialSet w = .ok S)
    (hadv : m.advance S x = .error e) (v : List Symbol) :
    ∃ target s t, m.evaluate (w ++ [x] ++ v) = .error (.paths (w.length + 1) target s t) := by
  obtain ⟨frontier, t, hperm, hread⟩ :=
    exists_advanceAll_of_advanceWord (List.Perm.refl [m.initial]) h 0 .empty
  rcases hclash : clash? (m.arrivals frontier x) with - | ⟨a, b⟩
  · obtain ⟨T, hT⟩ := (clash?_frontier_eq_none_iff hperm).1 hclash
    cases hT.symm.trans hadv
  · have hread' : m.advanceAll 0 [m.initial] .empty (w ++ [x] ++ v) =
        (.error (.paths (w.length + 1) b.target a.source b.source), t) := by
      rw [List.append_assoc, List.singleton_append, advanceAll_append, hread]
      dsimp only
      rw [advanceAll_cons_of_clash? hclash, Nat.zero_add]
    exact ⟨b.target, a.source, b.source, evaluateWith_eq_error_of_advanceAll hread'⟩

/-! ### Reports -/

/-- Arrivals are listed in the order of their sources. -/
theorem pairwise_source_arrivals {sources : List StateId} (h : sources.Pairwise (· < ·))
    (x : Symbol) : (m.arrivals sources x).Pairwise fun a b ↦ a.source ≤ b.source := by
  have hsource : ∀ s, ∀ a ∈ (m.matching s x).map fun e ↦ (⟨s, e.2, e.1.target⟩ : Arrival),
      a.source = s := by
    intro s a ha
    obtain ⟨e, -, rfl⟩ := List.mem_map.1 ha
    rfl
  refine List.pairwise_flatMap.2 ⟨fun s _ ↦ ?_, h.imp fun {s t} hst a ha b hb ↦ ?_⟩
  · refine List.pairwise_of_forall_mem_list fun a ha b hb ↦ ?_
    rw [hsource s a ha, hsource s b hb]
  · rw [hsource s a ha, hsource t b hb]
    exact Nat.le_of_lt hst

/-- What a failed advance names: two members, in their order, with two edges that lead to one
state. -/
theorem leads_of_advance_error (h : m.advance S x = .error e) :
    ∃ s s' t i j, e = .transitions s s' t x ∧ s ∈ S ∧ s' ∈ S ∧ s ≤ s' ∧ (s, i) ≠ (s', j) ∧
      m.Leads x s i t ∧ m.Leads x s' j t := by
  obtain ⟨a, b, rfl, hsub, hne, htarget⟩ := arrivals_of_advance_error h
  obtain ⟨hs, hleads⟩ := mem_arrivals.1 (hsub.subset List.mem_cons_self)
  obtain ⟨hs', hleads'⟩ :=
    mem_arrivals.1 (hsub.subset (List.mem_cons_of_mem a List.mem_cons_self))
  have hle : a.source ≤ b.source :=
    List.rel_of_pairwise_cons ((pairwise_source_arrivals S.ascending x).sublist hsub)
      List.mem_cons_self
  exact ⟨a.source, b.source, b.target, a.index, b.index, rfl, hs, hs', hle,
    Arrival.edge_ne hne htarget, htarget ▸ hleads, hleads'⟩

/-- The word of a set in which two members accept shows it. -/
theorem exhibits_of_checkAcceptance (h : m.advanceWord m.initialSet w = .ok S)
    (hacc : m.checkAcceptance S = .error e) : m.Exhibits w e := by
  obtain ⟨s, t, f, g, rfl, hlt, ⟨hs, hf⟩, ht, hg⟩ := members_of_checkAcceptance hacc
  exact ⟨hlt, reaches_of_advanceWord h hs, reaches_of_advanceWord h ht, hf, hg,
    exists_evaluate_eq_acceptance h hacc⟩

/-- The word of a set that does not advance over a symbol shows it. -/
theorem exhibits_of_advance (h : m.advanceWord m.initialSet w = .ok S)
    (hacc : m.checkAcceptance S = .ok ()) (hadv : m.advance S x = .error e) :
    m.Exhibits w e := by
  obtain ⟨s, t, target, i, j, rfl, hs, ht, hle, hne, ⟨d, hd, hx, hdtarget⟩,
    ⟨f, hf, hx', hftarget⟩⟩ := leads_of_advance_error hadv
  exact ⟨hle, exists_evaluate_eq_ok h hacc, reaches_of_advanceWord h hs,
    reaches_of_advanceWord h ht, ⟨i, j, d, f, hne, hd, hx, hdtarget, hf, hx', hftarget⟩,
    exists_evaluate_eq_paths h hadv⟩

/-- **Whatever the check reports, some word shows.** -/
theorem exists_exhibits_of_checkFunctional (h : m.checkFunctional = .error e) :
    ∃ w, m.Exhibits w e := by
  obtain ⟨S, hS, hconflict⟩ := exists_conflict_of_checkFunctional h
  obtain ⟨w, hw⟩ := hS.exists_advanceWord
  rcases hconflict with hacc | ⟨hacc, x, hadv⟩
  · exact ⟨w, exhibits_of_checkAcceptance hw hacc⟩
  · exact ⟨w, exhibits_of_advance hw hacc hadv⟩

/-- The initial state leads to two states over `a`, which both lead to the last one over `c`; both
of them accept if `accepts` holds. -/
def diamond (accepts : Bool) : Transducer :=
  let final? := if accepts then some ['.'] else none
  ofRows [
    ([⟨⟨97, 97⟩, 1, ['x']⟩, ⟨⟨97, 98⟩, 2, ['y']⟩], none),
    ([⟨⟨99, 99⟩, 3, []⟩], final?),
    ([⟨⟨98, 100⟩, 3, []⟩], final?),
    ([], some [])]
    0 (Nat.zero_lt_succ _) (by cases accepts <;> decide)

/-- Both kinds of failure: in the first diamond both ways lead into the last state, in the second
one both states in the middle accept. -/
theorem diamond_exhibits :
    ((diamond false).checkFunctional = .error (.transitions 1 2 3 99) ∧
        ∃ w, (diamond false).Exhibits w (.transitions 1 2 3 99)) ∧
      (diamond true).checkFunctional = .error (.acceptance 1 2 ['.'] ['.']) ∧
        ∃ w, (diamond true).Exhibits w (.acceptance 1 2 ['.'] ['.']) := by
  have htransitions : (diamond false).checkFunctional = .error (.transitions 1 2 3 99) := by
    decide +kernel
  have hacceptance : (diamond true).checkFunctional = .error (.acceptance 1 2 ['.'] ['.']) := by
    decide +kernel
  exact ⟨⟨htransitions, exists_exhibits_of_checkFunctional htransitions⟩, hacceptance,
    exists_exhibits_of_checkFunctional hacceptance⟩

end Transduction.Transducer
