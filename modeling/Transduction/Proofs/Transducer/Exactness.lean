import Transduction.Proofs.Transducer.Frontier
import Transduction.Transducer.Answer

/-!
# Answers are exact

An evaluation that fails while the word is read stops at the first symbol over which its frontier
clashes (`advanceAll_eq_error_cases`). Up to that symbol the word has been tracked, part by part
(`not_reachesTwice_of_advanceAll`), so no state was reached twice before; and the two arrivals that
clash continue two computations that are tracked (`exists_entersFrom_of_clash?`). Hence the position
of the failure is the first one at which some state is reached twice.

Together with what an evaluation answers at the end of a word this describes every answer
(`evaluate_describes`): a trellis that does not lead back is never met, and a word with two
accepting computations always fails.
-/

namespace Transduction.Transducer

variable {m : Transducer} {frontier frontier' : List StateId} {t t' : Trellis} {u v w : List Symbol}
  {x : Symbol} {s : StateId} {e : EvalError} {position : Nat}

/-! ### Reading in parts -/

/-- A word is read part by part. -/
theorem advanceAll_append (position : Nat) (frontier : List StateId) (t : Trellis)
    (u v : List Symbol) :
    m.advanceAll position frontier t (u ++ v) =
      match m.advanceAll position frontier t u with
      | (.ok frontier', t') => m.advanceAll (position + u.length) frontier' t' v
      | (.error e, t') => (.error e, t') := by
  induction u generalizing position frontier t with
  | nil => rfl
  | cons x u ih =>
    rw [List.cons_append, advanceAll, advanceAll]
    rcases clash? (m.arrivals frontier x) with - | ⟨a, b⟩
    · dsimp only
      rw [ih, List.length_cons, Nat.add_right_comm, Nat.add_assoc]
    · rfl

/-- A clash ends the reading of a word, whatever comes after it. -/
theorem advanceAll_cons_of_clash? {a b : Arrival}
    (h : clash? (m.arrivals frontier x) = some (a, b)) :
    m.advanceAll position frontier t (x :: v) =
      (.error (.paths (position + 1) b.target a.source b.source), t) := by
  rw [advanceAll, h]

/-- **Reading fails at the first symbol over which the frontier clashes.** -/
theorem advanceAll_eq_error_cases
    (h : m.advanceAll position frontier t w = (.error e, t')) :
    ∃ u x v frontier' a b, w = u ++ x :: v ∧
      m.advanceAll position frontier t u = (.ok frontier', t') ∧
      clash? (m.arrivals frontier' x) = some (a, b) ∧
      e = .paths (position + u.length + 1) b.target a.source b.source := by
  induction w generalizing position frontier t with
  | nil => cases h
  | cons x w ih =>
    rcases hclash : clash? (m.arrivals frontier x) with - | ⟨a, b⟩
    · rw [advanceAll, hclash] at h
      obtain ⟨u, y, v, frontier', a, b, rfl, hread, hclash', rfl⟩ := ih h
      refine ⟨x :: u, y, v, frontier', a, b, rfl, ?_, hclash', ?_⟩
      · rw [advanceAll, hclash]
        exact hread
      · rw [List.length_cons, Nat.add_right_comm position, Nat.add_assoc position]
    · rw [advanceAll_cons_of_clash? hclash] at h
      cases h
      exact ⟨[], x, w, frontier, a, b, rfl, rfl, hclash, rfl⟩

/-! ### Computations that meet -/

/-- As long as evaluation goes on, no state has been reached in two ways. -/
theorem Tracks.not_reachesTwice (h : m.Tracks u frontier t) : ¬ m.ReachesTwice u s := by
  rintro ⟨is, js, o, p, his, hjs, hne⟩
  exact hne (h.unique his hjs)

/-- A state of the frontier has been reached in one way. -/
theorem Tracks.reachesOnce (h : m.Tracks u frontier t) (hs : s ∈ frontier) :
    m.ReachesOnce u s := by
  obtain ⟨is, o, hrun⟩ := h.mem_iff.1 hs
  exact ⟨is, o, hrun, fun js p hjs ↦ h.unique hjs hrun⟩

/-- **While a word is read, no state is reached twice**, after any part of it. -/
theorem not_reachesTwice_of_advanceAll
    (h : m.advanceAll 0 [m.initial] t u = (.ok frontier, t')) (n : Nat) (s : StateId) :
    ¬ m.ReachesTwice (u.take n) s := by
  rw [← List.take_append_drop n u, advanceAll_append] at h
  rcases hread : m.advanceAll 0 [m.initial] t (u.take n) with ⟨e | frontier', t''⟩
  · rw [hread] at h
    cases h
  · have htracks : m.Tracks (u.take n) frontier' t'' := (Tracks.initial m t).advanceAll hread
    exact htracks.not_reachesTwice

/-- A computation that enters a state leads there. -/
theorem EntersFrom.exists_run {is : List Nat} {s t : StateId} (h : m.EntersFrom w is s t) :
    ∃ o, m.Run m.initial w is t o := by
  obtain ⟨u, x, js, i, o, e, rfl, rfl, hrun, he, hx, rfl⟩ := h
  exact ⟨o ++ e.out, hrun.snoc he hx⟩

/-- An arrival continues the computation to its source. -/
theorem Tracks.exists_entersFrom (h : m.Tracks u frontier t) {a : Arrival}
    (ha : a ∈ m.arrivals frontier x) :
    ∃ js, m.EntersFrom (u ++ [x]) (js ++ [a.index]) a.source a.target := by
  obtain ⟨hs, e, he, hx, htarget⟩ := mem_arrivals.1 ha
  obtain ⟨js, o, hrun⟩ := h.mem_iff.1 hs
  exact ⟨js, u, x, js, a.index, o, e, rfl, rfl, hrun, he, hx, htarget⟩

/-- **A clash is two computations into one state**, along the two arrivals. -/
theorem Tracks.exists_entersFrom_of_clash? (h : m.Tracks u frontier t) {a b : Arrival}
    (hclash : clash? (m.arrivals frontier x) = some (a, b)) :
    ∃ is js, is ≠ js ∧ m.EntersFrom (u ++ [x]) is a.source b.target ∧
      m.EntersFrom (u ++ [x]) js b.source b.target := by
  obtain ⟨hsub, htarget⟩ := sublist_of_clash? hclash
  obtain ⟨is, his⟩ := h.exists_entersFrom (hsub.subset List.mem_cons_self)
  obtain ⟨js, hjs⟩ := h.exists_entersFrom (hsub.subset (List.mem_cons_of_mem a List.mem_cons_self))
  refine ⟨is ++ [a.index], js ++ [b.index], fun heq ↦ ?_, htarget ▸ his, hjs⟩
  -- computations with the same indices would arrive from one state by one edge
  obtain ⟨u₁, x₁, is₁, i, o, e, hu, hi, hrun, -⟩ := his
  obtain ⟨u₂, x₂, js₁, j, p, f, hu', hj, hrun', -⟩ := hjs
  obtain ⟨rfl, -⟩ := List.append_inj' hu rfl
  obtain ⟨rfl, -⟩ := List.append_inj' hu' rfl
  obtain ⟨rfl, -⟩ := List.append_inj' (hi.symm.trans (heq.trans hj)) rfl
  have hsource : a.source = b.source := (hrun.eq_of_indices hrun').1
  have hindex : a.index = b.index := (List.cons.inj (List.append_inj' heq rfl).2).1
  have hne : a ≠ b :=
    List.rel_of_pairwise_cons ((nodup_arrivals h.nodup x).sublist hsub) List.mem_cons_self
  exact Arrival.edge_ne hne htarget (Prod.ext hsource hindex)

/-! ### Answers -/

/-- A failure while the word is read is described by the first two computations that meet. -/
theorem describes_of_advanceAll
    (h : m.advanceAll 0 [m.initial] t w = (.error e, t')) : m.Describes w (.error e) := by
  obtain ⟨u, x, v, frontier, a, b, rfl, hread, hclash, rfl⟩ := advanceAll_eq_error_cases h
  have htracks : m.Tracks u frontier t' := (Tracks.initial m t).advanceAll hread
  obtain ⟨is, js, hne, his, hjs⟩ := htracks.exists_entersFrom_of_clash? hclash
  obtain ⟨o, hrun⟩ := his.exists_run
  obtain ⟨p, hrun'⟩ := hjs.exists_run
  have htake : (u ++ x :: v).take (0 + u.length + 1) = u ++ [x] := by
    rw [Nat.zero_add, List.take_append, List.take_of_length_le (Nat.le_succ _),
      Nat.add_sub_cancel_left]
    rfl
  refine ⟨?_, ?_, fun n hn s ↦ ?_, ?_⟩
  · rw [List.length_append, List.length_cons]
    omega
  · rw [htake]
    exact ⟨is, js, o, p, hrun, hrun', hne⟩
  · -- a shorter start is read without a clash, so it reaches no state twice
    rw [List.take_append_of_le_length (by omega)]
    exact not_reachesTwice_of_advanceAll hread n s
  · rw [htake]
    exact ⟨is, js, hne, his, hjs⟩

/-- **Every answer means what it says**, whatever is left in the trellis. -/
theorem describes_evaluateWith (m : Transducer) (t : Trellis) (w : List Symbol) :
    m.Describes w (m.evaluateWith t w).1 := by
  rcases hr : (m.evaluateWith t w).1 with e | - | o
  · rcases hread : m.advanceAll 0 [m.initial] t w with ⟨e' | frontier, t'⟩
    · obtain rfl : e' = e :=
        Except.error.inj ((evaluateWith_eq_error_of_advanceAll hread).symm.trans hr)
      exact describes_of_advanceAll hread
    · have htracks : m.Tracks w frontier t' := (Tracks.initial m t).advanceAll hread
      rcases evaluateWith_of_advanceAll hread with
        ⟨-, heval⟩ | ⟨s, f, is, p, -, -, heval⟩ | ⟨⟨s, f⟩, ⟨s', f'⟩, l, hacc, heval⟩
      · cases heval.symm.trans hr
      · cases heval.symm.trans hr
      · obtain rfl : EvalError.acceptance s s' = e := Except.error.inj (heval.symm.trans hr)
        obtain ⟨hs, hf⟩ := mem_accepting.1 (hacc ▸ List.mem_cons_self)
        obtain ⟨hs', hf'⟩ :=
          mem_accepting.1 (hacc ▸ List.mem_cons_of_mem _ List.mem_cons_self)
        -- the frontier has no state twice, so two entries are two states
        have hsub : [(s, f), (s', f')].Sublist (m.accepting frontier) :=
          hacc ▸ ((List.nil_sublist l).cons_cons _).cons_cons _
        have hne : s ≠ s' :=
          List.rel_of_pairwise_cons (htracks.nodup.sublist (sublist_of_sublist_accepting hsub))
            List.mem_cons_self
        exact ⟨hne, Option.isSome_of_eq_some hf, Option.isSome_of_eq_some hf',
          htracks.reachesOnce hs, htracks.reachesOnce hs'⟩
  · exact not_acceptingRun_of_evaluateWith hr
  · exact acceptingRun_of_evaluateWith hr

/-- **An evaluation answers what the computations over the word say**, and a word with two accepting
computations is refused. -/
theorem evaluate_describes (m : Transducer) (w : List Symbol) :
    m.Describes w (m.evaluate w) ∧
      ∀ is js o p, m.AcceptingRun w is o → m.AcceptingRun w js p → is ≠ js →
        ∃ e, m.evaluate w = .error e := by
  refine ⟨m.describes_evaluateWith .empty w, fun is js o p his hjs hne ↦ ?_⟩
  rcases hr : m.evaluate w with e | r
  · exact ⟨e, rfl⟩
  · exact absurd (acceptingRun_unique_of_evaluateWith hr his hjs) hne

/-- Both edges of the initial state lead to the second state over `a`, and to no other. -/
def twins : Transducer :=
  ofRows [
    ([⟨⟨97, 98⟩, 1, ['x']⟩, ⟨⟨97, 97⟩, 1, ['y']⟩], none),
    ([⟨⟨97, 98⟩, 0, []⟩], some [])]
    0 (by decide) (by decide)

/-- Two edges to one state over the first symbol: evaluation stops there, though the word goes on,
and each edge gives a computation of its own. -/
theorem twins_describes :
    (twins.Describes [97, 97, 98] (twins.evaluate [97, 97, 98]) ∧
      twins.evaluate [97, 97, 98] = .error (.paths 1 1 0 0)) ∧
      twins.AcceptingRun [97] [0] ['x'] ∧ twins.AcceptingRun [97] [1] ['y'] ∧
      ∃ e, twins.evaluate [97] = .error e := by
  have hfirst : twins.AcceptingRun [97] [0] ['x'] :=
    ⟨1, ['x'], [], .cons (e := ⟨⟨97, 98⟩, 1, ['x']⟩) rfl (by decide) (.nil 1), rfl, rfl⟩
  have hsecond : twins.AcceptingRun [97] [1] ['y'] :=
    ⟨1, ['y'], [], .cons (e := ⟨⟨97, 97⟩, 1, ['y']⟩) rfl (by decide) (.nil 1), rfl, rfl⟩
  refine ⟨⟨(evaluate_describes twins _).1, by decide +kernel⟩, hfirst, hsecond, ?_⟩
  exact (evaluate_describes twins _).2 [0] [1] _ _ hfirst hsecond (by decide)

end Transduction.Transducer
