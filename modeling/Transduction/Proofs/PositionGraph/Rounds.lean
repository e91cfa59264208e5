import Transduction.Proofs.PositionGraph.Reading

/-!
# Rounds of a star

A star reads a word in rounds, each of which is a trace of its body (`reading_star_iff`). Rounds
that read nothing do not show: no passage is taken for them, and the body of a coherent star emits
nothing on the empty word.
-/

namespace Transduction.PositionGraph

/-- A word is read by the body in rounds that read something, the outputs joined. -/
inductive Rounds (b : PositionGraph) : List Symbol → List StateId → Output → Prop
  /-- No round. -/
  | nil : Rounds b [] [] []
  /-- One round, then the rest. -/
  | cons {u v : List Symbol} {su sv : List StateId} {p q : Output} (head : b.Trace u su p)
      (tail : Rounds b v sv q) : Rounds b (u ++ v) (su ++ sv) (p ++ q)

variable {b : PositionGraph} {s : StateId} {u v w : List Symbol} {su sv ss : List StateId}
  {o p q out : Output}

/-- A round is followed by whatever the star reads from its last states on. -/
theorem Leaves.star_append (h : b.Leaves s u su p)
    (hend : ∀ t e, (t, e) ∈ b.last → (star b out).Leaves t v sv (e ++ q)) :
    (star b out).Leaves s (u ++ v) (su ++ sv) (p ++ q) := by
  induction h with
  | last hlast => exact hend _ _ hlast
  | pass hpass hreads _ ih =>
    rw [List.append_assoc]
    refine .pass ?_ hreads ih
    rw [follow_star]
    exact List.mem_append_right _ hpass

/-- The body is left towards the next round, or together with the star. -/
theorem leaves_star_iff :
    (star b out).Leaves s w ss o ↔ ∃ u v su sv p q, w = u ++ v ∧ ss = su ++ sv ∧
      o = p ++ q ++ out ∧ b.Leaves s u su p ∧ b.Rounds v sv q := by
  refine ⟨fun hleaves ↦ ?_, fun h ↦ ?_⟩
  · induction hleaves with
    | last hlast =>
      rw [last, Boundary.mem_after] at hlast
      obtain ⟨p, hp, rfl⟩ := hlast
      exact ⟨[], [], [], [], p, [], rfl, rfl, by rw [List.append_nil], .last hp, .nil⟩
    | @pass s t x w ss o p hpass hreads hrest ih =>
      obtain ⟨u, v, su, sv, p', q, rfl, rfl, rfl, hbody, hrounds⟩ := ih
      rw [follow_star, List.mem_append] at hpass
      rcases hpass with hpass | hpass
      · -- a round ends here, and the next one begins with `x`
        obtain ⟨p₁, a, hlast, hfirst, rfl⟩ := Boundary.mem_passages.1 hpass
        refine ⟨[], _, [], _, p₁, a ++ p' ++ q, rfl, rfl, ?_, .last hlast,
          .cons (.enter hfirst hreads hbody) hrounds⟩
        simp only [List.append_assoc]
      · refine ⟨x :: u, v, t :: su, sv, o ++ p', q, rfl, rfl, ?_, .pass hpass hreads hbody,
          hrounds⟩
        simp only [List.append_assoc]
  · obtain ⟨u, v, su, sv, p, q, rfl, rfl, rfl, hbody, hrounds⟩ := h
    rw [List.append_assoc]
    induction hrounds generalizing s u su p with
    | nil =>
      refine hbody.star_append fun t e hlast ↦ .last ?_
      exact Boundary.mem_after.2 ⟨e, hlast, rfl⟩
    | @cons u' v su' sv p' q head _ ih =>
      obtain @⟨t, x, w, ss, a, o, hfirst, hreads, hrest⟩ := head
      refine hbody.star_append fun t' e hlast ↦ ?_
      -- the round that ends in `t'` is followed by the one that begins in `t`
      have hpass : (t', t, e ++ a) ∈ (star b out).follow := by
        rw [follow_star]
        exact List.mem_append_left _ (Boundary.mem_passages.2 ⟨e, a, hlast, hfirst, rfl⟩)
      have houtput : e ++ (a ++ o ++ q ++ out) = e ++ a ++ (o ++ (q ++ out)) := by
        simp only [List.append_assoc]
      rw [houtput]
      exact .pass hpass hreads (ih _ _ _ hrest)

/-- **A star reads its body in rounds.** -/
theorem reading_star_iff :
    (star b out).Reading w ss o ↔ ∃ p, b.Rounds w ss p ∧ o = p ++ out := by
  refine ⟨fun h ↦ ?_, fun h ↦ ?_⟩
  · rcases h with hempty | htrace
    · exact ⟨[], .nil, (Option.some.inj hempty).symm⟩
    · obtain @⟨s, x, w, ss, a, o, hfirst, hreads, hrest⟩ := htrace
      obtain ⟨u, v, su, sv, p, q, rfl, rfl, rfl, hbody, hrounds⟩ := leaves_star_iff.1 hrest
      have head : b.Trace (x :: u) (s :: su) (a ++ p) := .enter (g := b) hfirst hreads hbody
      refine ⟨_, .cons head hrounds, ?_⟩
      simp only [List.append_assoc]
  · obtain ⟨p, hrounds, rfl⟩ := h
    rcases hrounds with - | ⟨head, tail⟩
    · exact .empty rfl
    · obtain @⟨s, x, w, ss, a, o, hfirst, hreads, hrest⟩ := head
      rw [List.append_assoc, List.append_assoc, ← List.append_assoc o]
      exact .trace (.enter hfirst hreads
        (leaves_star_iff.2 ⟨_, _, _, _, o, _, rfl, rfl, rfl, hrest, tail⟩))

/-- A trace is one round. -/
theorem Rounds.single (h : b.Trace w ss p) : b.Rounds w ss p := by
  simpa using Rounds.cons h .nil

/-- A round is a trace of the star. -/
theorem Trace.star (h : b.Trace w ss p) : (PositionGraph.star b out).Trace w ss (p ++ out) :=
  (reading_star_iff.2 ⟨p, .single h, rfl⟩).trace_of_ne_nil h.ne_nil

end Transduction.PositionGraph
