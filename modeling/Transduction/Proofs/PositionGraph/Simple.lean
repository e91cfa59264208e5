import Mathlib.Data.List.Chain
import Mathlib.Data.List.ProdSigma
import Transduction.Proofs.PositionGraph.Numbering
import Transduction.Proofs.PositionGraph.Rounds

/-!
# Simple graphs

A graph is **simple** if no state is passed to from another in two ways. Unions and concatenations
keep their sides apart, so they are simple when their sides are (`simple_union_iff`,
`simple_concat_iff`). A star is simple when its body is and no passage of the body leads from a last
state to a first one (`simple_star_iff`): the star has a passage of its own there, and the two would
be taken over the same symbols.

Neighbours in a trace are joined by passages, its first state is a first state and its last one a
last state (`Trace.isChain`, `Trace.mem_first`, `Trace.mem_last`). In a simple star the states of a
word therefore tell where a round ends (`Trace.length_le_of_simple`).
-/

namespace Transduction

/-- The state that is left and the state that is entered. -/
def Passage.ends (q : Passage) : StateId × StateId := (q.1, q.2.1)

/-- The ends of the passages from some exits to some entries are all the pairs of these. -/
theorem Boundary.map_ends_passages (exits entries : Boundary) :
    (exits.passages entries).map Passage.ends =
      (exits.map (·.1)).product (entries.map (·.1)) := by
  show _ = (exits.map (·.1)).flatMap fun s ↦ (entries.map (·.1)).map (Prod.mk s)
  rw [passages, List.map_flatMap, List.flatMap_map]
  refine List.flatMap_congr fun x _ ↦ ?_
  rw [List.map_map, List.map_map]
  rfl

namespace PositionGraph

variable {g l r b : PositionGraph} {s t : StateId} {u v w : List Symbol}
  {ss ts su sv : List StateId} {o p q out : Output}

/-! ### Simple graphs, node by node -/

/-- The ends of the passages of a graph, as often as there are passages between them. -/
def arrows (g : PositionGraph) : List (StateId × StateId) := g.follow.map Passage.ends

/-- No state is passed to from another in two ways. -/
def Simple (g : PositionGraph) : Prop := g.arrows.Nodup

/-- An arrow is a passage without its output. -/
theorem mem_arrows : (s, t) ∈ g.arrows ↔ ∃ o, (s, t, o) ∈ g.follow := by
  rw [arrows, List.mem_map]
  refine ⟨fun h ↦ ?_, fun h ↦ ?_⟩
  · obtain ⟨⟨s', t', o⟩, hq, hends⟩ := h
    cases hends
    exact ⟨o, hq⟩
  · obtain ⟨o, hq⟩ := h
    exact ⟨(s, t, o), hq, rfl⟩

theorem mem_ids_of_mem_arrows {a : StateId × StateId} (h : a ∈ g.arrows) :
    a.1 ∈ g.ids ∧ a.2 ∈ g.ids := by
  obtain ⟨o, hq⟩ := mem_arrows.1 h
  exact mem_ids_of_mem_follow hq

theorem arrows_union (l r : PositionGraph) (out : Output) :
    (union l r out).arrows = l.arrows ++ r.arrows := by
  rw [arrows, follow_union, List.map_append]
  rfl

/-- The arrows of a concatenation: from each end of the left side to each beginning of the right
one, and those of both sides. -/
theorem arrows_concat (l r : PositionGraph) (out : Output) :
    (concat l r out).arrows =
      (l.last.map (·.1)).product (r.first.map (·.1)) ++ (l.arrows ++ r.arrows) := by
  rw [arrows, follow_concat, List.map_append, Boundary.map_ends_passages, List.map_append]
  rfl

/-- The arrows of a star: from each end of the body to each beginning, and those of the body. -/
theorem arrows_star (b : PositionGraph) (out : Output) :
    (star b out).arrows = (b.last.map (·.1)).product (b.first.map (·.1)) ++ b.arrows := by
  rw [arrows, follow_star, List.map_append, Boundary.map_ends_passages]
  rfl

theorem arrows_emit (s : Output) (g : PositionGraph) : (g.emit s).arrows = g.arrows := by
  rw [arrows, emit_follow]
  rfl

theorem simple_position (p : Position) : (position p).Simple := List.nodup_nil

theorem simple_emit_iff : (g.emit out).Simple ↔ g.Simple := by
  rw [Simple, arrows_emit]
  rfl

/-- A union is simple if both branches are. -/
theorem simple_union_iff (hdisj : l.ids.Disjoint r.ids) :
    (union l r out).Simple ↔ l.Simple ∧ r.Simple := by
  have hsides : l.arrows.Disjoint r.arrows := fun a hl hr ↦
    hdisj (mem_ids_of_mem_arrows hl).1 (mem_ids_of_mem_arrows hr).1
  rw [Simple, arrows_union, List.nodup_append']
  exact ⟨fun h ↦ ⟨h.1, h.2.1⟩, fun h ↦ ⟨h.1, h.2, hsides⟩⟩

/-- A concatenation is simple if both sides are: what joins them is new. -/
theorem simple_concat_iff (hl : l.ids.Nodup) (hr : r.ids.Nodup) (hdisj : l.ids.Disjoint r.ids) :
    (concat l r out).Simple ↔ l.Simple ∧ r.Simple := by
  have hproduct : ((l.last.map (·.1)).product (r.first.map (·.1))).Nodup :=
    (nodup_last hl).product (nodup_first hr)
  -- the passages in between leave the left side and enter the right side
  have hbetween : ((l.last.map (·.1)).product (r.first.map (·.1))).Disjoint
      (union l r out).arrows := by
    rintro ⟨s, t⟩ hst harrow
    obtain ⟨hs, ht⟩ := List.pair_mem_product.1 hst
    have hs := ((map_fst_last_sublist l).trans (readers_sublist_ids l)).subset hs
    have ht := ((map_fst_first_sublist r).trans (readers_sublist_ids r)).subset ht
    obtain ⟨o, hq⟩ := mem_arrows.1 harrow
    rw [follow_union, List.mem_append] at hq
    rcases hq with hq | hq
    · exact hdisj (mem_ids_of_mem_follow hq).2 ht
    · exact hdisj hs (mem_ids_of_mem_follow hq).1
  have hunion : (union l r out).Simple ↔ l.Simple ∧ r.Simple := simple_union_iff hdisj
  rw [← hunion, Simple, arrows_concat, ← arrows_union l r out, List.nodup_append']
  exact ⟨fun h ↦ h.2.1, fun h ↦ ⟨hproduct, h, hbetween⟩⟩

/-- **A star is simple if its body is and has no passage already from an end to a beginning.** -/
theorem simple_star_iff (hb : b.ids.Nodup) :
    (star b out).Simple ↔ b.Simple ∧
      ∀ {s t a c}, (s, a) ∈ b.last → (t, c) ∈ b.first → ∀ o, (s, t, o) ∉ b.follow := by
  have hproduct : ((b.last.map (·.1)).product (b.first.map (·.1))).Nodup :=
    (nodup_last hb).product (nodup_first hb)
  rw [Simple, arrows_star, List.nodup_append']
  refine ⟨fun h ↦ ?_, fun h ↦ ?_⟩
  · obtain ⟨-, hsimple, hbetween⟩ := h
    refine ⟨hsimple, fun {s t a c} hs ht o hq ↦ ?_⟩
    have hst : (s, t) ∈ (b.last.map (·.1)).product (b.first.map (·.1)) :=
      List.pair_mem_product.2 ⟨List.mem_map.2 ⟨_, hs, rfl⟩, List.mem_map.2 ⟨_, ht, rfl⟩⟩
    exact hbetween hst (mem_arrows.2 ⟨o, hq⟩)
  · obtain ⟨hsimple, hbetween⟩ := h
    refine ⟨hproduct, hsimple, ?_⟩
    rintro ⟨s, t⟩ hst harrow
    obtain ⟨hs, ht⟩ := List.pair_mem_product.1 hst
    obtain ⟨x, hlast, rfl⟩ := List.mem_map.1 hs
    obtain ⟨y, hfirst, rfl⟩ := List.mem_map.1 ht
    obtain ⟨o, hq⟩ := mem_arrows.1 harrow
    exact hbetween hlast hfirst o hq

/-- A chain of positions is simple. -/
theorem simple_chain {y : Position} {before : List Position} (h : (chain y before).Coherent) :
    (chain y before).Simple := by
  induction before generalizing y with
  | nil => exact simple_position y
  | cons z before ih =>
    rw [chain] at h ⊢
    exact (simple_concat_iff h.1.nodup_ids h.2.1.nodup_ids h.2.2).2 ⟨ih h.1, simple_position y⟩

/-! ### Neighbours in a trace -/

/-- The states that are gone through follow each other. -/
theorem Leaves.isChain (h : g.Leaves s w ss o) :
    (s :: ss).IsChain fun s t ↦ ∃ o, (s, t, o) ∈ g.follow := by
  induction h with
  | last => exact List.isChain_singleton _
  | pass hpass _ _ ih => exact List.isChain_cons_cons.2 ⟨⟨_, hpass⟩, ih⟩

/-- Neighbours in a trace are joined by a passage. -/
theorem Trace.isChain (h : g.Trace w ss o) :
    ss.IsChain fun s t ↦ ∃ o, (s, t, o) ∈ g.follow := by
  obtain ⟨-, -, hrest⟩ := h
  exact hrest.isChain

/-- The state that is left from is a last one. -/
theorem Leaves.mem_last (h : g.Leaves s w ss o) (hend : s :: ss = ts ++ [t]) :
    ∃ a, (t, a) ∈ g.last := by
  induction h generalizing ts with
  | last hlast =>
    obtain ⟨-, hst⟩ := List.append_inj' (show [] ++ [_] = ts ++ [t] from hend) rfl
    cases hst
    exact ⟨_, hlast⟩
  | pass _ _ _ ih =>
    rcases ts with - | ⟨s', ts⟩
    · cases hend
    · exact ih (List.cons.inj hend).2

/-- The last state of a trace is a last state. -/
theorem Trace.mem_last (h : g.Trace w (ss ++ [s]) o) : ∃ a, (s, a) ∈ g.last := by
  generalize hend : ss ++ [s] = ts at h
  obtain ⟨-, -, hrest⟩ := h
  exact hrest.mem_last hend.symm

/-- The first state of a trace is a first state. -/
theorem Trace.mem_first (h : g.Trace w (s :: ss) o) : ∃ a, (s, a) ∈ g.first := by
  obtain ⟨hfirst, -, -⟩ := h
  exact ⟨_, hfirst⟩

/-- The first state of some rounds is a first state of the body. -/
theorem Rounds.mem_first (h : b.Rounds w (s :: ss) o) : ∃ a, (s, a) ∈ b.first := by
  have hreading : (star b []).Reading w (s :: ss) (o ++ []) := reading_star_iff.2 ⟨o, h, rfl⟩
  rcases hreading with - | htrace
  exact htrace.mem_first

/-! ### The end of a round -/

/-- **In a simple star, a round ends where the states say**: a round that other rounds follow
cannot be continued to a longer one. -/
theorem Trace.length_le_of_simple (hb : b.ids.Nodup)
    (hsimple : (PositionGraph.star b out).Simple)
    (hu : b.Trace u su p) (hrest : b.Rounds w ss o) (hv : b.Trace v sv q)
    (heq : su ++ ss = sv ++ ts) : sv.length ≤ su.length := by
  by_contra hlt
  obtain ⟨as, hsv, hss⟩ | ⟨bs, hsu, -⟩ := List.append_eq_append_iff.1 heq
  · rcases as with - | ⟨t, as⟩
    · rw [hsv, List.append_nil] at hlt
      exact hlt (Nat.le_refl _)
    -- the shorter round ends in `s`, and the next one begins in `t`
    obtain hnil | ⟨zs, s, hsu⟩ := List.eq_nil_or_concat su
    · have hlength := hu.length_eq
      rw [hnil] at hlength
      exact hu.ne_nil (List.length_eq_zero_iff.1 hlength.symm)
    rw [List.concat_eq_append] at hsu
    rw [hsu] at hu hsv
    rw [hss] at hrest
    obtain ⟨a, hlast⟩ := hu.mem_last
    obtain ⟨c, hfirst⟩ := hrest.mem_first
    -- the longer round passes from `s` to `t` inside the body
    have hchain := hv.isChain
    rw [hsv, List.append_assoc, List.singleton_append] at hchain
    obtain ⟨-, ⟨o, hpass⟩, -⟩ := List.isChain_append_cons_cons.1 hchain
    exact ((simple_star_iff hb).1 hsimple).2 hlast hfirst o hpass
  · rw [hsu, List.length_append] at hlt
    omega

end PositionGraph

end Transduction
