import Transduction.PositionGraph.History
import Transduction.Proofs.PositionGraph.Numbering

/-!
# No number is given twice

Numbering an expression never lowers the next free number, and raises it by the number of
occurrences at most, even where it fails midway (`takesAtMost_build`); a graph takes all the numbers
in between, each once (`ids_of_build`). So the graphs of expressions that are numbered in turn lie
in intervals that follow each other, with gaps where an expression has failed, and no two of them
share a number (`disjoint_stateIds_of_stop_le`).

Inside a graph it is coherence that keeps numbers apart, node by node (`Coherent.separate`), and the
stack finds the numbers of its positions from left to right (`stateIds_eq_ids`).
-/

namespace Transduction

namespace Numbering

variable {α β : Type} {x : Numbering α} {f : α → Numbering β} {c d : Nat}

/-- A computation that has its outcome whatever the next free number is, and leaves the number. -/
theorem takesAtMost_of_runFrom {outcome : Except CompileError α}
    (h : ∀ next, x.runFrom next = (outcome, next)) (c : Nat) : x.TakesAtMost c := fun next ↦ by
  rw [h]
  exact ⟨Nat.le_refl next, Nat.le_add_right next c⟩

theorem takesAtMost_take (c : Nat) : (take c).TakesAtMost c := fun next ↦
  ⟨Nat.le_add_right next c, Nat.le_refl _⟩

/-- One computation after another takes what both of them take; if the first one fails, only what it
has taken. -/
theorem TakesAtMost.bind (hx : x.TakesAtMost c) (hf : ∀ a, (f a).TakesAtMost d) :
    (x >>= f).TakesAtMost (c + d) := by
  intro next
  rw [run_bind]
  obtain ⟨hle, hge⟩ := hx next
  rcases hrun : x.runFrom next with ⟨e | a, k⟩
  all_goals rw [hrun] at hle hge
  · show next ≤ k ∧ k ≤ next + (c + d)
    exact ⟨hle, Nat.le_trans hge (Nat.add_le_add_left (Nat.le_add_right c d) next)⟩
  · show next ≤ ((f a).runFrom k).2 ∧ ((f a).runFrom k).2 ≤ next + (c + d)
    obtain ⟨hle', hge'⟩ := hf a k
    exact ⟨Nat.le_trans hle hle',
      Nat.le_trans hge' (Nat.add_assoc next c d ▸ Nat.add_le_add_right hge d)⟩

end Numbering

namespace PositionGraph

open Transduction.Numbering

variable {g : PositionGraph} {n : StateId} {es : List Expr} {a b : Attempt}

/-! ### One expression -/

/-- **The next free number never falls**, and grows by the number of occurrences at most. -/
theorem takesAtMost_build (e : Expr) : (build e).TakesAtMost e.occurrences := by
  induction e with
  | union l r ihl ihr =>
    exact ihl.bind fun gl ↦ ihr.bind fun gr ↦ takesAtMost_of_runFrom (fun _ ↦ rfl) 0
  | concat l r ihl ihr =>
    exact ihl.bind fun gl ↦ ihr.bind fun gr ↦ takesAtMost_of_runFrom (fun _ ↦ rfl) 0
  | star b ih =>
    exact ih.bind fun gb ↦ takesAtMost_of_runFrom (fun _ ↦ rfl) 0
  | literal word out =>
    exact (takesAtMost_take _).bind fun _ ↦ takesAtMost_of_runFrom (fun _ ↦ rfl) 0
  | range s out =>
    by_cases hs : s.IsEmpty
    · exact takesAtMost_of_runFrom (build_range_of_isEmpty hs out) 1
    · rw [build, dif_neg hs]
      exact (takesAtMost_take 1).bind fun _ ↦ takesAtMost_of_runFrom (fun _ ↦ rfl) 0
  | emit b out ih =>
    exact ih.bind fun gb ↦ takesAtMost_of_runFrom (fun _ ↦ rfl) 0
  | var name =>
    exact takesAtMost_of_runFrom (build_var name) 0

/-! ### Inside a graph -/

/-- **The stack finds every node**, each before its sides and from left to right. -/
theorem walk_eq_flatMap (stack : List PositionGraph) : walk stack = stack.flatMap nodes := by
  fun_induction walk stack with
  | case1 => rfl
  | case2 p stack ih => rw [ih, List.flatMap_cons, nodes, List.singleton_append]
  | case3 l r out stack ih =>
    rw [ih, List.flatMap_cons, List.flatMap_cons, List.flatMap_cons, nodes, List.cons_append,
      List.append_assoc]
  | case4 l r out stack ih =>
    rw [ih, List.flatMap_cons, List.flatMap_cons, List.flatMap_cons, nodes, List.cons_append,
      List.append_assoc]
  | case5 b out stack ih => rw [ih, List.flatMap_cons, List.flatMap_cons, nodes, List.cons_append]

/-- The numbers of the nodes that are positions stand from left to right. -/
theorem filterMap_nodes (g : PositionGraph) : g.nodes.filterMap stateId? = g.ids := by
  induction g with
  | position p => rfl
  | union l r out ihl ihr =>
    rw [nodes, List.filterMap_cons_none rfl, List.filterMap_append, ihl, ihr, ids_union]
  | concat l r out ihl ihr =>
    rw [nodes, List.filterMap_cons_none rfl, List.filterMap_append, ihl, ihr, ids_concat]
  | star b out ih => rw [nodes, List.filterMap_cons_none rfl, ih, ids_star]

/-- **The stack finds the numbers from left to right.** -/
theorem stateIds_eq_ids (g : PositionGraph) : g.stateIds = g.ids := by
  rw [stateIds, walk_eq_flatMap, List.flatMap_singleton, filterMap_nodes]

/-- Every node of a coherent graph is coherent. -/
theorem Coherent.of_mem_nodes (h : g.Coherent) : ∀ q ∈ g.nodes, q.Coherent := by
  induction g with
  | position p => exact List.forall_mem_singleton.2 h
  | union l r out ihl ihr =>
    rw [nodes, List.forall_mem_cons, List.forall_mem_append]
    exact ⟨h, ihl h.1, ihr h.2.1⟩
  | concat l r out ihl ihr =>
    rw [nodes, List.forall_mem_cons, List.forall_mem_append]
    exact ⟨h, ihl h.1, ihr h.2.1⟩
  | star b out ih =>
    rw [nodes, List.forall_mem_cons]
    exact ⟨h, ih h.1⟩

/-- **Coherence keeps the numbers of a graph apart.** -/
theorem Coherent.separate (h : g.Coherent) : g.Separate where
  union := by
    rintro l r out rfl
    rw [stateIds_eq_ids, stateIds_eq_ids]
    exact fun s hl hr ↦ h.2.2.1 hl hr
  concat := by
    rintro l r out rfl
    rw [stateIds_eq_ids, stateIds_eq_ids]
    exact fun s hl hr ↦ h.2.2 hl hr
  first := nodup_first h.nodup_ids
  last := nodup_last h.nodup_ids

/-! ### Expressions in turn -/

/-- What is done with each expression is what numbering it from its start does. -/
theorem build_of_mem_attempts (h : a ∈ attempts n es) :
    (build a.expr).runFrom a.start = (a.outcome, a.stop) := by
  induction es generalizing n with
  | nil => exact absurd h List.not_mem_nil
  | cons e es ih =>
    rw [attempts] at h
    rcases List.mem_cons.1 h with rfl | h
    · rfl
    · exact ih h

/-- Each expression, whatever becomes of it, leaves the next free number where it was or raises it,
by the number of its occurrences at most. -/
theorem stop_of_mem_attempts (h : a ∈ attempts n es) :
    a.start ≤ a.stop ∧ a.stop ≤ a.start + a.expr.occurrences := by
  have htakes := takesAtMost_build a.expr a.start
  rwa [build_of_mem_attempts h] at htakes

/-- No expression begins below the first free number. -/
theorem le_start_of_mem_attempts (h : a ∈ attempts n es) : n ≤ a.start := by
  induction es generalizing n with
  | nil => exact absurd h List.not_mem_nil
  | cons e es ih =>
    rw [attempts] at h
    rcases List.mem_cons.1 h with rfl | h
    · exact Nat.le_refl n
    · exact Nat.le_trans (takesAtMost_build e n).1 (ih h)

/-- Each expression begins where those before it have ended, or later. -/
theorem pairwise_attempts (n : StateId) (es : List Expr) :
    (attempts n es).Pairwise fun a b ↦ a.stop ≤ b.start := by
  induction es generalizing n with
  | nil => exact .nil
  | cons e es ih =>
    rw [attempts]
    exact List.pairwise_cons.2 ⟨fun b hb ↦ le_start_of_mem_attempts hb, ih _⟩

/-- A graph that is begun after another one has ended shares no number with it. -/
theorem disjoint_stateIds_of_stop_le {gl gr : PositionGraph}
    (hl : (build a.expr).runFrom a.start = (.ok gl, a.stop))
    (hr : (build b.expr).runFrom b.start = (.ok gr, b.stop)) (hle : a.stop ≤ b.start) :
    gl.stateIds.Disjoint gr.stateIds := by
  obtain ⟨hidsl, hstop⟩ := ids_of_build hl
  obtain ⟨hidsr, -⟩ := ids_of_build hr
  rw [stateIds_eq_ids, stateIds_eq_ids, hidsl, hidsr]
  intro s hsl hsr
  have hlt : s < a.start + a.expr.occurrences := (List.mem_range'_1.1 hsl).2
  have hge : b.start ≤ s := (List.mem_range'_1.1 hsr).1
  exact absurd (Nat.lt_of_lt_of_le hlt (hstop ▸ hle)) (Nat.not_lt.2 hge)

/-- **No number is given twice by an unending counter**, however many expressions are numbered in
turn. An expression that has a graph takes the numbers from its start on, from left to right, one
for each occurrence, and the sides of each node of the graph share none; one that has no graph takes
no more than that. The numbers of all graphs are apart. -/
theorem attempts_separate (n : StateId) (es : List Expr) :
    (∀ a ∈ attempts n es,
      (∀ g, a.outcome = .ok g → a.stop = a.start + a.expr.occurrences ∧
        g.stateIds = List.range' a.start a.expr.occurrences ∧ ∀ q ∈ g.nodes, q.Separate) ∧
      (∀ e, a.outcome = .error e →
        a.start ≤ a.stop ∧ a.stop ≤ a.start + a.expr.occurrences)) ∧
    (attempts n es).Pairwise fun a b ↦ a.stop ≤ b.start ∧
      ∀ g g', a.outcome = .ok g → b.outcome = .ok g' → g.stateIds.Disjoint g'.stateIds := by
  constructor
  · intro a ha
    refine ⟨fun g hg ↦ ?_, fun _ _ ↦ stop_of_mem_attempts ha⟩
    have hbuild := build_of_mem_attempts ha
    rw [hg] at hbuild
    obtain ⟨hids, hstop⟩ := ids_of_build hbuild
    have hcoherent := coherent_of_build hbuild
    rw [stateIds_eq_ids]
    exact ⟨hstop, hids, fun q hq ↦ (hcoherent.of_mem_nodes q hq).separate⟩
  · refine (pairwise_attempts n es).imp_of_mem fun {a b} ha hb hle ↦ ⟨hle, fun g g' hg hg' ↦ ?_⟩
    have hbuild := build_of_mem_attempts ha
    have hbuild' := build_of_mem_attempts hb
    rw [hg] at hbuild
    rw [hg'] at hbuild'
    -- the later graph starts where the earlier one stopped, or behind it
    exact disjoint_stateIds_of_stop_le hbuild hbuild' hle

end PositionGraph

end Transduction
