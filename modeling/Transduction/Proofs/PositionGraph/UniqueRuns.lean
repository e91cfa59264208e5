import Transduction.Proofs.PositionGraph.Runs
import Transduction.Proofs.PositionGraph.Unambiguity
import Transduction.Proofs.Transducer.Completeness

/-!
# Unique computations and unambiguous graphs

In the machine of a graph, a state has one edge into another for each passage between the two, and
the initial state has one into each first state (`perm_targets_ofGraph`,
`perm_targets_ofGraph_initial`). So the graph is simple exactly when no state of the machine has two
edges to one state, and then a computation is determined by the states that it enters
(`Run.indices_eq_of_entered_eq`).

Every state with an edge can be reached, and every edge leads to a live state
(`exists_run_of_mem_edges`, `live_target_ofGraph`). Two edges that lead from one state to another
read the same symbols, so they are taken by two accepting computations over one word. Hence every
word has one accepting computation at most exactly when the graph is unambiguous
(`acceptingRun_unique_iff_unambiguous`), and this is what the check decides
(`conflictFree_ofGraph_iff`).
-/

namespace Transduction

/-! ### Machines without parallel edges -/

namespace Transducer

/-- No state has two edges to one state. -/
def Simple (m : Transducer) : Prop := ∀ s, ((m.edges s).toList.map (·.target)).Nodup

variable {m : Transducer} {s t u : StateId} {v w : List Symbol} {is js : List Nat} {o p : Output}

/-- A machine is simple if no state has two edges to one target. -/
theorem simple_iff : m.Simple ↔ ∀ {s : StateId} {i j : Nat} {e f : Edge},
    (m.edges s)[i]? = some e → (m.edges s)[j]? = some f → e.target = f.target → i = j := by
  constructor
  · intro hm s i j e f he hf htarget
    rw [← Array.getElem?_toList] at he hf
    obtain ⟨hi, -⟩ := List.getElem?_eq_some_iff.1 he
    refine (List.getElem?_inj (by rwa [List.length_map]) (hm s)).1 ?_
    rw [List.getElem?_map, List.getElem?_map, he, hf, Option.map_some, Option.map_some, htarget]
  · intro h s
    refine List.nodup_iff_getElem?_ne_getElem?.2 fun i j hij hj heq ↦ ?_
    rw [List.length_map, Array.length_toList] at hj
    have he := Array.getElem?_eq_getElem (Nat.lt_trans hij hj)
    have hf := Array.getElem?_eq_getElem hj
    rw [List.getElem?_map, List.getElem?_map, Array.getElem?_toList, Array.getElem?_toList, he,
      hf] at heq
    exact Nat.ne_of_lt hij (h he hf (Option.some.inj heq))

/-- **Without parallel edges, the states that are entered determine the edges taken.** -/
theorem Run.indices_eq_of_entered_eq (hm : m.Simple) (h : m.Run s w is t o)
    (k : m.Run s v js u p) (heq : m.entered s is = m.entered s js) : is = js := by
  induction h generalizing v js u p with
  | nil s =>
    rcases k with - | ⟨edge, -, -⟩
    · rfl
    · rw [entered_cons edge] at heq
      cases heq
  | cons edge _ _ ih =>
    rw [entered_cons edge] at heq
    cases k with
    | nil => exact absurd heq (List.cons_ne_nil _ _)
    | cons edge' _ tail' =>
      rw [entered_cons edge'] at heq
      obtain ⟨htarget, hrest⟩ := List.cons.inj heq
      obtain rfl := simple_iff.1 hm edge edge' htarget
      obtain rfl := Option.some.inj (edge.symm.trans edge')
      rw [ih tail' hrest]

end Transducer

namespace PositionGraph

open Transducer

variable {g : PositionGraph} {s t : StateId} {w : List Symbol} {o : Output} {e : Edge}

/-! ### The targets of edges -/

/-- Every target that reads something has its edge, in its place. -/
theorem map_target_edgesTo {targets : Boundary}
    (h : ∀ x ∈ targets, ∃ c, g.rangeOf? x.1 = some c) :
    (edgesTo g.rangeOf? targets).map (·.target) = targets.map (·.1) := by
  induction targets with
  | nil => rfl
  | cons x targets ih =>
    obtain ⟨⟨c, hc⟩, htail⟩ := List.forall_mem_cons.1 h
    have hrest := ih htail
    rw [edgesTo] at hrest ⊢
    rw [List.filterMap_cons, hc, Option.map_some, List.map_cons, hrest, List.map_cons]

/-- If all targets of a row read something, the edges of the state lead to all of them. -/
theorem perm_targets_of_rows {targets : Boundary} {f : Option Output}
    (hrow : g.rows[s]? = some (edgesTo g.rangeOf? targets, f))
    (h : ∀ x ∈ targets, ∃ c, g.rangeOf? x.1 = some c) :
    (((ofGraph g).edges s).toList.map (·.target)).Perm (targets.map (·.1)) := by
  rw [edges_ofGraph_of_rows hrow, ← map_target_edgesTo h]
  exact (Ascending.sort_perm _).map _

/-- Beyond the initial state there is no edge. -/
theorem edges_ofGraph_of_lt (hs : g.bound < s) : (ofGraph g).edges s = #[] := by
  rw [← Array.toList_inj, toList_edges_ofGraph, getElem?_rows_eq_none hs]
  rfl

/-- Only occurrences are passed from. -/
theorem valuesAt_follow_eq_nil (hs : g.bound ≤ s) : Numbered.valuesAt g.follow s = [] := by
  refine List.eq_nil_iff_forall_not_mem.2 fun x hx ↦ ?_
  have hids := (mem_ids_of_mem_follow (Numbered.mem_valuesAt.1 hx)).1
  exact Nat.not_lt.2 hs (lt_bound hids)

/-- The edges of a state other than the initial one lead to the states that it passes to, as often
as it does. -/
theorem perm_targets_ofGraph (hg : g.Coherent) (hs : s ≠ g.bound) :
    (((ofGraph g).edges s).toList.map (·.target)).Perm
      ((Numbered.valuesAt g.follow s).map (·.1)) := by
  rcases Nat.lt_or_gt_of_ne hs with hlt | hgt
  · refine perm_targets_of_rows (getElem?_rows_of_lt hlt) fun x hx ↦ ?_
    have hreader := (mem_readers_of_mem_follow (Numbered.mem_valuesAt.1 hx)).2
    exact (exists_rangeOf?_iff hg).2 hreader
  · rw [edges_ofGraph_of_lt hgt, valuesAt_follow_eq_nil (Nat.le_of_lt hgt)]
    exact .nil

/-- The edges of the initial state lead to the first states. -/
theorem perm_targets_ofGraph_initial (hg : g.Coherent) :
    (((ofGraph g).edges g.bound).toList.map (·.target)).Perm (g.first.map (·.1)) := by
  refine perm_targets_of_rows (getElem?_rows_bound g) fun x hx ↦ ?_
  exact (exists_rangeOf?_iff hg).2 (mem_readers_of_mem_first (o := x.2) hx)

/-- An edge leads from an occurrence along a passage, or from the initial state to a first
state. -/
theorem mem_follow_or_mem_first (hg : g.Coherent) (he : e ∈ (ofGraph g).edges s) :
    (∃ o, (s, e.target, o) ∈ g.follow) ∨ s = g.bound ∧ ∃ o, (e.target, o) ∈ g.first := by
  have hmem : e.target ∈ ((ofGraph g).edges s).toList.map (·.target) :=
    List.mem_map.2 ⟨e, Array.mem_toList_iff.2 he, rfl⟩
  rcases eq_or_ne s g.bound with rfl | hs
  · obtain ⟨x, hx, htarget⟩ := List.mem_map.1 ((perm_targets_ofGraph_initial hg).mem_iff.1 hmem)
    exact .inr ⟨rfl, x.2, htarget ▸ hx⟩
  · obtain ⟨x, hx, htarget⟩ := List.mem_map.1 ((perm_targets_ofGraph hg hs).mem_iff.1 hmem)
    exact .inl ⟨x.2, htarget ▸ Numbered.mem_valuesAt.1 hx⟩

/-! ### Simple graphs -/

/-- Passages are told apart by their ends if those that leave a state are told apart by the state
that they enter. -/
theorem nodup_map_ends_iff {l : List Passage} :
    (l.map Passage.ends).Nodup ↔ ∀ s, ((Numbered.valuesAt l s).map (·.1)).Nodup := by
  induction l with
  | nil => exact iff_of_true List.nodup_nil fun s ↦ List.nodup_nil
  | cons q l ih =>
    -- a passage with the ends of `q` is one among those from the source of `q`
    have hmem : q.ends ∈ l.map Passage.ends ↔ q.2.1 ∈ (Numbered.valuesAt l q.1).map (·.1) := by
      rw [List.mem_map, List.mem_map]
      refine ⟨fun h ↦ ?_, fun h ↦ ?_⟩
      · obtain ⟨⟨s, t, o⟩, hq, hends⟩ := h
        obtain ⟨hs, ht⟩ := Prod.mk.inj hends
        exact ⟨(t, o), Numbered.mem_valuesAt.2 (hs ▸ hq), ht⟩
      · obtain ⟨⟨t, o⟩, hq, rfl⟩ := h
        exact ⟨(q.1, q.2.1, o), Numbered.mem_valuesAt.1 hq, rfl⟩
    rw [List.map_cons, List.nodup_cons, ih, hmem]
    constructor
    · rintro ⟨hnot, hrest⟩ s
      rw [Numbered.valuesAt_cons]
      split
      · next heq =>
        rw [List.map_cons]
        exact List.nodup_cons.2 ⟨heq ▸ hnot, hrest s⟩
      · exact hrest s
    · intro h
      have hself := h q.1
      rw [Numbered.valuesAt_cons, if_pos rfl, List.map_cons, List.nodup_cons] at hself
      refine ⟨hself.1, fun s ↦ ?_⟩
      have hs := h s
      rw [Numbered.valuesAt_cons] at hs
      split at hs
      · exact (List.nodup_cons.1 hs).2
      · exact hs

/-- **A graph is simple exactly when its machine is.** -/
theorem simple_ofGraph_iff (hg : g.Coherent) : (ofGraph g).Simple ↔ g.Simple := by
  rw [PositionGraph.Simple, arrows, nodup_map_ends_iff]
  refine forall_congr' fun s ↦ ?_
  rcases eq_or_ne s g.bound with rfl | hs
  · refine iff_of_true ?_ ?_
    · exact (perm_targets_ofGraph_initial hg).nodup_iff.2 (nodup_first hg.nodup_ids)
    · rw [valuesAt_follow_eq_nil (Nat.le_refl _)]
      exact List.nodup_nil
  · exact (perm_targets_ofGraph hg hs).nodup_iff

/-! ### No edge is dead -/

/-- A state that can be entered can be reached. -/
theorem Enters.exists_run (hg : g.Coherent) (h : g.Enters w s) :
    ∃ is o, (ofGraph g).Run (ofGraph g).initial w is s o := by
  induction h with
  | first hfirst hreads =>
    obtain ⟨i, r, hi, hx⟩ := exists_edge_of_mem_first hg hfirst hreads
    exact ⟨[i], _, .cons hi hx (.nil _)⟩
  | pass _ hpass hreads ih =>
    obtain ⟨is, p, hrun⟩ := ih
    obtain ⟨i, r, hi, hx⟩ := exists_edge_of_mem_follow hg hpass hreads
    exact ⟨is ++ [i], _, hrun.snoc hi hx⟩

/-- A state with an edge can be reached. -/
theorem exists_run_of_mem_edges (hg : g.Coherent) (he : e ∈ (ofGraph g).edges s) :
    ∃ w is o, (ofGraph g).Run (ofGraph g).initial w is s o := by
  rcases mem_follow_or_mem_first hg he with ⟨o, hpass⟩ | ⟨rfl, -⟩
  · obtain ⟨w, henters⟩ := exists_enters hg (mem_readers_of_mem_follow hpass).1
    exact ⟨w, henters.exists_run hg⟩
  · exact ⟨[], [], [], .nil _⟩

/-- Every edge leads to a state that reads something. -/
theorem target_mem_readers (hg : g.Coherent) (he : e ∈ (ofGraph g).edges s) :
    e.target ∈ g.readers := by
  rcases mem_follow_or_mem_first hg he with ⟨o, hpass⟩ | ⟨-, o, hfirst⟩
  · exact (mem_readers_of_mem_follow hpass).2
  · exact mem_readers_of_mem_first hfirst

/-- **Every edge leads to a live state.** -/
theorem live_target_ofGraph (hg : g.Coherent) (he : e ∈ (ofGraph g).edges s) :
    (ofGraph g).Live e.target := by
  have hreader := target_mem_readers hg he
  obtain ⟨w, ss, o, hleaves⟩ := exists_leaves hg hreader
  have hids := (readers_sublist_ids g).subset hreader
  obtain ⟨is, t, p, f, hrun, hf, -, -⟩ := hleaves.exists_run hg hids
  exact ⟨w, is, t, p, f, hrun, hf⟩

/-- An edge reads what the state that it leads to reads. -/
theorem range_eq_of_mem_edges (hg : g.Coherent) (he : e ∈ (ofGraph g).edges s) :
    ∃ c, g.rangeOf? e.target = some c ∧ e.range = c.1 := by
  rcases mem_follow_or_mem_first hg he with ⟨o, hpass⟩ | ⟨rfl, -⟩
  · exact ((mem_edges_ofGraph (mem_ids_of_mem_follow hpass).1).1 he).2
  · exact (mem_edges_ofGraph_initial.1 he).2

/-- Edges into one state read the same. -/
theorem range_eq_of_target_eq (hg : g.Coherent) {e' : Edge} (he : e ∈ (ofGraph g).edges s)
    (he' : e' ∈ (ofGraph g).edges t) (htarget : e.target = e'.target) : e.range = e'.range := by
  obtain ⟨c, hc, hrange⟩ := range_eq_of_mem_edges hg he
  obtain ⟨c', hc', hrange'⟩ := range_eq_of_mem_edges hg he'
  rw [htarget, hc'] at hc
  rw [hrange, hrange', Option.some.inj hc]

/-! ### Unique computations -/

/-- Two edges from one state to another are taken by two accepting computations over one word. -/
theorem simple_of_acceptingRun_unique (hg : g.Coherent)
    (hunique : ∀ w is js o p, (ofGraph g).AcceptingRun w is o → (ofGraph g).AcceptingRun w js p →
      is = js) : (ofGraph g).Simple := by
  refine simple_iff.2 fun {s i j e f} hedge hedge' htarget ↦ ?_
  obtain ⟨c, hc, hrange⟩ := range_eq_of_mem_edges hg (Array.mem_of_getElem? hedge)
  obtain ⟨d, hd, hrange'⟩ := range_eq_of_mem_edges hg (Array.mem_of_getElem? hedge')
  -- both edges read what the state that they lead to reads
  have hcd : c = d := Option.some.inj (by rw [← hc, ← hd, htarget])
  obtain ⟨u, is, o, hrun⟩ := exists_run_of_mem_edges hg (Array.mem_of_getElem? hedge)
  obtain ⟨v, ks, t, p, a, hrest, ha⟩ := live_target_ofGraph hg (Array.mem_of_getElem? hedge)
  have hrest' : (ofGraph g).Run f.target v ks t p := htarget ▸ hrest
  have hindices : is ++ i :: ks = is ++ j :: ks := hunique (u ++ c.1.lower :: v) _ _ _ _
    ⟨t, _, a, hrun.append (.cons hedge (hrange ▸ c.lower_mem) hrest), ha, rfl⟩
    ⟨t, _, a, hrun.append (.cons hedge' (hrange' ▸ hcd ▸ c.lower_mem) hrest'), ha, rfl⟩
  exact (List.cons.inj (List.append_cancel_left hindices)).1

/-- **Every word has one accepting computation at most exactly when the graph is unambiguous.** -/
theorem acceptingRun_unique_iff_unambiguous (hg : g.Coherent) :
    (∀ w is js o p, (ofGraph g).AcceptingRun w is o → (ofGraph g).AcceptingRun w js p → is = js) ↔
      g.Unambiguous := by
  constructor
  · intro hunique
    refine ⟨(simple_ofGraph_iff hg).1 (simple_of_acceptingRun_unique hg hunique),
      fun {w ss ts o p} hss hts ↦ ?_⟩
    obtain ⟨is, his, rfl⟩ := (reading_iff_acceptingRun hg).1 hss
    obtain ⟨js, hjs, rfl⟩ := (reading_iff_acceptingRun hg).1 hts
    rw [hunique w is js o p his hjs]
  · intro h w is js o p his hjs
    have hentered := h.unique ((reading_iff_acceptingRun hg).2 ⟨is, his, rfl⟩)
      ((reading_iff_acceptingRun hg).2 ⟨js, hjs, rfl⟩)
    obtain ⟨s, q, f, hrun, -, -⟩ := his
    obtain ⟨t, q', f', hrun', -, -⟩ := hjs
    exact hrun.indices_eq_of_entered_eq ((simple_ofGraph_iff hg).2 h.simple) hrun' hentered

/-- **The machine of a graph is free of conflicts exactly when the graph is unambiguous.** -/
theorem conflictFree_ofGraph_iff (hg : g.Coherent) :
    (ofGraph g).ConflictFree ↔ g.Unambiguous := by
  rw [conflictFree_iff fun s e he ↦ live_target_ofGraph hg he,
    acceptingRun_unique_iff_unambiguous hg]

end PositionGraph

end Transduction
