import Transduction.Proofs.PositionGraph.Outline
import Transduction.Proofs.PositionGraph.UniqueRuns
import Transduction.Proofs.Transducer.Skeleton

/-!
# The skeleton of an expression

An outline is a skeleton once it is known what its places read: its states are the places, with one
more that words begin in, and an edge reads what the place that it leads to reads. The machine of an
expression fits the skeleton of the outline of the expression (`fits_ofGraph`). Its states are the
readers of the graph and the initial state; the occurrences of the empty literal are no states of
the skeleton, and no edge leads to them.

The edges of a state are found by their targets (`perm_targets_ofGraph`), and the targets are those
of the outline; what an edge reads is then known by its target (`range_of_mem_edges`).
-/

namespace Transduction

/-- The skeleton of an outline whose places read what is given. Words begin in the state `none`. -/
def Outline.skeleton {σ : Type} [DecidableEq σ] (a : Outline σ) (range : σ → SymbolRange) :
    Skeleton (Option σ) where
  initial := none
  edges
    | none => a.first.map fun j ↦ (range j, some j)
    | some i => (a.follow.filter (·.1 = i)).map fun q ↦ (range q.2, some q.2)
  accepts
    | none => a.nullable
    | some i => i ∈ a.last

/-- The initial state leads to the first places. -/
theorem Outline.skeleton_edges_none {σ : Type} [DecidableEq σ] (a : Outline σ)
    (range : σ → SymbolRange) :
    (a.skeleton range).edges none = a.first.map fun j ↦ (range j, some j) := rfl

/-- A place leads to those that follow it. -/
theorem Outline.skeleton_edges_some {σ : Type} [DecidableEq σ] (a : Outline σ)
    (range : σ → SymbolRange) (i : σ) :
    (a.skeleton range).edges (some i) =
      (a.follow.filter (·.1 = i)).map fun q ↦ (range q.2, some q.2) := rfl

/-- The skeleton of an expression, whose places are numbered from zero. -/
def Expr.skeleton (e : Expr) : Skeleton (Option Nat) :=
  (e.outline 0).skeleton fun j ↦ e.ranges[j]?.getD (.single 0)

namespace PositionGraph

open Transducer

variable {g : PositionGraph} {e : Expr} {n n' : StateId} {i j : Nat} {s : StateId}

/-! ### The states of the skeleton -/

/-- The number of place `j`: that of reader `j`. Places that the graph does not have are given
numbers beyond all states. -/
def placeId (g : PositionGraph) (j : Nat) : StateId := g.readers[j]?.getD (g.bound + 1 + j)

/-- The number of a state of the skeleton. -/
def stateId (g : PositionGraph) : Option Nat → StateId
  | none => g.bound
  | some j => g.placeId j

theorem placeId_of_lt (h : j < g.readers.length) : g.placeId j = g.readers[j] := by
  rw [placeId, List.getElem?_eq_getElem h]
  rfl

/-- What is no place gets a number behind that of the initial state. -/
theorem placeId_of_le (h : g.readers.length ≤ j) : g.placeId j = g.bound + 1 + j := by
  rw [placeId, List.getElem?_eq_none h]
  rfl

theorem placeId_lt_bound (h : j < g.readers.length) : g.placeId j < g.bound := by
  rw [placeId_of_lt h]
  exact lt_bound ((readers_sublist_ids g).subset (List.getElem_mem h))

theorem bound_lt_placeId (h : g.readers.length ≤ j) : g.bound < g.placeId j := by
  rw [placeId_of_le h, Nat.add_assoc]
  exact Nat.lt_add_of_pos_right (Nat.add_pos_left Nat.one_pos j)

theorem placeId_ne_bound (g : PositionGraph) (j : Nat) : g.placeId j ≠ g.bound := by
  rcases Nat.lt_or_ge j g.readers.length with h | h
  · exact Nat.ne_of_lt (placeId_lt_bound h)
  · exact Nat.ne_of_gt (bound_lt_placeId h)

/-- No two places have the same number. -/
theorem injective_placeId (hg : g.Coherent) : g.placeId.Injective := by
  have hnodup : g.readers.Nodup := hg.nodup_ids.sublist (readers_sublist_ids g)
  intro i j hij
  rcases Nat.lt_or_ge i g.readers.length with hi | hi <;>
    rcases Nat.lt_or_ge j g.readers.length with hj | hj
  · rw [placeId_of_lt hi, placeId_of_lt hj] at hij
    exact hnodup.getElem_inj_iff.1 hij
  · exact absurd (bound_lt_placeId hj) (Nat.lt_asymm (hij ▸ placeId_lt_bound hi))
  · exact absurd (bound_lt_placeId hi) (Nat.lt_asymm (hij ▸ placeId_lt_bound hj))
  · rw [placeId_of_le hi, placeId_of_le hj] at hij
    exact Nat.add_left_cancel hij

/-- No two states of the skeleton have the same number. -/
theorem injective_stateId (hg : g.Coherent) : g.stateId.Injective := by
  rintro (- | i) (- | j) hij
  · rfl
  · exact absurd hij.symm (placeId_ne_bound g j)
  · exact absurd hij (placeId_ne_bound g i)
  · rw [injective_placeId hg hij]

/-- The readers are the numbers of the places, in order. -/
theorem readers_eq_map_placeId (g : PositionGraph) :
    g.readers = (List.range' 0 g.readers.length).map g.placeId := by
  refine List.ext_getElem (by simp) fun i hi _ ↦ ?_
  rw [List.getElem_map, List.getElem_range', Nat.zero_add, Nat.one_mul, placeId_of_lt hi]

/-- The graph has the outline of its expression, place by place. -/
theorem outline_eq_map_placeId (h : (build e).runFrom n = (.ok g, n')) :
    g.outline = (e.outline 0).map g.placeId := by
  refine outline_of_build h ?_
  rw [← length_readers_of_build h]
  exact readers_eq_map_placeId g

/-! ### What edges read -/

/-- A place reads what the expression says. -/
theorem range_of_rangeOf? (h : (build e).runFrom n = (.ok g, n')) {c : SymbolClass}
    (hc : g.rangeOf? (g.placeId j) = some c) : c.1 = e.ranges[j]?.getD (.single 0) := by
  have hg := coherent_of_build h
  have hmem : (g.placeId j, c.1) ∈ g.readings :=
    mem_readings.2 ⟨c, (rangeOf?_eq_some_iff hg).1 hc, rfl⟩
  obtain ⟨i, hi, hget⟩ := List.mem_iff_getElem.1 hmem
  have hreader : g.readers[i]? = some (g.placeId j) := by
    rw [← map_fst_readings, List.getElem?_map, List.getElem?_eq_getElem hi, hget]
    rfl
  have hrange : e.ranges[i]? = some c.1 := by
    rw [← map_snd_readings_of_build h, List.getElem?_map, List.getElem?_eq_getElem hi, hget]
    rfl
  have hij : i = j := by
    refine injective_placeId hg ?_
    rw [placeId, hreader]
    rfl
  rw [← hij, hrange]
  rfl

/-- **An edge reads what the place that it leads to reads.** -/
theorem range_of_mem_edges (h : (build e).runFrom n = (.ok g, n')) {d : Edge}
    (hd : d ∈ (ofGraph g).edges s) (htarget : d.target = g.placeId j) :
    d.range = e.ranges[j]?.getD (.single 0) := by
  obtain ⟨c, hc, hrange⟩ := range_eq_of_mem_edges (coherent_of_build h) hd
  rw [hrange]
  exact range_of_rangeOf? h (htarget ▸ hc)

/-- Edges that lead to some places, as often, read what these places do. -/
theorem map_edges_eq (h : (build e).runFrom n = (.ok g, n')) {A : Multiset Nat}
    (htargets : (((ofGraph g).edges s).toList.map (·.target) : Multiset StateId) =
      A.map g.placeId) :
    (((ofGraph g).edges s).toList.map fun d ↦ (d.range, d.target) :
      Multiset (SymbolRange × StateId)) =
        A.map fun j ↦ (e.ranges[j]?.getD (.single 0), g.placeId j) := by
  -- each edge goes with a place that it leads to, and the two read the same
  have hrel : Multiset.Rel (fun (d : Edge) j ↦ d.target = g.placeId j)
      ((ofGraph g).edges s).toList A :=
    Multiset.rel_map.1 (Multiset.rel_eq.2 htargets)
  refine Multiset.rel_eq.1 (Multiset.rel_map.2 (hrel.mono fun d hd j _ htarget ↦ ?_))
  rw [range_of_mem_edges h (Array.mem_toList_iff.1 hd) htarget, htarget]

/-! ### Fitting -/

/-- The targets of the passages out of a state, by the ends of the passages. -/
theorem map_fst_valuesAt_follow (g : PositionGraph) (s : StateId) :
    (Numbered.valuesAt g.follow s).map (·.1) = (g.arrows.filter (·.1 = s)).map (·.2) := by
  rw [Numbered.valuesAt, arrows, List.filter_map, List.map_map, List.map_map]
  rfl

/-- The edges of a place lead to the places that follow it in the outline. -/
theorem targets_edges_placeId (h : (build e).runFrom n = (.ok g, n')) (i : Nat) :
    (((ofGraph g).edges (g.placeId i)).toList.map (·.target) : Multiset StateId) =
      (((e.outline 0).follow.filter (·.1 = i)).map (·.2)).map g.placeId := by
  have hg := coherent_of_build h
  have harrows : (g.arrows : Multiset (StateId × StateId)) =
      (e.outline 0).follow.map (Prod.map g.placeId g.placeId) :=
    congrArg Outline.follow (outline_eq_map_placeId h)
  have hfilter : ((g.arrows.filter (·.1 = g.placeId i)) : Multiset (StateId × StateId)) =
      ((e.outline 0).follow.filter (·.1 = i)).map (Prod.map g.placeId g.placeId) := by
    rw [← Multiset.filter_coe, harrows, Multiset.filter_map]
    refine congrArg _ (Multiset.filter_congr fun q _ ↦ ?_)
    exact (injective_placeId hg).eq_iff
  rw [Multiset.coe_eq_coe.2 (perm_targets_ofGraph hg (placeId_ne_bound g i)),
    map_fst_valuesAt_follow, ← Multiset.map_coe, hfilter, Multiset.map_map, Multiset.map_map]
  rfl

/-- A place accepts if a word of the outline can end in it. -/
theorem isSome_final?_placeId (h : (build e).runFrom n = (.ok g, n')) (i : Nat) :
    ((ofGraph g).final? (g.placeId i)).isSome ↔ i ∈ (e.outline 0).last := by
  have hg := coherent_of_build h
  have hlast : (g.last.map (·.1) : Multiset StateId) = (e.outline 0).last.map g.placeId :=
    congrArg Outline.last (outline_eq_map_placeId h)
  have hmem : g.placeId i ∈ g.last.map (·.1) ↔ i ∈ (e.outline 0).last := by
    rw [← Multiset.mem_coe, hlast, Multiset.mem_map_of_injective (injective_placeId hg)]
  rw [← hmem, Option.isSome_iff_exists, List.mem_map]
  refine ⟨fun hf ↦ ?_, fun hl ↦ ?_⟩
  · obtain ⟨o, ho⟩ := hf
    exact ⟨_, (final?_ofGraph hg (placeId_ne_bound g i)).1 ho, rfl⟩
  · obtain ⟨⟨s, o⟩, hs, rfl⟩ := hl
    exact ⟨o, (final?_ofGraph hg (placeId_ne_bound g i)).2 hs⟩

/-- **The machine of an expression fits the skeleton of the expression.** -/
theorem fits_ofGraph (h : (build e).runFrom n = (.ok g, n')) :
    e.skeleton.Fits (ofGraph g) g.stateId := by
  have hg := coherent_of_build h
  have houtline := outline_eq_map_placeId h
  refine ⟨injective_stateId hg, rfl, fun i ↦ ?_, fun i ↦ ?_⟩
  · rcases i with - | i
    · have hfirst : (g.first.map (·.1) : Multiset StateId) = (e.outline 0).first.map g.placeId :=
        congrArg Outline.first houtline
      have htargets := (Multiset.coe_eq_coe.2 (perm_targets_ofGraph_initial hg)).trans hfirst
      refine (map_edges_eq h htargets).trans ?_
      rw [Expr.skeleton, Outline.skeleton_edges_none, Multiset.map_map]
      rfl
    · refine (map_edges_eq h (targets_edges_placeId h i)).trans ?_
      rw [Expr.skeleton, Outline.skeleton_edges_some, Multiset.map_map, Multiset.map_map]
      rfl
  · rcases i with - | i
    · have hnullable : g.empty?.isSome = (e.outline 0).nullable :=
        congrArg Outline.nullable houtline
      exact (congrArg _ (final?_ofGraph_initial g)).trans hnullable
    · exact Bool.eq_iff_iff.2 ((isSome_final?_placeId h i).trans decide_eq_true_iff.symm)

end PositionGraph

end Transduction
