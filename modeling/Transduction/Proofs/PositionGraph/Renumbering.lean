import Transduction.Proofs.PositionGraph.Skeleton
import Transduction.Proofs.Transducer.Renumbering

/-!
# Machines that differ in empty literals

An occurrence of the empty literal is a state without edges that does not accept, and no edge leads
to it. So if two expressions have one skeleton, and the occurrences of the one are left of those of
the other when some empty literals are dropped, then the machine of the one is found in that of the
other under the old numbers (`renumbers_ofGraph`).

The states that read something correspond, since they do in the expressions (`readers_eq_map`), and
what remains are states without edges (`stateId_or_unread`). A state has the edges of the skeleton
in both machines. They stand in the same order: both machines sort them by the symbols they read and
by the states they lead to, and these states keep their order (`edges_stateId`).
-/

namespace Transduction.PositionGraph

open Transducer

variable {g g' : PositionGraph} {e f : Expr} {n n' : StateId} {s : StateId} {k : Option Nat}
  {ρ : StateId → StateId}

/-! ### The numbers of the states -/

/-- Numbered from zero, the occurrences have the numbers up to their count. -/
theorem ids_eq_range (h : (build e).runFrom 0 = (.ok g, n)) :
    g.ids = List.range e.occurrenceRanges.length := by
  rw [(ids_of_build h).1, Expr.length_occurrenceRanges, List.range_eq_range']

/-- The initial state comes after the occurrences. -/
theorem bound_of_build (h : (build e).runFrom 0 = (.ok g, n)) :
    g.bound = e.occurrenceRanges.length := by
  rw [bound_of_runFrom h, (ids_of_build h).2, Nat.zero_add, Expr.length_occurrenceRanges]

/-- Each occurrence has its place in the expression as number. -/
theorem fst_of_getElem?_ranges (h : (build e).runFrom 0 = (.ok g, n)) {i : Nat}
    {x : StateId × Option SymbolClass} (hx : g.ranges[i]? = some x) : x.1 = i := by
  have hid : g.ids[i]? = some x.1 := by
    rw [← map_fst_ranges, List.getElem?_map, hx]
    rfl
  rw [ids_eq_range h] at hid
  obtain ⟨hi, hget⟩ := List.getElem?_eq_some_iff.1 hid
  rw [← hget, List.getElem_range]

/-- A state reads what the expression says of its place. -/
theorem getElem?_occurrenceRanges_of_mem_ranges (h : (build e).runFrom 0 = (.ok g, n))
    {c : Option SymbolClass} (hc : (s, c) ∈ g.ranges) :
    e.occurrenceRanges[s]? = some (c.map (·.1)) := by
  obtain ⟨i, hi⟩ := List.mem_iff_getElem?.1 hc
  obtain rfl : s = i := fst_of_getElem?_ranges h hi
  rw [← map_range_of_build h, List.getElem?_map, hi]
  rfl

/-- The states that read something are the occurrences that do. -/
theorem mem_readers_iff_of_build (h : (build e).runFrom 0 = (.ok g, n)) :
    s ∈ g.readers ↔ ∃ r, e.occurrenceRanges[s]? = some (some r) := by
  rw [mem_readers]
  constructor
  · rintro ⟨c, hc⟩
    exact ⟨c.1, getElem?_occurrenceRanges_of_mem_ranges h hc⟩
  · rintro ⟨r, hr⟩
    rw [← map_range_of_build h, List.getElem?_map] at hr
    obtain ⟨⟨t, c⟩, hget, hc⟩ := Option.map_eq_some_iff.1 hr
    obtain ⟨c, rfl, -⟩ := Option.map_eq_some_iff.1 hc
    obtain rfl : t = s := fst_of_getElem?_ranges h hget
    exact ⟨c, List.mem_of_getElem? hget⟩

/-- The occurrences that read something have ascending numbers. -/
theorem pairwise_readers_of_build (h : (build e).runFrom 0 = (.ok g, n)) :
    g.readers.Pairwise (· < ·) := by
  refine List.Pairwise.sublist (readers_sublist_ids g) ?_
  rw [ids_eq_range h]
  exact List.pairwise_lt_range

theorem size_ofGraph (g : PositionGraph) : (ofGraph g).size = g.bound + 1 := by
  rw [size, states_ofGraph, List.size_toArray, List.length_map, length_rows]

/-! ### States that read nothing -/

/-- An occurrence of the empty literal has no edges. -/
theorem edges_eq_empty (hg : g.Coherent) (hs : s ∉ g.readers) (hbound : s ≠ g.bound) :
    (ofGraph g).edges s = #[] := by
  refine Array.eq_empty_iff_forall_not_mem.2 fun d hd ↦ ?_
  rcases mem_follow_or_mem_first hg hd with ⟨o, hpass⟩ | ⟨rfl, -⟩
  · exact hs (mem_readers_of_mem_follow hpass).1
  · exact hbound rfl

/-- An occurrence of the empty literal does not accept. -/
theorem final?_eq_none (hg : g.Coherent) (hs : s ∉ g.readers) (hbound : s ≠ g.bound) :
    (ofGraph g).final? s = none := by
  refine Option.eq_none_iff_forall_ne_some.2 fun o ho ↦ hs ?_
  exact mem_readers_of_mem_last ((final?_ofGraph hg hbound).1 ho)

/-- The order of edges, of which the ranges and the targets are given. -/
def EdgeLe (a b : SymbolRange × StateId) : Prop := Edge.le ⟨a.1, a.2, []⟩ ⟨b.1, b.2, []⟩

/-! ### Corresponding states -/

section

variable (hp : Picks ρ e.occurrenceRanges f.occurrenceRanges)
  (h : (build e).runFrom 0 = (.ok g, n)) (h' : (build f).runFrom 0 = (.ok g', n'))

include hp h h'

theorem bound_eq : g'.bound = ρ g.bound := by
  rw [bound_of_build h, bound_of_build h', hp.length]

/-- **The states that read something correspond.** -/
theorem readers_eq_map : g'.readers = g.readers.map ρ := by
  refine eq_map_of_strictMono hp.strictMono (pairwise_readers_of_build h')
    (pairwise_readers_of_build h) fun t ↦ ?_
  rw [mem_readers_iff_of_build h']
  constructor
  · rintro ⟨r, hr⟩
    have ht : t < f.occurrenceRanges.length := (List.getElem?_eq_some_iff.1 hr).1
    -- what reads something has not been dropped
    have hleft : ∃ s, ρ s = t := by
      by_contra hnone
      have hdropped := hp.dropped t ht fun s hs ↦ hnone ⟨s, hs⟩
      cases hr.symm.trans hdropped
    obtain ⟨s, rfl⟩ := hleft
    have hs : s < e.occurrenceRanges.length := by
      by_contra hle
      have hlast := hp.strictMono.monotone (Nat.not_lt.1 hle)
      rw [hp.length] at hlast
      exact Nat.lt_irrefl _ (Nat.lt_of_lt_of_le ht hlast)
    exact ⟨s, (mem_readers_iff_of_build h).2 ⟨r, (hp.reads s hs).symm.trans hr⟩, rfl⟩
  · rintro ⟨s, hs, rfl⟩
    obtain ⟨r, hr⟩ := (mem_readers_iff_of_build h).1 hs
    exact ⟨r, (hp.reads s (List.getElem?_eq_some_iff.1 hr).1).trans hr⟩

/-- The states of the skeleton correspond. -/
theorem stateId_eq (hk : g.stateId k ≤ g.bound) : g'.stateId k = ρ (g.stateId k) := by
  rcases k with - | j
  · exact bound_eq hp h h'
  · have hj : j < g.readers.length :=
      Nat.lt_of_not_le fun hle ↦ Nat.not_le.2 (bound_lt_placeId hle) hk
    have hreaders := readers_eq_map hp h h'
    have hj' : j < g'.readers.length := by rwa [hreaders, List.length_map]
    show g'.placeId j = ρ (g.placeId j)
    rw [placeId_of_lt hj, placeId_of_lt hj']
    simp only [hreaders, List.getElem_map]

/-- A state is one of the skeleton, or it reads nothing, in both machines. -/
theorem stateId_or_unread (s : StateId) :
    (∃ k, g.stateId k = s ∧ g'.stateId k = ρ s) ∨
      (s ∉ g.readers ∧ s ≠ g.bound) ∧ ρ s ∉ g'.readers ∧ ρ s ≠ g'.bound := by
  by_cases hbound : s = g.bound
  · exact .inl ⟨none, hbound.symm, hbound ▸ bound_eq hp h h'⟩
  by_cases hs : s ∈ g.readers
  · obtain ⟨j, hj, rfl⟩ := List.mem_iff_getElem.1 hs
    have hplace : g.stateId (some j) = g.readers[j] := placeId_of_lt hj
    have hle : g.stateId (some j) ≤ g.bound := Nat.le_of_lt (placeId_lt_bound hj)
    exact .inl ⟨some j, hplace, hplace ▸ stateId_eq hp h h' hle⟩
  · refine .inr ⟨⟨hs, hbound⟩, fun hs' ↦ ?_, fun hbound' ↦ ?_⟩
    · rw [readers_eq_map hp h h', List.mem_map] at hs'
      obtain ⟨t, ht, heq⟩ := hs'
      exact hs (hp.strictMono.injective heq ▸ ht)
    · rw [bound_eq hp h h'] at hbound'
      exact hbound (hp.strictMono.injective hbound')

/-! ### Corresponding edges -/

/-- The states of the skeleton have the same edges, as often. -/
theorem perm_edges_stateId (hskeleton : e.skeleton = f.skeleton) (k : Option Nat) :
    (((ofGraph g').edges (g'.stateId k)).toList.map fun d ↦ (d.range, d.target)).Perm
      (((ofGraph g).edges (g.stateId k)).toList.map fun d ↦ (d.range, ρ d.target)) := by
  have hg := coherent_of_build h
  have hfits := fits_ofGraph h
  have hfits' := hskeleton ▸ fits_ofGraph h'
  -- an edge of the skeleton leads to a state that reads something
  have htargets : ∀ x ∈ e.skeleton.edges k, g'.stateId x.2 = ρ (g.stateId x.2) := by
    intro x hx
    have hmem := Multiset.mem_map_of_mem (Prod.map id g.stateId) hx
    rw [← hfits.edges k, Multiset.mem_coe, List.mem_map] at hmem
    obtain ⟨d, hd, heq⟩ := hmem
    have htarget : d.target = g.stateId x.2 := congrArg Prod.snd heq
    have hreader := target_mem_readers hg (Array.mem_toList_iff.1 hd)
    have hlt := lt_bound ((readers_sublist_ids g).subset hreader)
    exact stateId_eq hp h h' (htarget ▸ Nat.le_of_lt hlt)
  refine Multiset.coe_eq_coe.1 ?_
  calc ((((ofGraph g').edges (g'.stateId k)).toList.map fun d ↦ (d.range, d.target)) :
        Multiset (SymbolRange × StateId))
      = (e.skeleton.edges k).map (Prod.map id g'.stateId) := hfits'.edges k
    _ = (e.skeleton.edges k).map (Prod.map id ρ ∘ Prod.map id g.stateId) :=
        Multiset.map_congr rfl fun x hx ↦ Prod.ext rfl (htargets x hx)
    _ = ((e.skeleton.edges k).map (Prod.map id g.stateId)).map (Prod.map id ρ) :=
        (Multiset.map_map _ _ _).symm
    _ = _ := by
        rw [← hfits.edges k, Multiset.map_coe, List.map_map]
        rfl

/-- **The states of the skeleton have the same edges**, in their order. -/
theorem edges_stateId (hskeleton : e.skeleton = f.skeleton) (k : Option Nat) :
    ((ofGraph g').edges (g'.stateId k)).toList.map (fun d ↦ (d.range, d.target)) =
      ((ofGraph g).edges (g.stateId k)).toList.map fun d ↦ (d.range, ρ d.target) := by
  have hperm := perm_edges_stateId hp h h' hskeleton k
  have hsorted' : (((ofGraph g').edges (g'.stateId k)).toList.map fun d ↦
      (d.range, d.target)).Pairwise EdgeLe :=
    ((ofGraph g').pairwise_edges _).map _ fun a b hab ↦ hab
  have hsorted : (((ofGraph g).edges (g.stateId k)).toList.map fun d ↦
      (d.range, ρ d.target)).Pairwise EdgeLe := by
    refine ((ofGraph g).pairwise_edges _).map _ fun a b hab ↦ ?_
    rw [EdgeLe, Edge.le_iff]
    exact (Edge.le_iff.1 hab).imp_right fun hle ↦ ⟨hle.1, hp.strictMono.monotone hle.2⟩
  refine hperm.eq_of_pairwise (fun a b ha hb hab hba ↦ ?_) hsorted' hsorted
  -- edges that are not told apart lead to one state, so they read the same
  obtain ⟨d, hd, rfl⟩ := List.mem_map.1 ha
  obtain ⟨d', hd', rfl⟩ := List.mem_map.1 (hperm.mem_iff.2 hb)
  have htarget : d.target = d'.target := Edge.target_eq_of_le hab hba
  exact Prod.ext (range_eq_of_target_eq (coherent_of_build h') (Array.mem_toList_iff.1 hd)
    (Array.mem_toList_iff.1 hd') htarget) htarget

/-- **Without some empty literals, the machine is the same up to numbers and outputs.** -/
theorem renumbers_ofGraph (hskeleton : e.skeleton = f.skeleton) :
    (ofGraph g).Renumbers (ofGraph g') ρ where
  strictMono := hp.strictMono
  lt_size s hs := by
    rw [size_ofGraph] at hs ⊢
    rw [bound_eq hp h h']
    exact Nat.lt_succ_of_le (hp.strictMono.monotone (Nat.le_of_lt_succ hs))
  initial := bound_eq hp h h'
  edges s _ := by
    rcases stateId_or_unread hp h h' s with ⟨k, rfl, hk⟩ | ⟨⟨hs, hbound⟩, hs', hbound'⟩
    · rw [← hk]
      exact edges_stateId hp h h' hskeleton k
    · rw [edges_eq_empty (coherent_of_build h) hs hbound,
        edges_eq_empty (coherent_of_build h') hs' hbound']
      rfl
  accepts s _ := by
    rcases stateId_or_unread hp h h' s with ⟨k, rfl, hk⟩ | ⟨⟨hs, hbound⟩, hs', hbound'⟩
    · have hfits' := hskeleton ▸ fits_ofGraph h'
      rw [← hk, hfits'.accepts k, (fits_ofGraph h).accepts k]
    · rw [final?_eq_none (coherent_of_build h) hs hbound,
        final?_eq_none (coherent_of_build h') hs' hbound']

end

end Transduction.PositionGraph
