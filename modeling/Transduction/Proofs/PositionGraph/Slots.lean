import Transduction.PositionGraph.Slots
import Transduction.Proofs.PositionGraph.Listing

/-!
# No slot is missing

All numbers that a graph of an expression speaks of are numbers of its occurrences: those that read
something, those that a passage leaves or enters, the first and the last states
(`lt_bound_of_mem_followBy`, `lt_bound_of_mem_first`, `lt_bound_of_mem_last`). So every slot that is
written or looked up is there, and what is written is the layout by number.

The ranges are written without looking whether a slot has been written already. That each keeps what
it was given rests on the numbers being given once (`rangeSlots?_eq`).
-/

namespace Transduction

/-! ### Writing into slots -/

namespace Slots

variable {α β : Type}

/-- Writing into slots that are there only writes. -/
theorem foldlM_put? (f : β → α) {l : List (Nat × β)} {slots : List α}
    (h : ∀ x ∈ l, x.1 < slots.length) :
    l.foldlM (fun slots x ↦ put? slots x.1 (f x.2)) slots =
      some (l.foldl (fun slots x ↦ slots.set x.1 (f x.2)) slots) := by
  induction l generalizing slots with
  | nil => rfl
  | cons x l ih =>
    obtain ⟨hx, hl⟩ := List.forall_mem_cons.1 h
    rw [List.foldlM_cons, List.foldl_cons, put?, if_pos hx]
    refine ih fun y hy ↦ ?_
    rw [List.length_set]
    exact hl y hy

/-- A slot that is there takes a value at its end. -/
theorem push?_eq {slots : List (List α)} {i : Nat} (h : i < slots.length) (a : α) :
    push? slots i a = some (slots.set i (slots[i] ++ [a])) := by
  rw [push?, List.getElem?_eq_getElem h]
  exact if_pos h

/-- Values put to slots that are there stand behind what was in the slots, in their order. -/
theorem foldlM_push? {l : List (Nat × α)} {slots : List (List α)}
    (h : ∀ x ∈ l, x.1 < slots.length) :
    l.foldlM (fun slots x ↦ push? slots x.1 x.2) slots =
      some (slots.mapIdx fun i old ↦ old ++ Numbered.valuesAt l i) := by
  induction l generalizing slots with
  | nil =>
    show some slots = _
    simp [List.mapIdx_eq_zipIdx_map]
  | cons x l ih =>
    obtain ⟨hx, hl⟩ := List.forall_mem_cons.1 h
    rw [List.foldlM_cons, push?_eq hx]
    -- a push changes no length, so the slots of the rest are still there
    have hset : ∀ y ∈ l, y.1 < (slots.set x.1 (slots[x.1] ++ [x.2])).length := by
      intro y hy
      rw [List.length_set]
      exact hl y hy
    refine (ih hset).trans (congrArg some (List.ext_getElem? fun i ↦ ?_))
    rw [List.getElem?_mapIdx, List.getElem?_mapIdx, List.getElem?_set, Numbered.valuesAt_cons]
    by_cases hi : x.1 = i
    · subst hi
      simp [hx]
    · simp [hi]

/-- Where each look-up finds something, all is found. -/
theorem mapM_eq_some_map {f : α → Option β} {k : α → β} {l : List α}
    (h : ∀ x ∈ l, f x = some (k x)) :
    l.mapM f = some (l.map k) := by
  induction l with
  | nil => rfl
  | cons x l ih =>
    obtain ⟨hx, hl⟩ := List.forall_mem_cons.1 h
    rw [List.mapM_cons, hx, ih hl]
    rfl

end Slots

namespace PositionGraph

variable {g : PositionGraph} {s t : StateId} {o : Output} {targets : Boundary}

/-! ### The numbers that a graph speaks of -/

theorem lt_bound_of_mem_first (h : (s, o) ∈ g.first) : s < g.bound :=
  lt_bound (mem_ids_of_mem_first h)

theorem lt_bound_of_mem_last (h : (s, o) ∈ g.last) : s < g.bound :=
  lt_bound (mem_ids_of_mem_last h)

/-- A passage leaves and enters occurrences of the graph. -/
theorem lt_bound_of_mem_followBy {L : Listing} (h : (s, t, o) ∈ g.followBy L) :
    s < g.bound ∧ t < g.bound :=
  (mem_ids_of_mem_follow ((followBy_perm L g).mem_iff.1 h)).imp lt_bound lt_bound

/-! ### The slots of a graph -/

/-- **Each occurrence keeps what it reads.** -/
theorem rangeSlots?_eq (hg : g.Coherent) :
    g.rangeSlots? = some ((List.range g.bound).map g.rangeOf?) := by
  have hnodup : (g.ranges.map (·.1)).Nodup := g.map_fst_ranges ▸ hg.nodup_ids
  have hslots : ∀ x ∈ g.ranges,
      x.1 < (List.replicate g.bound (none : Option SymbolClass)).length := by
    intro x hx
    rw [List.length_replicate]
    exact lt_bound (mem_ids_of_mem_ranges hx)
  refine (Slots.foldlM_put? id hslots).trans (congrArg some (List.ext_getElem? fun s ↦ ?_))
  rw [Numbered.getElem?_foldl_set, Numbered.getLast?_valuesAt_of_perm hnodup (.refl _),
    List.getElem?_map]
  rcases Nat.lt_or_ge s g.bound with hlt | hge
  · rw [List.getElem?_replicate_of_lt hlt, List.getElem?_range hlt, Option.map_some,
      Option.map_some, rangeOf?]
    cases (Numbered.valuesAt g.ranges s).head? <;> rfl
  · rw [List.getElem?_eq_none (by simpa using hge), List.getElem?_eq_none (by simpa using hge)]
    rfl

/-- Each passage is put to the state that it leaves. -/
theorem followSlots?_eq (L : Listing) (g : PositionGraph) :
    g.followSlots? L = some (Numbered.tabulate g.bound (g.followBy L)).toList := by
  have hslots : ∀ x ∈ g.followBy L, x.1 < (List.replicate g.bound ([] : Boundary)).length := by
    intro x hx
    rw [List.length_replicate]
    exact (lt_bound_of_mem_followBy hx).1
  rw [followSlots?, Slots.foldlM_push? hslots, Numbered.toList_tabulate]
  exact congrArg some (List.ext_getElem (by simp) fun s _ _ ↦ by simp)

/-- The final outputs are written after that of the initial state. -/
theorem finalSlots?_eq (L : Listing) (g : PositionGraph) :
    g.finalSlots? L = some (g.finalsBy L) := by
  have hinitial : Slots.put? (List.replicate (g.bound + 1) none) g.bound g.empty? =
      some (List.replicate g.bound none ++ [g.empty?]) := by
    rw [Slots.put?, if_pos (by simp), List.replicate_succ', List.set_append_right _ _ (by simp)]
    simp
  rw [finalSlots?, hinitial, finalsBy]
  refine Slots.foldlM_put? some fun x hx ↦ ?_
  rw [List.length_append, List.length_replicate]
  exact Nat.lt_succ_of_lt (lt_bound_of_mem_last ((L.perm .last g.last).mem_iff.1 hx))

/-- What an entered state reads is found. -/
theorem edgeTo?_eq {x : StateId × Output} (h : x.1 < g.bound) :
    edgeTo? ((List.range g.bound).map g.rangeOf?) x =
      some ((g.rangeOf? x.1).map fun r ↦ ⟨r.1, x.1, x.2⟩) := by
  rw [edgeTo?, List.getElem?_map, List.getElem?_range h]
  rfl

/-- Edges are found for all targets that have a slot. -/
theorem edgesTo?_eq (h : ∀ x ∈ targets, x.1 < g.bound) :
    edgesTo? ((List.range g.bound).map g.rangeOf?) targets =
      some (Ascending.sort Edge.le (edgesTo g.rangeOf? targets)) := by
  rw [edgesTo?, Slots.mapM_eq_some_map fun x hx ↦ edgeTo?_eq (h x hx)]
  show some (Ascending.sort Edge.le (List.filterMap id _)) = _
  rw [List.filterMap_map]
  rfl

/-- **No slot is missing**, in whatever order tables are listed: the parts of the machine are
collected. -/
theorem partsBy?_eq (hg : g.Coherent) (L : Listing) :
    g.partsBy? L = some (Transducer.ofGraph g).parts := by
  have hentered : ∀ targets ∈ (Numbered.tabulate g.bound (g.followBy L)).toList ++
      [L.order .first g.first], ∀ x ∈ targets, x.1 < g.bound := by
    intro targets htargets x hx
    rcases List.mem_append.1 htargets with hfollow | hfirst
    · rw [Numbered.toList_tabulate] at hfollow
      obtain ⟨s, -, rfl⟩ := List.mem_map.1 hfollow
      exact (lt_bound_of_mem_followBy (Numbered.mem_valuesAt.1 hx)).2
    · rw [List.mem_singleton.1 hfirst] at hx
      exact lt_bound_of_mem_first ((L.perm .first g.first).mem_iff.1 hx)
  have hedges := Slots.mapM_eq_some_map fun targets h ↦ edgesTo?_eq (hentered targets h)
  rw [Transducer.ofGraph, Transducer.parts_ofRows, ← edges_partsBy hg L, ← finalsBy_eq hg L,
    partsBy?, rangeSlots?_eq hg, followSlots?_eq, finalSlots?_eq]
  dsimp only [bind, Option.bind_some]
  rw [hedges]
  rfl

end PositionGraph

end Transduction
