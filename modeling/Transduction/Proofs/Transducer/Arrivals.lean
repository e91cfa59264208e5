import Mathlib.Data.List.Nodup
import Mathlib.Data.Nat.Init
import Transduction.Transducer.Matching

/-!
# Matches, arrivals and clashes

What reading one symbol finds, without reference to the order in which it is looked for. The matches
of a state are the edges of its list that read the symbol (`mem_matching`), each index once; binary
search skips only edges that cannot match, so the matches are the whole reversed list, filtered
(`matching_eq_filter`). The arrivals from some states are the matches of these states
(`mem_arrivals`), and there is no clash exactly when no two arrivals enter one state
(`clash?_eq_none_iff`).

A found clash is two arrivals of the list in their order (`sublist_of_clash?`). Since no arrival is
listed twice (`nodup_arrivals`), they differ.
-/

namespace Transduction

/-! ### Clashes -/

/-- There is no clash if all targets differ, from each other and from those before. -/
theorem clashAfter?_eq_none_iff {seen l : List Arrival} :
    clashAfter? seen l = none ↔
      (l.map (·.target)).Nodup ∧ ∀ a ∈ l, ∀ b ∈ seen, b.target ≠ a.target := by
  induction l generalizing seen with
  | nil => simp [clashAfter?]
  | cons a rest ih =>
    rw [clashAfter?]
    cases hfind : seen.find? (·.target = a.target) with
    | some b =>
      have hb : b.target = a.target := by simpa using List.find?_some hfind
      refine iff_of_false (Option.some_ne_none _) fun h ↦ ?_
      exact absurd hb (h.2 a List.mem_cons_self b (List.mem_of_find?_eq_some hfind))
    | none =>
      have hseen : ∀ b ∈ seen, b.target ≠ a.target := by simpa using List.find?_eq_none.1 hfind
      -- the rest is free of clashes with `a` among what has been seen
      rw [ih, List.map_cons, List.nodup_cons]
      refine ⟨fun h' ↦ ?_, fun h' ↦ ?_⟩
      · obtain ⟨hnodup, hnew⟩ := h'
        refine ⟨⟨fun hmem ↦ ?_, hnodup⟩, fun c hc b hb ↦ ?_⟩
        · obtain ⟨c, hc, heq⟩ := List.mem_map.1 hmem
          exact hnew c hc a List.mem_cons_self heq.symm
        · rcases List.mem_cons.1 hc with rfl | hc
          · exact hseen b hb
          · exact hnew c hc b (List.mem_cons_of_mem a hb)
      · obtain ⟨⟨hfresh, hnodup⟩, hnew⟩ := h'
        refine ⟨hnodup, fun c hc b hb ↦ ?_⟩
        rcases List.mem_cons.1 hb with rfl | hb
        · exact fun heq ↦ hfresh (List.mem_map.2 ⟨c, hc, heq.symm⟩)
        · exact hnew c (List.mem_cons_of_mem a hc) b hb

/-- There is no clash exactly when no state is entered twice. -/
theorem clash?_eq_none_iff {l : List Arrival} :
    clash? l = none ↔ (l.map (·.target)).Nodup := by
  rw [clash?, clashAfter?_eq_none_iff]
  exact and_iff_left fun _ _ _ hb ↦ absurd hb List.not_mem_nil

/-- A clash is in the first of two lists, or it is met after all arrivals of that list. -/
theorem clashAfter?_append (seen l k : List Arrival) :
    clashAfter? seen (l ++ k) = (clashAfter? seen l).or (clashAfter? (l.reverse ++ seen) k) := by
  induction l generalizing seen with
  | nil => rfl
  | cons a l ih =>
    rw [List.cons_append, clashAfter?, clashAfter?]
    cases seen.find? (·.target = a.target) with
    | some b => rfl
    | none =>
      dsimp only
      rw [ih, List.reverse_cons, List.append_assoc, List.singleton_append]

/-- Arrivals that clash stand one after the other and have one target. -/
theorem sublist_of_clashAfter? {seen l : List Arrival} {a b : Arrival}
    (h : clashAfter? seen l = some (a, b)) :
    [a, b].Sublist (seen.reverse ++ l) ∧ a.target = b.target := by
  induction l generalizing seen with
  | nil => cases h
  | cons c rest ih =>
    rw [clashAfter?] at h
    cases hfind : seen.find? (·.target = c.target) with
    | some d =>
      rw [hfind] at h
      cases h
      have hmem : a ∈ seen.reverse := List.mem_reverse.2 (List.mem_of_find?_eq_some hfind)
      have hsub : [b].Sublist (b :: rest) := (List.nil_sublist rest).cons_cons b
      exact ⟨(List.singleton_sublist.2 hmem).append hsub, by simpa using List.find?_some hfind⟩
    | none =>
      rw [hfind] at h
      obtain ⟨hsub, htarget⟩ := ih h
      rw [List.reverse_cons, List.append_assoc] at hsub
      exact ⟨hsub, htarget⟩

/-- A clash is two arrivals of the list, in their order, that enter one state. -/
theorem sublist_of_clash? {l : List Arrival} {a b : Arrival} (h : clash? l = some (a, b)) :
    [a, b].Sublist l ∧ a.target = b.target := by
  simpa using sublist_of_clashAfter? h

/-- Different arrivals at one state come by different edges. -/
theorem Arrival.edge_ne {a b : Arrival} (hne : a ≠ b) (htarget : a.target = b.target) :
    (a.source, a.index) ≠ (b.source, b.index) := by
  intro heq
  obtain ⟨hsource, hindex⟩ := Prod.mk.inj heq
  cases a
  cases b
  cases hsource
  cases hindex
  cases htarget
  exact hne rfl

namespace Transducer

/-! ### Matches -/

/-- What is found among the first edges is one of them and reads the symbol. -/
theorem mem_matchingBelow {edges : Array Edge} {x : Symbol} {n i : Nat} {e : Edge} :
    (e, i) ∈ matchingBelow edges x n ↔ i < n ∧ edges[i]? = some e ∧ x ∈ e.range := by
  fun_induction matchingBelow edges x n <;> grind

/-- A longer leading part has no more matches if the edges it adds do not match. -/
theorem matchingBelow_eq_of_le {edges : Array Edge} {x : Symbol} {k n : Nat} (hkn : k ≤ n)
    (h : ∀ i e, k ≤ i → edges[i]? = some e → x ∉ e.range) :
    matchingBelow edges x n = matchingBelow edges x k := by
  induction n, hkn using Nat.le_induction with
  | base => rfl
  | succ n hkn ih =>
    rw [matchingBelow]
    cases he : edges[n]? with
    | none => exact ih
    | some e =>
      dsimp only
      rw [if_neg (h n e hkn he)]
      exact ih

variable {m : Transducer}

theorem getElem?_edges {s : StateId} {i : Nat} {e : Edge} (h : (m.edges s)[i]? = some e) :
    ∃ st ∈ m.states, st.edges[i]? = some e := by
  rw [edges] at h
  cases hs : m.states[s]? with
  | none => simp [hs] at h
  | some st => exact ⟨st, Array.mem_of_getElem? hs, by simpa [hs] using h⟩

/-- Every edge leads to a state of the table. -/
theorem target_lt_size {s : StateId} {i : Nat} {e : Edge} (h : (m.edges s)[i]? = some e) :
    e.target < m.size := by
  obtain ⟨st, hst, he⟩ := getElem?_edges h
  exact m.target_lt st hst e (Array.mem_of_getElem? he)

/-- The edges of a state are sorted. -/
theorem pairwise_edges (m : Transducer) (s : StateId) :
    (m.edges s).toList.Pairwise (Edge.le · ·) := by
  rw [edges]
  cases hs : m.states[s]? with
  | none => exact .nil
  | some st => exact m.sorted st (Array.mem_of_getElem? hs)

/-- The least symbols of the edges of a state ascend with the index. -/
theorem lower_le_lower {s : StateId} {i j : Nat} (hi : i < (m.edges s).size)
    (hj : j < (m.edges s).size) (hij : i ≤ j) :
    (m.edges s)[i].range.lower ≤ (m.edges s)[j].range.lower := by
  rcases Nat.lt_or_eq_of_le hij with hlt | rfl
  · have hle := List.pairwise_iff_getElem.1 (m.pairwise_edges s) i j (by simpa) (by simpa) hlt
    exact Edge.lower_le_of_le (by simpa using hle)
  · exact UInt32.le_refl _

/-- Binary search skips no match: the matches are found in the whole list. -/
theorem matching_eq_matchingBelow (s : StateId) (x : Symbol) :
    m.matching s x = matchingBelow (m.edges s) x (m.edges s).size := by
  refine (matchingBelow_eq_of_le (partitionPoint_le_size _ _) fun i e hi he hx ↦ ?_).symm
  obtain ⟨hlt, rfl⟩ := Array.getElem?_eq_some_iff.1 he
  have hiff := lt_partitionPoint_iff (p := fun e : Edge ↦ decide (e.range.lower ≤ x))
    (a := m.edges s) (fun i j hi hj hij hle ↦ ?_) hlt
  · exact absurd (hiff.2 (decide_eq_true hx.1)) (Nat.not_lt.2 hi)
  · exact decide_eq_true (UInt32.le_trans (lower_le_lower hi hj hij) (of_decide_eq_true hle))

/-- **The matches are the edges that read the symbol**, from the back of the list. -/
theorem matching_eq_filter (s : StateId) (x : Symbol) :
    m.matching s x = ((m.edges s).toList.zipIdx.reverse).filter fun e ↦ x ∈ e.1.range := by
  rw [matching_eq_matchingBelow, matchingBelow_eq (Nat.le_refl _), List.take_of_length_le]
  exact Nat.le_of_eq Array.length_toList

/-- **The search finds the edges of the state that read the symbol**, and no others. -/
theorem mem_matching {s : StateId} {x : Symbol} {e : Edge} {i : Nat} :
    (e, i) ∈ m.matching s x ↔ (m.edges s)[i]? = some e ∧ x ∈ e.range := by
  rw [matching_eq_matchingBelow, mem_matchingBelow]
  refine and_iff_right_of_imp fun h ↦ ?_
  exact (Array.getElem?_eq_some_iff.1 h.1).1

/-- No edge is matched twice. -/
theorem nodup_matching (s : StateId) (x : Symbol) : (m.matching s x).Nodup := by
  rw [matching_eq_filter]
  have hidx : ((m.edges s).toList.zipIdx.map Prod.snd).Nodup := by
    rw [List.zipIdx_map_snd]
    exact List.nodup_range'
  exact ((List.nodup_reverse.2 (List.Nodup.of_map _ hidx)).filter _)

/-- The matched edges are the reversed list, filtered. -/
theorem map_fst_matching (m : Transducer) (s : StateId) (x : Symbol) :
    (m.matching s x).map (·.1) = (m.edges s).toList.reverse.filter fun e ↦ x ∈ e.range := by
  have hedges : (m.edges s).toList.reverse = (m.edges s).toList.zipIdx.reverse.map (·.1) := by
    rw [List.map_reverse, List.zipIdx_map_fst]
  rw [matching_eq_filter, hedges, List.filter_map]
  rfl

/-- The matches of a state lead to the targets of its edges that read the symbol. -/
theorem perm_targets_matching (m : Transducer) (s : StateId) (x : Symbol) :
    ((m.matching s x).map (·.1.target)).Perm
      (((m.edges s).toList.filter fun e ↦ x ∈ e.range).map (·.target)) := by
  have htargets : (m.matching s x).map (·.1.target) =
      ((m.edges s).toList.reverse.filter fun e ↦ x ∈ e.range).map (·.target) := by
    rw [← map_fst_matching, List.map_map]
    rfl
  rw [htargets]
  exact ((List.reverse_perm _).filter _).map _

/-! ### Arrivals -/

theorem arrivals_append (m : Transducer) (l k : List StateId) (x : Symbol) :
    m.arrivals (l ++ k) x = m.arrivals l x ++ m.arrivals k x := List.flatMap_append

theorem arrivals_singleton (m : Transducer) (s : StateId) (x : Symbol) :
    m.arrivals [s] x = (m.matching s x).map fun e ↦ ⟨s, e.2, e.1.target⟩ :=
  List.flatMap_singleton ..

/-- An arrival goes along an edge of a source that reads the symbol. -/
theorem mem_arrivals {sources : List StateId} {x : Symbol} {a : Arrival} :
    a ∈ m.arrivals sources x ↔
      a.source ∈ sources ∧ ∃ e, (m.edges a.source)[a.index]? = some e ∧ x ∈ e.range ∧
        e.target = a.target := by
  simp only [arrivals, List.mem_flatMap, List.mem_map]
  refine ⟨fun h ↦ ?_, fun h ↦ ?_⟩
  · obtain ⟨s, hs, ⟨e, i⟩, he, rfl⟩ := h
    obtain ⟨hedge, hx⟩ := mem_matching.1 he
    exact ⟨hs, e, hedge, hx, rfl⟩
  · obtain ⟨hs, e, hedge, hx, htarget⟩ := h
    exact ⟨a.source, hs, (e, a.index), mem_matching.2 ⟨hedge, hx⟩, by rw [htarget]⟩

/-- Where there is no state there are no arrivals. -/
theorem arrivals_eq_nil {sources : List StateId} (h : ∀ s ∈ sources, m.size ≤ s) (x : Symbol) :
    m.arrivals sources x = [] := by
  refine List.eq_nil_iff_forall_not_mem.2 fun a ha ↦ ?_
  obtain ⟨hs, e, he, -, -⟩ := mem_arrivals.1 ha
  rw [edges, Array.getElem?_eq_none (h a.source hs)] at he
  cases he

/-- No arrival is listed twice if no source is. -/
theorem nodup_arrivals {sources : List StateId} (h : sources.Nodup) (x : Symbol) :
    (m.arrivals sources x).Nodup := by
  refine List.nodup_flatMap.2 ⟨fun s _ ↦ ?_, h.imp fun {s t} hne ↦ ?_⟩
  · refine (nodup_matching s x).map_on fun ⟨e, i⟩ he ⟨f, j⟩ hf heq ↦ ?_
    have hij : i = j := congrArg Arrival.index heq
    subst hij
    have hef : some e = some f := (mem_matching.1 he).1.symm.trans (mem_matching.1 hf).1
    rw [Option.some.inj hef]
  · intro a ha hb
    obtain ⟨⟨e, i⟩, -, rfl⟩ := List.mem_map.1 ha
    obtain ⟨⟨f, j⟩, -, heq⟩ := List.mem_map.1 hb
    exact hne (congrArg Arrival.source heq).symm

/-- The arrivals do not depend on the order of the sources, up to their own order. -/
theorem perm_arrivals {sources sources' : List StateId} (h : sources.Perm sources') (x : Symbol) :
    (m.arrivals sources x).Perm (m.arrivals sources' x) :=
  h.flatMap_right _

/-! ### Acceptance -/

/-- The accepting states with their outputs. -/
theorem mem_accepting {states : List StateId} {s : StateId} {out : Output} :
    (s, out) ∈ m.accepting states ↔ s ∈ states ∧ m.final? s = some out := by
  simp only [accepting, List.mem_filterMap, Option.map_eq_some_iff]
  refine ⟨fun h ↦ ?_, fun h ↦ ?_⟩
  · obtain ⟨t, ht, f, hf, heq⟩ := h
    cases heq
    exact ⟨ht, hf⟩
  · obtain ⟨hs, hf⟩ := h
    exact ⟨s, hs, out, hf, rfl⟩

/-- Each state accepts once. -/
theorem map_fst_accepting_sublist (states : List StateId) :
    ((m.accepting states).map (·.1)).Sublist states := by
  induction states with
  | nil => exact .slnil
  | cons s states ih =>
    rw [accepting, List.filterMap_cons, ← accepting]
    cases m.final? s with
    | none => exact ih.cons s
    | some out => exact ih.cons_cons s

/-- States that accept are listed in the order of the states. -/
theorem sublist_of_sublist_accepting {states : List StateId} {s t : StateId} {f g : Output}
    (h : [(s, f), (t, g)].Sublist (m.accepting states)) : [s, t].Sublist states :=
  (h.map Prod.fst).trans (map_fst_accepting_sublist states)

end Transducer

end Transduction
