import Transduction.PositionGraph.Listing
import Transduction.Proofs.Compile
import Transduction.Proofs.PositionGraph.History
import Transduction.Proofs.Transducer.Parts

/-!
# The order of listing cannot be observed

In whatever order tables are listed, the same passages are collected, each as often
(`followBy_perm`). So a state has the same edges, but in another order; it is their sorting that has
to make up for it. The order by which edges are sorted does not look at outputs, and a sort that
keeps edges where they stand would show the order of listing if two edges agreed in all but their
outputs. But edges into one state agree in their outputs too (`follow_unique`): what sorting does
not tell apart is equal, and there is one sorted list (`sort_edgesTo_eq_of_perm`).

A final output is written once for each state, so nothing is written over (`finalsBy_eq`).
-/

namespace Transduction

/-! ### Values in any order -/

namespace Numbered

variable {α : Type} {l k : List (Nat × α)} {i : Nat}

theorem valuesAt_perm (h : l.Perm k) (i : Nat) : (valuesAt l i).Perm (valuesAt k i) :=
  (h.filter _).map _

/-- Where no number stands twice, the last value of a number in any order is its first value. -/
theorem getLast?_valuesAt_of_perm (hnodup : (l.map (·.1)).Nodup) (h : k.Perm l) (i : Nat) :
    (valuesAt k i).getLast? = (valuesAt l i).head? := by
  have hperm := valuesAt_perm h i
  rcases hl : valuesAt l i with - | ⟨a, rest⟩
  · rw [hl] at hperm
    rw [hperm.eq_nil]
    rfl
  · have ha : (i, a) ∈ l := mem_valuesAt.1 (hl ▸ List.mem_cons_self)
    have hnodup' : (k.map (·.1)).Nodup := (h.map _).nodup_iff.2 hnodup
    rw [valuesAt_eq_singleton hnodup' (h.mem_iff.2 ha)]
    rfl

/-- What is written last into a slot stays there. -/
theorem getElem?_foldl_set {β : Type} (f : α → β) (l : List (Nat × α)) (table : List β) (i : Nat) :
    (l.foldl (fun table x ↦ table.set x.1 (f x.2)) table)[i]? =
      table[i]?.map fun old ↦ ((valuesAt l i).getLast?.map f).getD old := by
  induction l generalizing table with
  | nil => simp
  | cons x l ih =>
    rw [List.foldl_cons, ih, valuesAt_cons, List.getElem?_set]
    by_cases hi : x.1 = i
    · subst hi
      rw [if_pos rfl, if_pos rfl, List.getLast?_cons]
      by_cases hlt : x.1 < table.length
      · rw [if_pos hlt, List.getElem?_eq_getElem hlt]
        cases (valuesAt l x.1).getLast? <;> rfl
      · rw [if_neg hlt, List.getElem?_eq_none (Nat.not_lt.1 hlt)]
        rfl
    · rw [if_neg hi, if_neg hi]

end Numbered

namespace Listing

/-- Places that are counted and not looked at make no difference. -/
theorem flatMap_zipIdx {α β : Type} (l : List α) (f : α → List β) :
    (l.zipIdx.flatMap fun x ↦ f x.1) = l.flatMap f := by
  conv => rhs; rw [← List.zipIdx_map_fst 0 l, List.flatMap_map]

variable (L : Listing)

/-- However ends and beginnings are listed, the passages are the same. -/
theorem passages_perm (node : Nat) (exits entries : Boundary) :
    (L.passages node exits entries).Perm (exits.passages entries) := by
  -- the number of a turn chooses an order only
  have hturns := flatMap_zipIdx (L.order (.exits node) exits) fun x ↦
    entries.map fun y ↦ (x.1, y.1, x.2 ++ y.2)
  refine (List.Perm.flatMap_left _ fun x _ ↦ (L.perm _ entries).map _).trans ?_
  rw [hturns]
  exact (L.perm _ exits).flatMap_right _

/-- Every table is listed from the back. -/
def backward : Listing := ⟨fun _ b ↦ b.reverse, fun _ b ↦ b.reverse_perm⟩

end Listing

namespace PositionGraph

variable {e : Expr} {g : PositionGraph} {n n' : StateId} {targets targets' : Boundary}

/-- The passages of a graph are those that its nodes add. -/
theorem follow_eq_flatMap_nodes (g : PositionGraph) :
    g.follow = g.nodes.flatMap fun q ↦ q.joint.1.passages q.joint.2 := by
  induction g with
  | position p => rfl
  | union l r out ihl ihr =>
    rw [follow_union, nodes, List.flatMap_cons, List.flatMap_append, ← ihl, ← ihr]
    rfl
  | concat l r out ihl ihr =>
    rw [follow_concat, nodes, List.flatMap_cons, List.flatMap_append, ← ihl, ← ihr]
    rfl
  | star b out ih =>
    rw [follow_star, nodes, List.flatMap_cons, ← ih]
    rfl

/-- **The same passages are collected**, each as often. -/
theorem followBy_perm (L : Listing) (g : PositionGraph) : (g.followBy L).Perm g.follow := by
  have hnodes := Listing.flatMap_zipIdx g.nodes fun q ↦ q.joint.1.passages q.joint.2
  rw [followBy, walk_eq_flatMap, List.flatMap_singleton, follow_eq_flatMap_nodes, ← hnodes]
  exact List.Perm.flatMap_left _ fun q _ ↦ L.passages_perm q.2 q.1.joint.1 q.1.joint.2

/-- **Sorting hides the order** in which edges are collected, if those into one state emit the
same. -/
theorem sort_edgesTo_eq_of_perm (h : targets'.Perm targets)
    (hunique : ∀ {t o p}, (t, o) ∈ targets → (t, p) ∈ targets → o = p) :
    Ascending.sort Edge.le (edgesTo g.rangeOf? targets') =
      Ascending.sort Edge.le (edgesTo g.rangeOf? targets) := by
  have hperm : (Ascending.sort Edge.le (edgesTo g.rangeOf? targets')).Perm
      (Ascending.sort Edge.le (edgesTo g.rangeOf? targets)) :=
    calc Ascending.sort Edge.le (edgesTo g.rangeOf? targets')
      _ |>.Perm (edgesTo g.rangeOf? targets') := Ascending.sort_perm _
      _ |>.Perm (edgesTo g.rangeOf? targets) := h.filterMap _
      _ |>.Perm (Ascending.sort Edge.le (edgesTo g.rangeOf? targets)) :=
        (Ascending.sort_perm _).symm
  refine hperm.eq_of_pairwise (fun d d' hd hd' hle hge ↦ ?_)
    (Ascending.pairwise_sort Edge.le_trans Edge.le_total _)
    (Ascending.pairwise_sort Edge.le_trans Edge.le_total _)
  -- edges that are not told apart lead to one state, so they read the same and emit the same
  obtain ⟨r, t, o⟩ := d
  obtain ⟨r', t', o'⟩ := d'
  obtain rfl : t = t' := Edge.target_eq_of_le hle hge
  obtain ⟨ht, c, hc, hr⟩ := mem_edgesTo_iff.1 (Ascending.mem_sort.1 (hperm.mem_iff.1 hd))
  obtain ⟨ht', c', hc', hr'⟩ := mem_edgesTo_iff.1 (Ascending.mem_sort.1 hd')
  obtain rfl : c = c' := Option.some.inj (hc.symm.trans hc')
  obtain rfl : r = r' := hr.trans hr'.symm
  obtain rfl : o = o' := hunique ht ht'
  rfl

/-- **No final output is written over.** -/
theorem finalsBy_eq (hg : g.Coherent) (L : Listing) : g.finalsBy L = g.rows.map (·.2) := by
  have hnodup := nodup_last hg.nodup_ids
  refine List.ext_getElem? fun s ↦ ?_
  rw [finalsBy, Numbered.getElem?_foldl_set,
    Numbered.getLast?_valuesAt_of_perm hnodup (L.perm .last g.last), List.getElem?_map]
  rcases Nat.lt_trichotomy s g.bound with hlt | rfl | hgt
  · rw [List.getElem?_append_left (by rwa [List.length_replicate]),
      List.getElem?_replicate_of_lt hlt, getElem?_rows_of_lt hlt, Option.map_some]
    cases (Numbered.valuesAt g.last s).head? <;> rfl
  · have hnone : Numbered.valuesAt g.last g.bound = [] := by
      refine List.eq_nil_iff_forall_not_mem.2 fun o ho ↦ ?_
      exact Nat.lt_irrefl _ (lt_bound (mem_ids_of_mem_last (Numbered.mem_valuesAt.1 ho)))
    rw [List.getElem?_append_right (by rw [List.length_replicate]), List.length_replicate,
      Nat.sub_self, getElem?_rows_bound, hnone]
    rfl
  · rw [List.getElem?_eq_none (by simpa using Nat.succ_le_of_lt hgt), getElem?_rows_eq_none hgt]
    rfl

/-- **The collected edges are those of the table**, those of each state in the same order. -/
theorem edges_partsBy (hg : g.Coherent) (L : Listing) :
    (g.partsBy L).edges = g.rows.map fun row ↦ Ascending.sort Edge.le row.1 := by
  have hstate : ∀ s, Ascending.sort Edge.le
      (edgesTo g.rangeOf? (Numbered.valuesAt (g.followBy L) s)) =
        Ascending.sort Edge.le (edgesTo g.rangeOf? (Numbered.valuesAt g.follow s)) := by
    intro s
    refine sort_edgesTo_eq_of_perm (Numbered.valuesAt_perm (followBy_perm L g) s) fun ho hp ↦ ?_
    exact follow_unique hg (Numbered.mem_valuesAt.1 ho) (Numbered.mem_valuesAt.1 hp)
  have hinitial : Ascending.sort Edge.le (edgesTo g.rangeOf? (L.order .first g.first)) =
      Ascending.sort Edge.le (edgesTo g.rangeOf? g.first) :=
    sort_edgesTo_eq_of_perm (L.perm .first g.first) fun ho hp ↦ first_unique hg ho hp
  rw [partsBy, rows_eq, Numbered.toList_tabulate, List.map_append, List.map_append, List.map_map,
    List.map_map, List.map_singleton, List.map_singleton, hinitial]
  exact congrArg (· ++ _) (List.map_congr_left fun s _ ↦ hstate s)

/-- **The order of listing cannot be observed**: in whatever order tables are listed, the parts that
are collected are those of the machine, with each edge as often and in its place. -/
theorem partsBy_eq_parts_ofGraph (h : (build e).runFrom n = (.ok g, n')) (L : Listing) :
    g.partsBy L = (Transducer.ofGraph g).parts := by
  have hg := coherent_of_build h
  rw [Transducer.ofGraph, Transducer.parts_ofRows, ← edges_partsBy hg L, ← finalsBy_eq hg L]
  rfl

/-- A star in a star, all tables being listed from the back: the passages come in another order, and
the parts are those of the machine. -/
theorem nested_partsBy_backward : ∃ g n, (build Expr.nested).runFrom 0 = (.ok g, n) ∧
    g.followBy .backward ≠ g.follow ∧ g.partsBy .backward = Expr.nestedMachine.parts := by
  have hparts := partsBy_eq_parts_ofGraph (e := Expr.nested) (n := 0) rfl .backward
  exact ⟨_, _, rfl, by decide +kernel, hparts.trans (by decide +kernel)⟩

end PositionGraph

end Transduction
