import Transduction.Proofs.PositionGraph.Listing

/-!
# Graphs that list the same

Two graphs are **alike** if they emit the same on the empty word and list the same occurrences,
first states, last states and passages, each as often, but not in one order. Their machines are
equal (`Alike.ofGraph_eq`), for the same reason for which the order of listing cannot be observed:
edges are sorted, and what sorting does not tell apart is equal.

The grouping of a concatenation of three parts is of this kind (`alike_concat_assoc`). A part in the
middle that accepts the empty word is passed over in two steps by the one grouping and by the other:
on leaving what is before it, or on entering what is after it, its output is emitted between the two
(`Boundary.after_passages`). So the same passages are added, but at other nodes and in another
order. The grouping of a union of three parts changes nothing that is listed (`alike_union_assoc`),
and exchanging its branches changes the order only (`alike_union_comm`).

Being alike is kept by every node around the graphs, so a change inside of a large expression is a
change of this kind.
-/

namespace Transduction

/-! ### Values and boundaries in any order -/

/-- Where no number stands twice, a value is found in any order. -/
theorem Numbered.head?_valuesAt_of_perm {α : Type} {l k : List (Nat × α)}
    (hnodup : (l.map (·.1)).Nodup) (h : l.Perm k) (i : Nat) :
    (valuesAt l i).head? = (valuesAt k i).head? := by
  have hnodup' : (k.map (·.1)).Nodup := (h.map _).nodup_iff.1 hnodup
  refine Option.ext fun a ↦ ?_
  rw [head?_valuesAt_eq_some_iff hnodup, head?_valuesAt_eq_some_iff hnodup', h.mem_iff]

namespace Boundary

variable {exits exits' entries entries' : Boundary}

/-- The order of ends and of beginnings does not matter for which passages there are. -/
theorem passages_perm (hexits : exits.Perm exits') (hentries : entries.Perm entries') :
    (exits.passages entries).Perm (exits'.passages entries') :=
  (hexits.flatMap_right _).trans (List.Perm.flatMap_left _ fun _ _ ↦ hentries.map _)

/-- Beginnings can be gone through in two parts. -/
theorem passages_append_perm (exits b c : Boundary) :
    (exits.passages (b ++ c)).Perm (exits.passages b ++ exits.passages c) := by
  simp only [passages, List.map_append]
  exact (List.flatMap_append_perm exits _ _).symm

/-- An output between two parts is emitted on leaving the one or on entering the other. -/
theorem after_passages (out : Output) (exits entries : Boundary) :
    (exits.after out).passages entries = exits.passages (entries.before out) := by
  simp only [passages, after, before, List.flatMap_map, List.map_map]
  refine List.flatMap_congr fun x _ ↦ List.map_congr_left fun y _ ↦ ?_
  show (x.1, y.1, x.2 ++ out ++ y.2) = (x.1, y.1, x.2 ++ (out ++ y.2))
  rw [List.append_assoc]

end Boundary

namespace PositionGraph

variable {g g' l l' r r' b b' : PositionGraph}

/-- The same part with everything listed in some order. -/
structure Alike (g g' : PositionGraph) : Prop where
  /-- The same output on the empty word. -/
  empty? : g.empty? = g'.empty?
  /-- The same occurrences. -/
  ranges : g.ranges.Perm g'.ranges
  /-- The same first states. -/
  first : g.first.Perm g'.first
  /-- The same last states. -/
  last : g.last.Perm g'.last
  /-- The same passages. -/
  follow : g.follow.Perm g'.follow

namespace Alike

theorem refl (g : PositionGraph) : g.Alike g := ⟨rfl, .rfl, .rfl, .rfl, .rfl⟩

theorem symm (h : g.Alike g') : g'.Alike g :=
  ⟨h.empty?.symm, h.ranges.symm, h.first.symm, h.last.symm, h.follow.symm⟩

theorem trans {g'' : PositionGraph} (h : g.Alike g') (h' : g'.Alike g'') : g.Alike g'' :=
  ⟨h.empty?.trans h'.empty?, h.ranges.trans h'.ranges, h.first.trans h'.first,
    h.last.trans h'.last, h.follow.trans h'.follow⟩

/-! ### Inside of other graphs -/

theorem union (hl : l.Alike l') (hr : r.Alike r') (out : Output) :
    (PositionGraph.union l r out).Alike (.union l' r' out) where
  empty? := by rw [PositionGraph.empty?, PositionGraph.empty?, hl.empty?, hr.empty?]
  ranges := by
    rw [ranges_union, ranges_union]
    exact hl.ranges.append hr.ranges
  first := hl.first.append hr.first
  last := (hl.last.append hr.last).map _
  follow := by
    rw [follow_union, follow_union]
    exact hl.follow.append hr.follow

theorem concat (hl : l.Alike l') (hr : r.Alike r') (out : Output) :
    (PositionGraph.concat l r out).Alike (.concat l' r' out) where
  empty? := by rw [PositionGraph.empty?, PositionGraph.empty?, hl.empty?, hr.empty?]
  ranges := by
    rw [ranges_concat, ranges_concat]
    exact hl.ranges.append hr.ranges
  first := by
    rw [PositionGraph.first, PositionGraph.first, hl.empty?]
    refine hl.first.append ?_
    split
    · exact hr.first.map _
    · exact .nil
  last := by
    rw [PositionGraph.last, PositionGraph.last, hr.empty?]
    refine (List.Perm.append ?_ hr.last).map _
    split
    · exact hl.last.map _
    · exact .nil
  follow := by
    rw [follow_concat, follow_concat]
    exact (Boundary.passages_perm hl.last hr.first).append (hl.follow.append hr.follow)

theorem star (hb : b.Alike b') (out : Output) :
    (PositionGraph.star b out).Alike (.star b' out) where
  empty? := rfl
  ranges := hb.ranges
  first := hb.first
  last := hb.last.map _
  follow := (Boundary.passages_perm hb.last hb.first).append hb.follow

theorem emit (hb : b.Alike b') (out : Output) : (b.emit out).Alike (b'.emit out) where
  empty? := by rw [emit_empty?, emit_empty?, hb.empty?]
  ranges := by
    rw [emit_ranges, emit_ranges]
    exact hb.ranges
  first := by
    rw [emit_first, emit_first]
    exact hb.first
  last := by
    rw [emit_last, emit_last]
    exact hb.last.map _
  follow := by
    rw [emit_follow, emit_follow]
    exact hb.follow

end Alike

/-! ### Three parts in a row -/

/-- What is emitted on the empty word does not depend on the grouping. -/
theorem empty?_concat_assoc (a b c : PositionGraph) :
    (concat (concat a b []) c []).empty? = (concat a (concat b c []) []).empty? := by
  simp only [empty?_concat_nil]
  rcases a.empty? with - | x
  · rfl
  rcases b.empty? with - | y
  · rfl
  rcases c.empty? with - | z
  · rfl
  · exact congrArg some (List.append_assoc x y z)

/-- Both groupings have the same first states, in the same order. -/
theorem first_concat_assoc (a b c : PositionGraph) :
    (concat (concat a b []) c []).first = (concat a (concat b c []) []).first := by
  simp only [first, empty?_concat_nil]
  rcases a.empty? with - | x
  · simp
  rcases b.empty? with - | y
  · simp
  · simp [Boundary.before_append, Boundary.before_before]

/-- Both groupings have the same last states, in the same order. -/
theorem last_concat_assoc (a b c : PositionGraph) :
    (concat (concat a b []) c []).last = (concat a (concat b c []) []).last := by
  simp only [last, empty?_concat_nil, Boundary.after_nil]
  rcases c.empty? with - | z
  · simp
  rcases b.empty? with - | y
  · simp
  · simp [Boundary.after_append, Boundary.after_after]

/-- **The same passages are added.** Those from the first part to the third one are added in between
the first two by the one grouping, and in between the last two by the other. -/
theorem follow_concat_assoc_perm (a b c : PositionGraph) :
    (concat (concat a b []) c []).follow.Perm (concat a (concat b c []) []).follow := by
  -- what the outer and the inner node of each grouping add; all else comes from the parts
  have hadded : ((concat a b []).last.passages c.first ++ a.last.passages b.first).Perm
      (a.last.passages (concat b c []).first ++ b.last.passages c.first) := by
    rw [last, first, Boundary.after_nil]
    rcases b.empty? with - | y
    · rw [List.nil_append, List.append_nil]
      exact List.perm_append_comm
    · dsimp only
      rw [Boundary.append_passages, Boundary.after_passages]
      refine List.perm_append_comm.trans ?_
      rw [← List.append_assoc]
      exact (Boundary.passages_append_perm _ _ _).symm.append_right _
  rw [follow_concat, follow_concat, follow_concat, follow_concat, List.append_assoc,
    List.append_assoc, ← List.append_assoc]
  refine (hadded.append_right _).trans ?_
  rw [List.append_assoc]
  exact List.perm_append_comm_assoc _ _ _ |>.append_left _

/-- **Both groupings of a concatenation are alike.** -/
theorem alike_concat_assoc (a b c : PositionGraph) :
    (concat (concat a b []) c []).Alike (concat a (concat b c []) []) where
  empty? := empty?_concat_assoc a b c
  ranges := by simp
  first := .of_eq (first_concat_assoc a b c)
  last := .of_eq (last_concat_assoc a b c)
  follow := follow_concat_assoc_perm a b c

/-! ### Branches of a union -/

/-- **Both groupings of a union are alike.** -/
theorem alike_union_assoc (a b c : PositionGraph) :
    (union (union a b []) c []).Alike (union a (union b c []) []) where
  empty? := by
    simp [empty?, Option.or_assoc]
  ranges := by simp
  first := by simp [first]
  last := by simp [last]
  follow := by simp

/-- Branches can be exchanged if they emit the same on the empty word, should both accept it. -/
theorem alike_union_comm
    (hagree : ∀ x y, l.empty? = some x → r.empty? = some y → x = y) :
    (union l r []).Alike (union r l []) where
  empty? := by
    rw [empty?, empty?]
    rcases hx : l.empty? with - | x <;> rcases hy : r.empty? with - | y
    · rfl
    · rfl
    · rfl
    · rw [hagree x y hx hy]
  ranges := by
    rw [ranges_union, ranges_union]
    exact List.perm_append_comm
  first := List.perm_append_comm
  last := List.perm_append_comm.map _
  follow := by
    rw [follow_union, follow_union]
    exact List.perm_append_comm

/-! ### The machine -/

namespace Alike

section

variable (h : g.Alike g')

include h

theorem ids_perm : g.ids.Perm g'.ids := by
  rw [← map_fst_ranges, ← map_fst_ranges]
  exact h.ranges.map _

theorem bound_eq : g.bound = g'.bound := by
  have hcomm : LeftCommutative fun (s : StateId) (n : Nat) ↦ max (s + 1) n :=
    ⟨fun s t n ↦ Nat.max_left_comm (s + 1) (t + 1) n⟩
  exact h.ids_perm.foldr_eq 0

variable (hg : g.Coherent)

include hg

theorem rangeOf?_eq : g.rangeOf? = g'.rangeOf? := by
  have hnodup : (g.ranges.map (·.1)).Nodup := map_fst_ranges g ▸ hg.nodup_ids
  funext s
  rw [rangeOf?, rangeOf?, Numbered.head?_valuesAt_of_perm hnodup h.ranges]

/-- A state has the same edges, sorted. -/
theorem sort_follow_eq (s : StateId) :
    Ascending.sort Edge.le (edgesTo g.rangeOf? (Numbered.valuesAt g.follow s)) =
      Ascending.sort Edge.le (edgesTo g'.rangeOf? (Numbered.valuesAt g'.follow s)) := by
  rw [← h.rangeOf?_eq hg]
  refine (sort_edgesTo_eq_of_perm (Numbered.valuesAt_perm h.follow.symm s) fun ho hp ↦ ?_).symm
  exact follow_unique hg (Numbered.mem_valuesAt.1 ho) (Numbered.mem_valuesAt.1 hp)

/-- The initial state has the same edges, sorted. -/
theorem sort_first_eq : Ascending.sort Edge.le (edgesTo g.rangeOf? g.first) =
    Ascending.sort Edge.le (edgesTo g'.rangeOf? g'.first) := by
  rw [← h.rangeOf?_eq hg]
  exact (sort_edgesTo_eq_of_perm h.first.symm fun ho hp ↦ first_unique hg ho hp).symm

/-- **Graphs that are alike have one machine.** -/
theorem ofGraph_eq : Transducer.ofGraph g = Transducer.ofGraph g' := by
  have hlast : ∀ s, (Numbered.valuesAt g.last s).head? = (Numbered.valuesAt g'.last s).head? :=
    Numbered.head?_valuesAt_of_perm (nodup_last hg.nodup_ids) h.last
  refine Transducer.ext_parts ?_
  rw [Transducer.ofGraph, Transducer.ofGraph, Transducer.parts_ofRows, Transducer.parts_ofRows,
    rows_eq, rows_eq]
  simp only [List.map_append, List.map_map, Function.comp_def, List.map_cons, List.map_nil,
    h.sort_follow_eq hg, h.sort_first_eq hg, hlast, h.bound_eq, h.empty?]

end

end Alike

end PositionGraph

end Transduction
