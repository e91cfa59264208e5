import Mathlib.Data.Multiset.Bind
import Transduction.Proofs.Expr.Occurrences
import Transduction.Proofs.PositionGraph.Simple

/-!
# The outline of a graph

The outline of a graph forgets its outputs and its occurrences of the empty literal: what is left of
it is put together node by node, as outlines are (`outline_union`, `outline_concat`,
`outline_star`). A literal is the product of its positions, in order (`outline_ofWord`).

The occurrences of a numbered expression read what those of the expression do, in the same order
(`map_range_of_build`); so it has as many readers as the expression has places, and they read the
same (`map_snd_readings_of_build`). Its graph has the outline of the expression, up to the numbers:
place `j` is reader `j` (`outline_of_build`).
-/

namespace Transduction.PositionGraph

variable {g : PositionGraph} {e : Expr} {n n' : StateId}

/-! ### What is read -/

/-- The states that read something, with what they read, from left to right. -/
def readings (g : PositionGraph) : List (StateId × SymbolRange) :=
  g.ranges.filterMap fun x ↦ x.2.map fun c ↦ (x.1, c.1)

/-- What is read is what the range of an occurrence holds. -/
theorem mem_readings {s : StateId} {r : SymbolRange} :
    (s, r) ∈ g.readings ↔ ∃ c, (s, some c) ∈ g.ranges ∧ c.1 = r := by
  rw [readings, List.mem_filterMap]
  constructor
  · rintro ⟨⟨t, c⟩, ht, heq⟩
    obtain ⟨c, rfl, heq⟩ := Option.map_eq_some_iff.1 heq
    cases heq
    exact ⟨c, ht, rfl⟩
  · rintro ⟨c, hs, rfl⟩
    exact ⟨(s, some c), hs, rfl⟩

theorem map_fst_readings (g : PositionGraph) : g.readings.map (·.1) = g.readers := by
  rw [readings, readers, ranges]
  induction g.positions with
  | nil => rfl
  | cons p l ih =>
    rcases h : p.range with - | c
    · rw [List.map_cons, List.filterMap_cons, h, List.filter_cons_of_neg (by simp [h])]
      exact ih
    · rw [List.map_cons, List.filterMap_cons, h, List.filter_cons_of_pos (by simp [h])]
      exact congrArg (p.state :: ·) ih

theorem readings_emit (s : Output) (g : PositionGraph) : (g.emit s).readings = g.readings := by
  rw [readings, emit_ranges]
  rfl

theorem positions_chain (p : Position) (before : List Position) :
    (chain p before).positions = (p :: before).reverse := by
  induction before generalizing p with
  | nil => rfl
  | cons q before ih =>
    rw [chain, positions_concat, ih, positions_position, List.reverse_cons (a := p)]

/-- A literal reads its symbols one after the other; an empty one reads nothing. -/
theorem map_range_ofWord (n : StateId) (word : List Symbol) (out : Output) :
    (ofWord n word out).ranges.map (fun x ↦ x.2.map (·.1)) =
      (Expr.literal word out).occurrenceRanges := by
  rcases eq_or_ne word [] with rfl | hword
  · rfl
  obtain ⟨y, before, hzip, hchain⟩ := ofWord_eq_chain hword n out
  have hsymbols : word = ((y :: before).map (·.1)).reverse := by
    rw [← List.map_reverse, ← hzip, List.zipIdx_map_fst]
  have hnonempty : ¬ word.isEmpty := mt List.isEmpty_iff.1 hword
  rw [Expr.occurrenceRanges, if_neg hnonempty, ranges, hchain, positions_chain, hsymbols]
  simp [Function.comp_def, SymbolClass.single]

/-- **The occurrences of a graph read what those of the expression do**, in order. -/
theorem map_range_of_build (h : (build e).runFrom n = (.ok g, n')) :
    g.ranges.map (fun x ↦ x.2.map (·.1)) = e.occurrenceRanges := by
  induction e generalizing n n' g with
  | union l r ihl ihr =>
    obtain ⟨gl, k, gr, hl, hr, rfl, -⟩ := build_union_eq_ok h
    rw [ranges_union, List.map_append, ihl hl, ihr hr, Expr.occurrenceRanges]
  | concat l r ihl ihr =>
    obtain ⟨gl, k, gr, hl, hr, rfl⟩ := build_concat_eq_ok h
    rw [ranges_concat, List.map_append, ihl hl, ihr hr, Expr.occurrenceRanges]
  | star b ih =>
    obtain ⟨gb, hb, rfl, -⟩ := build_star_eq_ok h
    rw [ranges_star, ih hb, Expr.occurrenceRanges]
  | literal word out =>
    cases h
    exact map_range_ofWord n word out
  | range r out =>
    obtain ⟨hr, rfl, -⟩ := build_range_eq_ok h
    rfl
  | emit b out ih =>
    obtain ⟨gb, hb, rfl⟩ := build_emit_eq_ok h
    rw [emit_ranges, ih hb, Expr.occurrenceRanges]
  | var name => cases h

/-- **The states that read something read what the places of the expression do**, in order. -/
theorem map_snd_readings_of_build (h : (build e).runFrom n = (.ok g, n')) :
    g.readings.map (·.2) = e.ranges := by
  rw [← Expr.reduceOption_occurrenceRanges, ← map_range_of_build h, readings, List.reduceOption,
    List.filterMap_map, List.map_filterMap]
  refine List.filterMap_congr fun x _ ↦ ?_
  rw [Option.map_map]
  rfl

theorem length_readers_of_build (h : (build e).runFrom n = (.ok g, n')) :
    g.readers.length = e.ranges.length := by
  rw [← map_fst_readings, ← map_snd_readings_of_build h, List.length_map, List.length_map]

/-! ### Node by node -/

/-- The outline of a graph, its places being the states that read something. -/
def outline (g : PositionGraph) : Outline StateId where
  nullable := g.empty?.isSome
  first := g.first.map (·.1)
  last := g.last.map (·.1)
  follow := g.arrows

theorem outline_position (p : Position) :
    (position p).outline = .ofList (position p).readers := by
  rw [outline, empty?, first, last, readers_position]
  cases p.range <;> rfl

theorem outline_union (l r : PositionGraph) (out : Output) :
    (union l r out).outline = l.outline.union r.outline := by
  have hnullable : (union l r out).outline.nullable = (l.outline.union r.outline).nullable := by
    dsimp only [outline, Outline.union]
    rw [empty?]
    cases l.empty? <;> cases r.empty? <;> rfl
  have hfirst : (union l r out).outline.first = (l.outline.union r.outline).first :=
    congrArg Multiset.ofList List.map_append
  have hlast : (union l r out).outline.last = (l.outline.union r.outline).last := by
    dsimp only [outline, Outline.union]
    rw [last, Boundary.map_fst_after, List.map_append]
    rfl
  have hfollow : (union l r out).outline.follow = (l.outline.union r.outline).follow :=
    congrArg Multiset.ofList (arrows_union l r out)
  exact Outline.ext hnullable hfirst hlast hfollow

theorem outline_concat (l r : PositionGraph) (out : Output) :
    (concat l r out).outline = l.outline.concat r.outline := by
  have hnullable : (concat l r out).outline.nullable = (l.outline.concat r.outline).nullable := by
    dsimp only [outline, Outline.concat]
    rw [empty?]
    cases l.empty? <;> cases r.empty? <;> rfl
  have hfirst : (concat l r out).outline.first = (l.outline.concat r.outline).first := by
    dsimp only [outline, Outline.concat]
    rw [first, List.map_append, ← Multiset.coe_add]
    cases l.empty? with
    | none => rfl
    | some o => rw [Boundary.map_fst_before]; rfl
  have hlast : (concat l r out).outline.last = (l.outline.concat r.outline).last := by
    dsimp only [outline, Outline.concat]
    rw [last, Boundary.map_fst_after, List.map_append, ← Multiset.coe_add]
    cases r.empty? with
    | none => rfl
    | some o => rw [Boundary.map_fst_after]; rfl
  have hfollow : (concat l r out).outline.follow = (l.outline.concat r.outline).follow := by
    dsimp only [outline, Outline.concat]
    rw [arrows_concat, Multiset.coe_product]
    rfl
  exact Outline.ext hnullable hfirst hlast hfollow

theorem outline_star (b : PositionGraph) (out : Output) :
    (star b out).outline = b.outline.star := by
  have hlast : (star b out).outline.last = b.outline.star.last :=
    congrArg Multiset.ofList (Boundary.map_fst_after out b.last)
  have hfollow : (star b out).outline.follow = b.outline.star.follow := by
    dsimp only [outline, Outline.star]
    rw [arrows_star, Multiset.coe_product]
    rfl
  exact Outline.ext rfl rfl hlast hfollow

/-- An added output does not show in the outline. -/
theorem outline_emit (s : Output) (g : PositionGraph) : (g.emit s).outline = g.outline := by
  have hnullable : (g.emit s).empty?.isSome = g.empty?.isSome := by
    rw [emit_empty?, Option.isSome_map]
  rw [outline, hnullable, emit_first, emit_last, Boundary.map_fst_after, arrows_emit]
  rfl

/-- A chain is entered at its first place and left at its last one. -/
theorem outline_chain (p : Position) (before : List Position) :
    (chain p before).outline = .ofList (chain p before).readers := by
  induction before generalizing p with
  | nil => exact outline_position p
  | cons q before ih =>
    rw [chain, outline_concat, readers_concat, Outline.ofList_append, ih, outline_position]

/-- The outline of a literal is the product of its positions. -/
theorem outline_ofWord (n : StateId) (word : List Symbol) (out : Output) :
    (ofWord n word out).outline = .ofList (ofWord n word out).readers := by
  rw [ofWord]
  split
  · exact outline_position _
  · exact outline_chain _ _

/-! ### The whole expression -/

/-- **A graph has the outline of its expression**: place `j` is the state that reads something and
has `j` others before it. -/
theorem outline_of_build (h : (build e).runFrom n = (.ok g, n')) {k : Nat} {ν : Nat → StateId}
    (hν : g.readers = (List.range' k e.ranges.length).map ν) :
    g.outline = (e.outline k).map ν := by
  induction e generalizing n n' g k with
  | union l r ihl ihr =>
    obtain ⟨gl, j, gr, hl, hr, rfl, -⟩ := build_union_eq_ok h
    rw [readers_union, Expr.ranges, List.length_append, ← List.range'_append_1,
      List.map_append] at hν
    -- `ν` numbers the readers of the left side first
    obtain ⟨hνl, hνr⟩ := List.append_inj hν (by simp [length_readers_of_build hl])
    rw [outline_union, ihl hl hνl, ihr hr hνr, Expr.outline, Outline.map_union]
  | concat l r ihl ihr =>
    obtain ⟨gl, j, gr, hl, hr, rfl⟩ := build_concat_eq_ok h
    rw [readers_concat, Expr.ranges, List.length_append, ← List.range'_append_1,
      List.map_append] at hν
    obtain ⟨hνl, hνr⟩ := List.append_inj hν (by simp [length_readers_of_build hl])
    rw [outline_concat, ihl hl hνl, ihr hr hνr, Expr.outline, Outline.map_concat]
  | star b ih =>
    obtain ⟨gb, hb, rfl, -⟩ := build_star_eq_ok h
    rw [outline_star, ih hb hν, Expr.outline, Outline.map_star]
  | literal word out =>
    cases h
    rw [Expr.ranges, List.length_map] at hν
    rw [outline_ofWord, hν, Expr.outline, Outline.map_ofList]
  | range r out =>
    obtain ⟨hr, rfl, -⟩ := build_range_eq_ok h
    rw [outline_position, hν, ← Outline.map_ofList]
    exact congrArg (Outline.map ν) (Outline.ofList_singleton k)
  | emit b out ih =>
    obtain ⟨gb, hb, rfl⟩ := build_emit_eq_ok h
    have hreaders : (gb.emit out).readers = gb.readers := by
      rw [← map_fst_readings, readings_emit, map_fst_readings]
    rw [outline_emit, ih hb (hreaders.symm.trans hν), Expr.outline]
  | var name => cases h

end Transduction.PositionGraph
