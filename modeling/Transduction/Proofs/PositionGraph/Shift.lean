import Transduction.Proofs.Compile
import Transduction.Proofs.Transducer.Parts
import Transduction.Proofs.Transducer.Shift

/-!
# Numbering from any number on

An expression can be numbered from any number on. It has a graph then if it has one when it is
numbered from zero, and the graph is the same, under greater numbers (`build_runFrom_add`): what is
checked on the way are outputs on the empty word, and these do not depend on numbers.

Nothing in a graph depends on its numbers but the numbers themselves (`first_renumber`,
`last_renumber`, `follow_renumber`), so its table is the same behind rows that stand for nothing
(`rows_renumber`). Edges keep their order when they are sorted, since greater numbers stand in the
same order (`Edge.le_renumber`). So the machine is the shifted machine (`ofGraph_renumber`), and all
its answers are those of the machine that is numbered from zero.
-/

namespace Transduction

/-! ### Renumbered values and boundaries -/

namespace Numbered

variable {α β : Type} {ρ : StateId → StateId}

/-- A renumbered value is found by its new number. -/
theorem valuesAt_map (hρ : ρ.Injective) (f : α → β) (l : List (StateId × α)) (s : StateId) :
    valuesAt (l.map (Prod.map ρ f)) (ρ s) = (valuesAt l s).map f := by
  induction l with
  | nil => rfl
  | cons x l ih =>
    rw [List.map_cons, valuesAt_cons, valuesAt_cons, ih, Prod.map_fst, Prod.map_snd]
    by_cases hx : x.1 = s
    · rw [if_pos (congrArg ρ hx), if_pos hx]
      rfl
    · rw [if_neg (hρ.ne hx), if_neg hx]

/-- No value is found by a number that is not a new one. -/
theorem valuesAt_map_eq_nil {s : StateId} (hs : ∀ t, ρ t ≠ s) (f : α → β)
    (l : List (StateId × α)) : valuesAt (l.map (Prod.map ρ f)) s = [] := by
  refine List.eq_nil_iff_forall_not_mem.2 fun b hb ↦ ?_
  obtain ⟨x, -, hx⟩ := List.mem_map.1 (mem_valuesAt.1 hb)
  exact hs x.1 (congrArg Prod.fst hx)

end Numbered

namespace Boundary

variable {ρ : StateId → StateId}

theorem map_before (out : Output) (b : Boundary) :
    (b.before out).map (Prod.map ρ id) = before out (b.map (Prod.map ρ id)) := by
  rw [before, before, List.map_map, List.map_map]
  rfl

theorem map_after (out : Output) (b : Boundary) :
    (b.after out).map (Prod.map ρ id) = after out (b.map (Prod.map ρ id)) := by
  rw [after, after, List.map_map, List.map_map]
  rfl

theorem map_passages (exits entries : Boundary) :
    (exits.passages entries).map (Prod.map ρ (Prod.map ρ id)) =
      passages (exits.map (Prod.map ρ id)) (entries.map (Prod.map ρ id)) := by
  rw [passages, passages, List.map_flatMap, List.flatMap_map]
  refine List.flatMap_congr fun x _ ↦ ?_
  rw [List.map_map, List.map_map]
  rfl

end Boundary

namespace PositionGraph

open Transducer

variable {ρ : StateId → StateId}

/-! ### Renumbered graphs -/

/-- The graph with renumbered occurrences. -/
def renumber (ρ : StateId → StateId) : PositionGraph → PositionGraph
  | position p => position { p with state := ρ p.state }
  | union l r out => union (l.renumber ρ) (r.renumber ρ) out
  | concat l r out => concat (l.renumber ρ) (r.renumber ρ) out
  | star b out => star (b.renumber ρ) out

/-- The output on the empty word does not depend on numbers. -/
theorem empty?_renumber (g : PositionGraph) : (g.renumber ρ).empty? = g.empty? := by
  induction g with
  | position p => rfl
  | union l r out ihl ihr => rw [renumber, empty?, empty?, ihl, ihr]
  | concat l r out ihl ihr => rw [renumber, empty?, empty?, ihl, ihr]
  | star b out ih => rfl

theorem emit_renumber (out : Output) (g : PositionGraph) :
    (g.emit out).renumber ρ = (g.renumber ρ).emit out := by
  cases g <;> rfl

theorem ranges_renumber (g : PositionGraph) :
    (g.renumber ρ).ranges = g.ranges.map (Prod.map ρ id) := by
  induction g with
  | position p => rfl
  | union l r out ihl ihr => rw [renumber, ranges_union, ranges_union, ihl, ihr, List.map_append]
  | concat l r out ihl ihr =>
    rw [renumber, ranges_concat, ranges_concat, ihl, ihr, List.map_append]
  | star b out ih => exact ih

/-- The first states are renumbered, with what is emitted on entering them. -/
theorem first_renumber (g : PositionGraph) :
    (g.renumber ρ).first = g.first.map (Prod.map ρ id) := by
  induction g with
  | position p =>
    rw [renumber, first, first]
    split <;> rfl
  | union l r out ihl ihr => rw [renumber, first, first, ihl, ihr, List.map_append]
  | concat l r out ihl ihr =>
    rw [renumber, first, first, empty?_renumber, ihl, ihr, List.map_append]
    rcases l.empty? with - | a
    · rfl
    · rw [Boundary.map_before]
  | star b out ih => exact ih

/-- The last states are renumbered, with what is emitted on leaving them. -/
theorem last_renumber (g : PositionGraph) :
    (g.renumber ρ).last = g.last.map (Prod.map ρ id) := by
  induction g with
  | position p =>
    rw [renumber, last, last]
    split <;> rfl
  | union l r out ihl ihr =>
    rw [renumber, last, last, ihl, ihr, Boundary.map_after, List.map_append]
  | concat l r out ihl ihr =>
    rw [renumber, last, last, empty?_renumber, ihl, ihr, Boundary.map_after, List.map_append]
    rcases r.empty? with - | a
    · rfl
    · rw [Boundary.map_after]
  | star b out ih => rw [renumber, last, last, ih, Boundary.map_after]

/-- The passages are renumbered, with what is emitted on the way. -/
theorem follow_renumber (g : PositionGraph) :
    (g.renumber ρ).follow = g.follow.map (Prod.map ρ (Prod.map ρ id)) := by
  induction g with
  | position p => rfl
  | union l r out ihl ihr => rw [renumber, follow_union, follow_union, ihl, ihr, List.map_append]
  | concat l r out ihl ihr =>
    rw [renumber, follow_concat, follow_concat, ihl, ihr, last_renumber, first_renumber,
      List.map_append, List.map_append, Boundary.map_passages]
  | star b out ih =>
    rw [renumber, follow_star, follow_star, ih, last_renumber, first_renumber, List.map_append,
      Boundary.map_passages]

/-! ### Numbering -/

theorem renumber_chain (p : Position) (before : List Position) :
    (chain p before).renumber ρ =
      chain { p with state := ρ p.state } (before.map fun q ↦ { q with state := ρ q.state }) := by
  induction before generalizing p with
  | nil => rfl
  | cons q before ih => rw [chain, renumber, ih, List.map_cons, chain, renumber]

theorem ofWord_add (k n : Nat) (word : List Symbol) (out : Output) :
    ofWord (k + n) word out = (ofWord k word out).renumber (· + n) := by
  have hzip : word.zipIdx (k + n) = (word.zipIdx k).map (Prod.map id (· + n)) := by
    rw [List.map_snd_add_zipIdx_eq_zipIdx, Nat.add_comm]
  rw [ofWord, ofWord, hzip, ← List.map_reverse]
  rcases (word.zipIdx k).reverse with - | ⟨x, before⟩
  · rfl
  · rw [List.map_cons]
    dsimp only
    rw [renumber_chain, List.map_map, List.map_map]
    rfl

/-- Branches are refused or united whatever their numbers are. -/
theorem unite_renumber (l r : PositionGraph) :
    unite (l.renumber ρ) (r.renumber ρ) = (unite l r).map (renumber ρ) := by
  rw [unite, unite, empty?_renumber, empty?_renumber]
  rcases l.empty? with - | a <;> rcases r.empty? with - | c
  · rfl
  · rfl
  · rfl
  · dsimp only
    split <;> rfl

/-- A body is refused or iterated whatever its numbers are. -/
theorem iterate_renumber (b : PositionGraph) :
    iterate (b.renumber ρ) = (iterate b).map (renumber ρ) := by
  rw [iterate, iterate, empty?_renumber]
  rcases b.empty? with - | - | ⟨a, out⟩ <;> rfl

/-- **Numbering from a greater number on** gives the same graph under greater numbers, or fails in
the same way. -/
theorem build_runFrom_add (e : Expr) (k n : Nat) :
    (build e).runFrom (k + n) =
      Prod.map (Except.map (renumber (· + n))) (· + n) ((build e).runFrom k) := by
  induction e generalizing k with
  | union l r ihl ihr =>
    rw [build_union, build_union, ihl]
    rcases (build l).runFrom k with ⟨err | gl, k'⟩
    · rfl
    dsimp only [Prod.map, Except.map]
    rw [ihr]
    rcases (build r).runFrom k' with ⟨err | gr, k''⟩
    · rfl
    · dsimp only [Prod.map, Except.map]
      rw [unite_renumber]
      rfl
  | concat l r ihl ihr =>
    rw [build_concat, build_concat, ihl]
    rcases (build l).runFrom k with ⟨err | gl, k'⟩
    · rfl
    dsimp only [Prod.map, Except.map]
    rw [ihr]
    rcases (build r).runFrom k' with ⟨err | gr, k''⟩ <;> rfl
  | star b ih =>
    rw [build_star, build_star, ih]
    rcases (build b).runFrom k with ⟨err | gb, k'⟩
    · rfl
    · dsimp only [Prod.map, Except.map]
      rw [iterate_renumber]
      rfl
  | literal word out =>
    rw [build_literal, build_literal, ofWord_add, Nat.add_right_comm]
    rfl
  | range s out =>
    by_cases hs : s.IsEmpty
    · rw [build_range_of_isEmpty hs, build_range_of_isEmpty hs]
      rfl
    · rw [build_range hs, build_range hs, Nat.add_right_comm]
      rfl
  | emit b out ih =>
    rw [build_emit, build_emit, ih]
    rcases (build b).runFrom k with ⟨err | gb, k'⟩
    · rfl
    · dsimp only [Prod.map, Except.map]
      rw [emit_renumber]
  | var name => rfl

/-! ### The machine -/

/-- The bound is raised with the numbers. -/
theorem bound_renumber_add (g : PositionGraph) (n : Nat) :
    (g.renumber (· + n)).bound = n + g.bound := by
  have hids : (g.renumber (· + n)).ids = g.ids.map (· + n) := by
    rw [← map_fst_ranges, ← map_fst_ranges, ranges_renumber, List.map_map, List.map_map]
    rfl
  have hne := ids_ne_nil g
  rw [bound, bound, hids]
  generalize g.ids = ids at hne
  induction ids with
  | nil => exact absurd rfl hne
  | cons s ids ih =>
    rw [List.map_cons, List.foldr_cons, List.foldr_cons]
    rcases ids with - | ⟨t, ids⟩
    · simp only [List.map_nil, List.foldr_nil]
      omega
    · rw [ih (List.cons_ne_nil t ids)]
      omega

/-- A state reads under its new number what it has read. -/
theorem rangeOf?_renumber (hρ : ρ.Injective) (g : PositionGraph) (s : StateId) :
    (g.renumber ρ).rangeOf? (ρ s) = g.rangeOf? s := by
  rw [rangeOf?, rangeOf?, ranges_renumber, Numbered.valuesAt_map hρ, List.map_id]

/-- Edges to renumbered states are renumbered edges. -/
theorem edgesTo_renumber (hρ : ρ.Injective) (g : PositionGraph) (targets : Boundary) :
    edgesTo (g.renumber ρ).rangeOf? (targets.map (Prod.map ρ id)) =
      (edgesTo g.rangeOf? targets).map (·.renumber ρ) := by
  rw [edgesTo, edgesTo, List.filterMap_map, List.map_filterMap]
  refine List.filterMap_congr fun x _ ↦ ?_
  show ((g.renumber ρ).rangeOf? (ρ x.1)).map _ = _
  rw [rangeOf?_renumber hρ]
  cases g.rangeOf? x.1 <;> rfl

/-- **The table is the same** behind rows that stand for nothing. -/
theorem rows_renumber (g : PositionGraph) (n : Nat) :
    (g.renumber (· + n)).rows = List.replicate n ([], none) ++
      g.rows.map fun row ↦ (row.1.map (·.renumber (· + n)), row.2) := by
  have hinjective := (strictMono_add n).injective
  have hfront : ∀ s ∈ List.range n,
      (edgesTo (g.renumber (· + n)).rangeOf? (Numbered.valuesAt (g.renumber (· + n)).follow s),
        (Numbered.valuesAt (g.renumber (· + n)).last s).head?) = ([], none) := by
    intro s hs
    -- no state is renumbered to one of the first `n`, so their rows are empty
    have hnew : ∀ t, t + n ≠ s := by
      rw [List.mem_range] at hs
      omega
    rw [follow_renumber, last_renumber, Numbered.valuesAt_map_eq_nil hnew,
      Numbered.valuesAt_map_eq_nil hnew]
    rfl
  have hbehind : ∀ s,
      (edgesTo (g.renumber (· + n)).rangeOf?
          (Numbered.valuesAt (g.renumber (· + n)).follow (n + s)),
        (Numbered.valuesAt (g.renumber (· + n)).last (n + s)).head?) =
      ((edgesTo g.rangeOf? (Numbered.valuesAt g.follow s)).map (·.renumber (· + n)),
        (Numbered.valuesAt g.last s).head?) := by
    intro s
    rw [follow_renumber, last_renumber, Nat.add_comm n s, Numbered.valuesAt_map hinjective,
      Numbered.valuesAt_map hinjective, edgesTo_renumber hinjective, List.map_id]
  rw [rows_eq, rows_eq, bound_renumber_add, List.range_add, List.map_append, List.map_append,
    List.map_congr_left hfront, List.map_const', List.length_range, List.map_map, List.map_map,
    first_renumber, edgesTo_renumber hinjective, empty?_renumber, List.append_assoc,
    List.map_singleton]
  exact congrArg (_ ++ ·) (congrArg (· ++ _) (List.map_congr_left fun s _ ↦ hbehind s))

/-- **The machine is the shifted machine.** -/
theorem ofGraph_renumber (g : PositionGraph) (n : Nat) :
    ofGraph (g.renumber (· + n)) = (ofGraph g).shift n := by
  -- edges keep their order, so it does not matter whether they are renumbered before sorting
  have hrows : (g.rows.map fun row ↦ (row.1.map (·.renumber (· + n)), row.2)).map State.ofRow =
      (g.rows.map State.ofRow).map (·.renumber (· + n)) := by
    rw [List.map_map, List.map_map]
    refine List.map_congr_left fun row _ ↦ ?_
    rw [Function.comp_apply, Function.comp_apply, State.ofRow, State.ofRow, State.renumber,
      ← Ascending.map_sort (Edge.le_renumber (strictMono_add n)), List.map_toArray]
  have hstates : (ofGraph (g.renumber (· + n))).states = ((ofGraph g).shift n).states := by
    rw [states_shift, states_ofGraph, states_ofGraph, shiftedStates, rows_renumber, List.map_append,
      List.map_replicate, hrows, List.map_toArray, ← List.toArray_replicate, List.append_toArray]
    rfl
  have hinitial : (ofGraph (g.renumber (· + n))).initial = ((ofGraph g).shift n).initial :=
    (bound_renumber_add g n).trans (Nat.add_comm n g.bound)
  refine ext_parts ?_
  rw [parts, parts, edgeLists, edgeLists, Transducer.finals, Transducer.finals, hstates, hinitial]

/-! ### All answers -/

/-- **Numbering from any number on only shifts the states** if the counter does not end. It fails as
numbering from zero does.
Otherwise the machine is the compiled one behind states that have no edges and do not accept; every
word has the same answer, and so has the check under any limit, where failures name the shifted
states. -/
theorem build_runFrom_shift (e : Expr) (n : StateId) :
    (∀ err, ((build e).runFrom n).1 = .error err ↔ ((build e).runFrom 0).1 = .error err) ∧
      ∀ g, ((build e).runFrom n).1 = .ok g → ∃ m, e.compile = .ok m ∧ ofGraph g = m.shift n ∧
        (∀ s < n, (ofGraph g).edges s = #[] ∧ (ofGraph g).final? s = none) ∧
        (∀ w, (ofGraph g).evaluate w = (m.evaluate w).mapError (·.renumber (· + n))) ∧
        ∀ limit, (ofGraph g).checkFunctionalWithin limit =
          (m.checkFunctionalWithin limit).mapError (·.renumber (· + n)) := by
  have hbuild := congrArg Prod.fst (build_runFrom_add e 0 n)
  rw [Nat.zero_add] at hbuild
  rw [hbuild, Expr.compile]
  rcases (build e).runFrom 0 with ⟨err | g, n'⟩
  · refine ⟨fun _ ↦ Iff.rfl, fun g hg ↦ ?_⟩
    cases hg
  · refine ⟨fun err ↦ iff_of_false (fun herr ↦ ?_) fun herr ↦ ?_, fun g' hg' ↦ ?_⟩
    · cases herr
    · cases herr
    obtain rfl : g.renumber (· + n) = g' := Except.ok.inj hg'
    have hembeds := (ofGraph g).embeds_shift n
    rw [ofGraph_renumber]
    exact ⟨ofGraph g, rfl, rfl,
      fun s hs ↦ ⟨edges_shift_of_lt _ hs, final?_shift_of_lt _ hs⟩,
      hembeds.evaluate, hembeds.checkFunctionalWithin⟩

end PositionGraph

end Transduction
