import Transduction.PositionGraph.Build
import Transduction.Proofs.PositionGraph.Parts

/-!
# Numbering is coherent

An expression that is numbered from `n` on takes exactly the numbers `n`, `n + 1`, … from left to
right, one for each of its occurrences (`ids_of_build`). Sides of a union or a concatenation are
numbered in turn, so they share no number; the rest of coherence is what `unite` and `iterate` check
(`coherent_of_build`).

Numbering is followed node by node: `build_union_eq_ok` and its like say which parts a graph was
made of.
-/

namespace Transduction.PositionGraph

variable {e l r b : Expr} {g : PositionGraph} {n n' : StateId} {out : Output}

/-! ### The parts of a numbered expression -/

/-- A numbered union has two numbered branches, which agree on the empty word. -/
theorem build_union_eq_ok (h : (build (.union l r)).runFrom n = (.ok g, n')) :
    ∃ gl k gr, (build l).runFrom n = (.ok gl, k) ∧ (build r).runFrom k = (.ok gr, n') ∧
      g = union gl gr [] ∧ ∀ a b, gl.empty? = some a → gr.empty? = some b → a = b := by
  rw [build_union] at h
  rcases hl : (build l).runFrom n with ⟨e | gl, k⟩
  all_goals rw [hl] at h; dsimp only at h
  · cases h
  rcases hr : (build r).runFrom k with ⟨e | gr, k'⟩
  all_goals rw [hr] at h; dsimp only at h
  · cases h
  obtain ⟨hunite, rfl⟩ := Prod.mk.inj h
  refine ⟨gl, k, gr, rfl, hr, ?_⟩
  rw [unite] at hunite
  rcases ha : gl.empty? with - | a <;> rcases hb : gr.empty? with - | b <;>
    rw [ha, hb] at hunite <;> dsimp only at hunite
  · exact ⟨(Except.ok.inj hunite).symm, fun _ _ h ↦ nomatch h⟩
  · exact ⟨(Except.ok.inj hunite).symm, fun _ _ h ↦ nomatch h⟩
  · exact ⟨(Except.ok.inj hunite).symm, fun _ _ _ h ↦ nomatch h⟩
  · by_cases hab : a = b
    · rw [if_pos hab] at hunite
      refine ⟨(Except.ok.inj hunite).symm, fun a' b' ha' hb' ↦ ?_⟩
      rwa [← Option.some.inj ha', ← Option.some.inj hb']
    · rw [if_neg hab] at hunite
      cases hunite

/-- A numbered concatenation has two numbered sides. -/
theorem build_concat_eq_ok (h : (build (.concat l r)).runFrom n = (.ok g, n')) :
    ∃ gl k gr, (build l).runFrom n = (.ok gl, k) ∧ (build r).runFrom k = (.ok gr, n') ∧
      g = concat gl gr [] := by
  rw [build_concat] at h
  rcases hl : (build l).runFrom n with ⟨e | gl, k⟩
  all_goals rw [hl] at h; dsimp only at h
  · cases h
  rcases hr : (build r).runFrom k with ⟨e | gr, k'⟩
  all_goals rw [hr] at h; dsimp only at h
  · cases h
  obtain ⟨hg, rfl⟩ := Prod.mk.inj h
  exact ⟨gl, k, gr, rfl, hr, (Except.ok.inj hg).symm⟩

/-- A numbered star has a numbered body, which emits nothing on the empty word. -/
theorem build_star_eq_ok (h : (build (.star b)).runFrom n = (.ok g, n')) :
    ∃ gb, (build b).runFrom n = (.ok gb, n') ∧ g = star gb [] ∧
      ∀ a, gb.empty? = some a → a = [] := by
  rw [build_star] at h
  rcases hb : (build b).runFrom n with ⟨e | gb, k⟩
  all_goals rw [hb] at h; dsimp only at h
  · cases h
  obtain ⟨hiterate, rfl⟩ := Prod.mk.inj h
  refine ⟨gb, rfl, ?_⟩
  rw [iterate] at hiterate
  rcases ha : gb.empty? with - | ⟨- | ⟨c, a⟩⟩ <;> rw [ha] at hiterate <;>
    dsimp only at hiterate
  · exact ⟨(Except.ok.inj hiterate).symm, fun _ h ↦ nomatch h⟩
  · exact ⟨(Except.ok.inj hiterate).symm, fun a h ↦ (Option.some.inj h).symm⟩
  · cases hiterate

/-- A numbered expression with an added output has a numbered body. -/
theorem build_emit_eq_ok (h : (build (.emit b out)).runFrom n = (.ok g, n')) :
    ∃ gb, (build b).runFrom n = (.ok gb, n') ∧ g = gb.emit out := by
  rw [build_emit] at h
  rcases hb : (build b).runFrom n with ⟨e | gb, k⟩
  all_goals rw [hb] at h; dsimp only at h
  · cases h
  obtain ⟨hg, rfl⟩ := Prod.mk.inj h
  exact ⟨gb, rfl, (Except.ok.inj hg).symm⟩

/-- A numbered range holds a symbol and takes one number. -/
theorem build_range_eq_ok {s : SymbolRange} (h : (build (.range s out)).runFrom n = (.ok g, n')) :
    ∃ hs : ¬ s.IsEmpty, g = position ⟨n, some ⟨s, hs⟩, out⟩ ∧ n' = n + 1 := by
  by_cases hs : s.IsEmpty
  · rw [build_range_of_isEmpty hs] at h
    cases h
  · rw [build_range hs] at h
    obtain ⟨hg, rfl⟩ := Prod.mk.inj h
    exact ⟨hs, (Except.ok.inj hg).symm, rfl⟩

/-! ### Chains -/

/-- A chain has its numbers from the back. -/
theorem ids_chain (p : Position) (before : List Position) :
    (chain p before).ids = (before.map (·.state)).reverse ++ [p.state] := by
  induction before generalizing p with
  | nil => rfl
  | cons q before ih => rw [chain, ids_concat, ih, List.map_cons, List.reverse_cons, ids_position]

/-- A chain is coherent if no number is given twice. -/
theorem coherent_chain {p : Position} {before : List Position}
    (h : (chain p before).ids.Nodup) : (chain p before).Coherent := by
  induction before generalizing p with
  | nil => trivial
  | cons q before ih =>
    rw [chain, ids_concat] at h
    obtain ⟨hchain, -, hdisj⟩ := List.nodup_append'.1 h
    exact ⟨ih hchain, trivial, hdisj⟩

/-- A literal that is not empty is a chain of its symbols with their numbers. -/
theorem ofWord_eq_chain {word : List Symbol} (hword : word ≠ []) (n : StateId) (out : Output) :
    ∃ y before, word.zipIdx n = (y :: before).reverse ∧
      ofWord n word out = chain ⟨y.2, some (.single y.1), out⟩
        (before.map fun z ↦ ⟨z.2, some (.single z.1), []⟩) := by
  rcases hrev : (word.zipIdx n).reverse with - | ⟨y, before⟩
  · have hlength : word.length = 0 := by simpa using congrArg List.length hrev
    exact absurd (List.length_eq_zero_iff.1 hlength) hword
  · refine ⟨y, before, by rw [← hrev, List.reverse_reverse], ?_⟩
    rw [ofWord, hrev]

/-- The occurrences of a literal are numbered from left to right. -/
theorem ids_ofWord (n : StateId) (word : List Symbol) (out : Output) :
    (ofWord n word out).ids = List.range' n (max word.length 1) := by
  rcases eq_or_ne word [] with rfl | hword
  · rfl
  obtain ⟨y, before, hzip, hchain⟩ := ofWord_eq_chain hword n out
  have hmax : max word.length 1 = word.length := by
    have hpos : 0 < word.length := List.length_pos_of_ne_nil hword
    omega
  have hids := congrArg (List.map Prod.snd) hzip
  rw [List.zipIdx_map_snd] at hids
  rw [hchain, ids_chain, hmax, hids, List.map_reverse, List.map_cons, List.reverse_cons,
    List.map_map]
  rfl

/-! ### The whole expression -/

/-- **An expression takes the numbers from the next free one on**, from left to right, one for each
occurrence. -/
theorem ids_of_build (h : (build e).runFrom n = (.ok g, n')) :
    g.ids = List.range' n e.occurrences ∧ n' = n + e.occurrences := by
  induction e generalizing n n' g with
  | union l r ihl ihr =>
    obtain ⟨gl, k, gr, hl, hr, rfl, -⟩ := build_union_eq_ok h
    obtain ⟨hidsl, rfl⟩ := ihl hl
    obtain ⟨hidsr, rfl⟩ := ihr hr
    rw [ids_union, hidsl, hidsr, Expr.occurrences, List.range'_append_1, Nat.add_assoc]
    exact ⟨rfl, rfl⟩
  | concat l r ihl ihr =>
    obtain ⟨gl, k, gr, hl, hr, rfl⟩ := build_concat_eq_ok h
    obtain ⟨hidsl, rfl⟩ := ihl hl
    obtain ⟨hidsr, rfl⟩ := ihr hr
    rw [ids_concat, hidsl, hidsr, Expr.occurrences, List.range'_append_1, Nat.add_assoc]
    exact ⟨rfl, rfl⟩
  | star b ih =>
    obtain ⟨gb, hb, rfl, -⟩ := build_star_eq_ok h
    rw [ids_star]
    exact ih hb
  | literal word out =>
    rw [build_literal] at h
    obtain ⟨hg, rfl⟩ := Prod.mk.inj h
    cases hg
    exact ⟨ids_ofWord n word out, rfl⟩
  | range s out =>
    obtain ⟨hs, rfl, rfl⟩ := build_range_eq_ok h
    exact ⟨rfl, rfl⟩
  | emit b out ih =>
    obtain ⟨gb, hb, rfl⟩ := build_emit_eq_ok h
    rw [emit_ids]
    exact ih hb
  | var name =>
    rw [build_var] at h
    cases h

/-- The numbers of a graph end where numbering it has ended. -/
theorem bound_of_runFrom (h : (build e).runFrom n = (.ok g, n')) : g.bound = n' := by
  obtain ⟨hids, rfl⟩ := ids_of_build h
  refine Nat.le_antisymm (bound_le fun s hs ↦ ?_) (Nat.le_of_not_lt fun hlt ↦ ?_)
  · rw [hids] at hs
    exact (List.mem_range'_1.1 hs).2
  -- below the end every number from `n` on is given, and there is one at least
  · have hle : n ≤ g.bound := by
      obtain ⟨s, hs⟩ := List.exists_mem_of_ne_nil _ (ids_ne_nil g)
      have hns : n ≤ s := (List.mem_range'_1.1 (hids ▸ hs)).1
      exact Nat.le_trans hns (Nat.le_of_lt (lt_bound hs))
    have hmem : g.bound ∈ g.ids := by
      rw [hids]
      exact List.mem_range'_1.2 ⟨hle, hlt⟩
    exact Nat.lt_irrefl _ (lt_bound hmem)

/-- Expressions that are numbered in turn share no number. -/
theorem disjoint_ids_of_build {gl gr : PositionGraph} {k : StateId}
    (hl : (build l).runFrom n = (.ok gl, k)) (hr : (build r).runFrom k = (.ok gr, n')) :
    gl.ids.Disjoint gr.ids := by
  obtain ⟨hidsl, rfl⟩ := ids_of_build hl
  obtain ⟨hidsr, -⟩ := ids_of_build hr
  intro s hsl hsr
  rw [hidsl, List.mem_range'_1] at hsl
  rw [hidsr, List.mem_range'_1] at hsr
  omega

/-- **Numbering an expression gives a coherent graph.** -/
theorem coherent_of_build (h : (build e).runFrom n = (.ok g, n')) : g.Coherent := by
  induction e generalizing n n' g with
  | union l r ihl ihr =>
    obtain ⟨gl, k, gr, hl, hr, rfl, hagree⟩ := build_union_eq_ok h
    exact ⟨ihl hl, ihr hr, disjoint_ids_of_build hl hr, hagree⟩
  | concat l r ihl ihr =>
    obtain ⟨gl, k, gr, hl, hr, rfl⟩ := build_concat_eq_ok h
    exact ⟨ihl hl, ihr hr, disjoint_ids_of_build hl hr⟩
  | star b ih =>
    obtain ⟨gb, hb, rfl, hempty⟩ := build_star_eq_ok h
    exact ⟨ih hb, hempty⟩
  | literal word out =>
    have hids := (ids_of_build h).1
    rw [build_literal] at h
    obtain ⟨hg, -⟩ := Prod.mk.inj h
    cases hg
    -- consecutive numbers are distinct, which is all that a chain needs
    have hnodup : (ofWord n word out).ids.Nodup := hids ▸ List.nodup_range'
    rcases eq_or_ne word [] with rfl | hword
    · trivial
    · obtain ⟨y, before, -, hchain⟩ := ofWord_eq_chain hword n out
      rw [hchain] at hnodup ⊢
      exact coherent_chain hnodup
  | range s out =>
    obtain ⟨hs, rfl, -⟩ := build_range_eq_ok h
    trivial
  | emit b out ih =>
    obtain ⟨gb, hb, rfl⟩ := build_emit_eq_ok h
    exact (ih hb).emit out
  | var name =>
    rw [build_var] at h
    cases h

end Transduction.PositionGraph
