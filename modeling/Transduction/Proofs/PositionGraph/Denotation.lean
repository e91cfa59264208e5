import Transduction.Expr.Denotation
import Transduction.Proofs.PositionGraph.Numbering
import Transduction.Proofs.PositionGraph.Rounds

/-!
# A numbered expression reads what it denotes

A word has an output in an expression exactly when the graph of the expression reads the word and
emits that output (`denotes_iff_reading`), from whichever number the expression is numbered. The
induction is on the expression; each constructor is one of the equations for readings.

Two cases are not immediate. A literal is a chain of positions, and a chain reads the word of its
positions and nothing else (`reading_chain_iff`). A star is any number of pairs of the body, some of
which may read nothing, while rounds of the graph read something: pairs that read nothing are left
out, since they emit nothing either (`iterated_iff_rounds`).
-/

namespace Transduction.PositionGraph

variable {e b : Expr} {g gb : PositionGraph} {n n' s : StateId} {w : List Symbol}
  {ss : List StateId} {o out : Output}

/-! ### Leaves of the expression -/

/-- A position reads one symbol of its range. -/
theorem reading_position_iff {c : SymbolClass} :
    (position ⟨s, some c, out⟩).Reading w ss o ↔ ∃ x, x ∈ c.1 ∧ w = [x] ∧ ss = [s] ∧ o = out := by
  have hreads : ∀ {t x}, (position ⟨s, some c, out⟩).Reads t x ↔ t = s ∧ x ∈ c.1 := by
    intro t x
    rw [Reads, ranges_position]
    simp only [List.mem_singleton, Prod.mk.injEq, Option.some.injEq]
    refine ⟨fun h ↦ ?_, fun h ↦ ?_⟩
    · obtain ⟨d, ⟨rfl, rfl⟩, hx⟩ := h
      exact ⟨rfl, hx⟩
    · obtain ⟨rfl, hx⟩ := h
      exact ⟨c, ⟨rfl, rfl⟩, hx⟩
  refine ⟨fun h ↦ ?_, fun h ↦ ?_⟩
  · rcases h with hempty | htrace
    · cases hempty
    · -- there is no passage, so the first symbol is the last one
      obtain @⟨t, x, w, ss, a, o, hfirst, hx, hrest⟩ := htrace
      cases List.mem_singleton.1 hfirst
      rcases hrest with hlast | hpass
      · cases List.mem_singleton.1 hlast
        exact ⟨x, (hreads.1 hx).2, rfl, rfl, rfl⟩
      · exact absurd hpass List.not_mem_nil
  · obtain ⟨x, hx, rfl, rfl, rfl⟩ := h
    exact .trace (.enter (a := []) List.mem_cons_self (hreads.2 ⟨rfl, hx⟩)
      (.last List.mem_cons_self))

/-- The occurrence of an empty literal reads the empty word. -/
theorem reading_empty_iff :
    (position ⟨s, none, out⟩).Reading w ss o ↔ w = [] ∧ ss = [] ∧ o = out := by
  refine ⟨fun h ↦ ?_, fun h ↦ ?_⟩
  · rcases h with hempty | ⟨hfirst, -, -⟩
    · exact ⟨rfl, rfl, (Option.some.inj hempty).symm⟩
    · exact absurd hfirst List.not_mem_nil
  · obtain ⟨rfl, rfl, rfl⟩ := h
    exact .empty rfl

/-- **A chain reads the word of its positions**, and emits the output of the last one. -/
theorem reading_chain_iff {y : Symbol × StateId} {before : List (Symbol × StateId)}
    (h : (chain ⟨y.2, some (.single y.1), out⟩
      (before.map fun z ↦ ⟨z.2, some (.single z.1), []⟩)).Coherent) :
    (chain ⟨y.2, some (.single y.1), out⟩
        (before.map fun z ↦ ⟨z.2, some (.single z.1), []⟩)).Reading w ss o ↔
      w = (y :: before).reverse.map (·.1) ∧ ss = (y :: before).reverse.map (·.2) ∧ o = out := by
  have hsingle : ∀ {x z : Symbol}, x ∈ (SymbolClass.single z).1 ↔ x = z :=
    SymbolRange.mem_single
  -- the chain grows at its right end, so the word is its list in reverse
  induction before generalizing y out w ss o with
  | nil =>
    rw [List.map_nil, chain, reading_position_iff]
    refine ⟨fun h' ↦ ?_, fun h' ↦ ?_⟩
    · obtain ⟨x, hx, rfl, rfl, rfl⟩ := h'
      exact ⟨by rw [hsingle.1 hx]; rfl, rfl, rfl⟩
    · obtain ⟨rfl, rfl, rfl⟩ := h'
      exact ⟨y.1, hsingle.2 rfl, rfl, rfl, rfl⟩
  | cons z before ih =>
    rw [List.map_cons, chain] at h ⊢
    rw [reading_concat_iff h.2.2, List.reverse_cons, List.map_append, List.map_append]
    refine ⟨fun h' ↦ ?_, fun h' ↦ ?_⟩
    · obtain ⟨u, v, su, sv, p, q, rfl, rfl, rfl, hbefore, hlast⟩ := h'
      obtain ⟨rfl, rfl, rfl⟩ := (ih h.1).1 hbefore
      obtain ⟨x, hx, rfl, rfl, rfl⟩ := reading_position_iff.1 hlast
      exact ⟨by rw [hsingle.1 hx]; rfl, rfl, List.append_nil _⟩
    · obtain ⟨rfl, rfl, rfl⟩ := h'
      refine ⟨_, _, _, _, [], o, rfl, rfl, (List.append_nil _).symm, (ih h.1).2 ⟨rfl, rfl, rfl⟩, ?_⟩
      exact reading_position_iff.2 ⟨y.1, hsingle.2 rfl, rfl, rfl, rfl⟩

/-- A literal reads its word, through its numbers in turn. -/
theorem reading_ofWord_iff {word : List Symbol} (h : (ofWord n word out).Coherent) :
    (ofWord n word out).Reading w ss o ↔
      w = word ∧ ss = List.range' n word.length ∧ o = out := by
  rcases eq_or_ne word [] with rfl | hword
  · exact reading_empty_iff
  obtain ⟨y, before, hzip, hchain⟩ := ofWord_eq_chain hword n out
  rw [hchain] at h ⊢
  rw [reading_chain_iff h, ← hzip, List.zipIdx_map_fst, List.zipIdx_map_snd]

/-! ### Stars -/

/-- **Iterating a body is reading it in rounds**: a pair that reads nothing emits nothing. -/
theorem iterated_iff_rounds {R : List Symbol → Output → Prop}
    (hR : ∀ {w o}, R w o ↔ ∃ ss, gb.Reading w ss o)
    (hempty : ∀ a, gb.empty? = some a → a = []) :
    Iterated R w o ↔ ∃ ss, gb.Rounds w ss o := by
  refine ⟨fun hiter ↦ ?_, fun h ↦ ?_⟩
  · induction hiter with
    | nil => exact ⟨[], .nil⟩
    | cons head _ ih =>
      obtain ⟨ss, hrounds⟩ := ih
      obtain ⟨su, hnone | htrace⟩ := hR.1 head
      · -- a pair that reads nothing is no round
        rw [hempty _ hnone]
        exact ⟨ss, hrounds⟩
      · exact ⟨su ++ ss, .cons htrace hrounds⟩
  · obtain ⟨ss, hrounds⟩ := h
    induction hrounds with
    | nil => exact .nil
    | cons head _ ih => exact .cons (hR.2 ⟨_, .trace head⟩) ih

/-! ### The whole expression -/

/-- **A numbered expression reads what it denotes.** -/
theorem denotes_iff_reading (h : (build e).runFrom n = (.ok g, n')) :
    e.Denotes w o ↔ ∃ ss, g.Reading w ss o := by
  induction e generalizing n n' g w o with
  | union l r ihl ihr =>
    obtain ⟨gl, k, gr, hl, hr, rfl, hagree⟩ := build_union_eq_ok h
    have hdisj := disjoint_ids_of_build hl hr
    rw [Expr.Denotes, ihl hl, ihr hr, ← exists_or]
    refine exists_congr fun ss ↦ ?_
    rw [reading_union_iff hdisj hagree]
    refine ⟨fun hreading ↦ ?_, fun h' ↦ ?_⟩
    · exact ⟨o, hreading, (List.append_nil o).symm⟩
    · obtain ⟨p, hreading, rfl⟩ := h'
      rwa [List.append_nil]
  | concat l r ihl ihr =>
    obtain ⟨gl, k, gr, hl, hr, rfl⟩ := build_concat_eq_ok h
    have hdisj := disjoint_ids_of_build hl hr
    simp only [Expr.Denotes, ihl hl, ihr hr, reading_concat_iff hdisj, List.append_nil]
    refine ⟨fun h' ↦ ?_, fun h' ↦ ?_⟩
    · obtain ⟨u, v, p, q, hw, ho, ⟨su, hu⟩, sv, hv⟩ := h'
      exact ⟨su ++ sv, u, v, su, sv, p, q, hw, rfl, ho, hu, hv⟩
    · obtain ⟨ss, u, v, su, sv, p, q, hw, -, ho, hu, hv⟩ := h'
      exact ⟨u, v, p, q, hw, ho, ⟨su, hu⟩, sv, hv⟩
  | star b ih =>
    obtain ⟨gb, hb, rfl, hempty⟩ := build_star_eq_ok h
    -- the rounds of the expression and those of the graph divide the word alike
    rw [Expr.Denotes, iterated_iff_rounds (ih hb) hempty]
    refine exists_congr fun ss ↦ ?_
    rw [reading_star_iff]
    refine ⟨fun hrounds ↦ ?_, fun h' ↦ ?_⟩
    · exact ⟨o, hrounds, (List.append_nil o).symm⟩
    · obtain ⟨p, hrounds, rfl⟩ := h'
      rwa [List.append_nil]
  | literal word out =>
    have hcoherent := coherent_of_build h
    rw [build_literal] at h
    obtain ⟨hg, -⟩ := Prod.mk.inj h
    cases hg
    simp only [Expr.Denotes, reading_ofWord_iff hcoherent, exists_and_left, exists_and_right,
      exists_eq, true_and]
  | range s out =>
    obtain ⟨hs, rfl, -⟩ := build_range_eq_ok h
    simp only [Expr.Denotes, reading_position_iff]
    refine ⟨fun h' ↦ ?_, fun h' ↦ ?_⟩
    · obtain ⟨x, hx, hw, ho⟩ := h'
      exact ⟨[n], x, hx, hw, rfl, ho⟩
    · obtain ⟨ss, x, hx, hw, -, ho⟩ := h'
      exact ⟨x, hx, hw, ho⟩
  | emit b out ih =>
    obtain ⟨gb, hb, rfl⟩ := build_emit_eq_ok h
    simp only [Expr.Denotes, ih hb, reading_emit_iff]
    refine ⟨fun h' ↦ ?_, fun h' ↦ ?_⟩
    · obtain ⟨p, ⟨ss, hreading⟩, ho⟩ := h'
      exact ⟨ss, p, hreading, ho⟩
    · obtain ⟨ss, p, hreading, ho⟩ := h'
      exact ⟨p, ⟨ss, hreading⟩, ho⟩
  | var name =>
    rw [build_var] at h
    cases h

/-- The words that an expression accepts are those that its graph reads. -/
theorem accepts_iff (h : (build e).runFrom n = (.ok g, n')) : e.Accepts w ↔ g.Accepts w := by
  simp only [Expr.Accepts, denotes_iff_reading h]
  exact exists_comm

end Transduction.PositionGraph
