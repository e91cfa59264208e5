import Transduction.Proofs.PositionGraph.Denotation

/-!
# No state is dead

A coherent graph reads some word (`exists_reading`), and every state that reads something stands in
the trace of some word (`exists_trace_through`). Both go by induction on the graph: a part reads
some word, and so the readings of its neighbours can be completed.

A trace through a state is divided there. What comes before is a way to enter the state (`Enters`),
what comes after is a way to leave the graph from it, and any way to enter a state can be continued
by any way to leave it (`Enters.append_leaves`). So a state that reads something can be entered
(`exists_enters`) and left (`exists_leaves`), which is all that is needed to complete a passage to a
trace.
-/

namespace Transduction

/-- A class holds its least symbol. -/
theorem SymbolClass.lower_mem (c : SymbolClass) : c.1.lower ∈ c.1 :=
  ⟨UInt32.le_refl _, SymbolRange.not_isEmpty_iff.1 c.2⟩

namespace PositionGraph

/-- The word leads from the beginning into the state, which reads its last symbol. -/
inductive Enters (g : PositionGraph) : List Symbol → StateId → Prop
  /-- A first state is entered. -/
  | first {s : StateId} {x : Symbol} {a : Output} (first : (s, a) ∈ g.first)
      (reads : g.Reads s x) : Enters g [x] s
  /-- One more passage. -/
  | pass {s t : StateId} {x : Symbol} {w : List Symbol} {o : Output} (enters : Enters g w s)
      (passage : (s, t, o) ∈ g.follow) (reads : g.Reads t x) : Enters g (w ++ [x]) t

variable {g l r b : PositionGraph} {s t : StateId} {u v w : List Symbol} {ss : List StateId}
  {o p q : Output}

/-! ### Dividing traces -/

/-- **Whatever leaves a state continues whatever enters it.** -/
theorem Enters.append_leaves (h : g.Enters w s) (k : g.Leaves s v ss o) :
    ∃ ts p, g.Trace (w ++ v) ts p := by
  induction h generalizing v ss o with
  | first hfirst hreads => exact ⟨_, _, .enter hfirst hreads k⟩
  | pass _ hpass hreads ih =>
    rw [List.append_assoc, List.singleton_append]
    exact ih (.pass hpass hreads k)

/-- A state on the way out of the graph can be entered and left, if the way begins at a state that
can be entered. -/
theorem Leaves.exists_enters (h : g.Leaves s w ss o) (henters : g.Enters u s) (ht : t ∈ ss) :
    (∃ v, g.Enters v t) ∧ ∃ v ts p, g.Leaves t v ts p := by
  induction h generalizing u with
  | last => exact absurd ht List.not_mem_nil
  | pass hpass hreads hrest ih =>
    have hnext := henters.pass hpass hreads
    rcases List.mem_cons.1 ht with rfl | ht
    · exact ⟨⟨_, hnext⟩, _, _, _, hrest⟩
    · exact ih hnext ht

/-- A state of a trace can be entered and left. -/
theorem Trace.exists_enters (h : g.Trace w ss o) (ht : t ∈ ss) :
    (∃ v, g.Enters v t) ∧ ∃ v ts p, g.Leaves t v ts p := by
  obtain ⟨hfirst, hreads, hrest⟩ := h
  have henters := Enters.first hfirst hreads
  rcases List.mem_cons.1 ht with rfl | ht
  · exact ⟨⟨_, henters⟩, _, _, _, hrest⟩
  · exact hrest.exists_enters henters ht

/-! ### Traces through every state -/

/-- A coherent graph reads some word. -/
theorem exists_reading (hg : g.Coherent) : ∃ w ss o, g.Reading w ss o := by
  induction g with
  | position p =>
    obtain ⟨s, hnone | c, out⟩ := p
    · exact ⟨[], [], out, .empty rfl⟩
    · exact ⟨_, _, _, reading_position_iff.2 ⟨_, c.lower_mem, rfl, rfl, rfl⟩⟩
  | union l r out ihl ihr =>
    obtain ⟨hl, -, hdisj, hagree⟩ := hg
    obtain ⟨w, ss, o, hreading⟩ := ihl hl
    exact ⟨w, ss, o ++ out, (reading_union_iff hdisj hagree).2 ⟨o, .inl hreading, rfl⟩⟩
  | concat l r out ihl ihr =>
    obtain ⟨hl, hr, hdisj⟩ := hg
    obtain ⟨u, su, p, hu⟩ := ihl hl
    obtain ⟨v, sv, q, hv⟩ := ihr hr
    exact ⟨_, _, _, (reading_concat_iff hdisj).2 ⟨u, v, su, sv, p, q, rfl, rfl, rfl, hu, hv⟩⟩
  | star b out ih => exact ⟨[], [], out, .empty rfl⟩

/-- A state that reads something stands in the reading of some word. -/
theorem exists_reading_through (hg : g.Coherent) (hs : s ∈ g.readers) :
    ∃ w ss o, g.Reading w ss o ∧ s ∈ ss := by
  induction g with
  | position p =>
    obtain ⟨t, range, out⟩ := p
    obtain ⟨c, hc⟩ := mem_readers.1 hs
    cases List.mem_singleton.1 hc
    exact ⟨_, _, _, reading_position_iff.2 ⟨_, c.lower_mem, rfl, rfl, rfl⟩, List.mem_cons_self⟩
  | union l r out ihl ihr =>
    obtain ⟨hl, hr, hdisj, hagree⟩ := hg
    rw [readers_union, List.mem_append] at hs
    rcases hs with hs | hs
    · obtain ⟨w, ss, o, hreading, hmem⟩ := ihl hl hs
      exact ⟨w, ss, _, (reading_union_iff hdisj hagree).2 ⟨o, .inl hreading, rfl⟩, hmem⟩
    · obtain ⟨w, ss, o, hreading, hmem⟩ := ihr hr hs
      exact ⟨w, ss, _, (reading_union_iff hdisj hagree).2 ⟨o, .inr hreading, rfl⟩, hmem⟩
  | concat l r out ihl ihr =>
    obtain ⟨hl, hr, hdisj⟩ := hg
    rw [readers_concat, List.mem_append] at hs
    -- the other side reads some word, which completes the reading
    rcases hs with hs | hs
    · obtain ⟨u, su, p, hu, hmem⟩ := ihl hl hs
      obtain ⟨v, sv, q, hv⟩ := exists_reading hr
      exact ⟨_, _, _, (reading_concat_iff hdisj).2 ⟨u, v, su, sv, p, q, rfl, rfl, rfl, hu, hv⟩,
        List.mem_append_left _ hmem⟩
    · obtain ⟨u, su, p, hu⟩ := exists_reading hl
      obtain ⟨v, sv, q, hv, hmem⟩ := ihr hr hs
      exact ⟨_, _, _, (reading_concat_iff hdisj).2 ⟨u, v, su, sv, p, q, rfl, rfl, rfl, hu, hv⟩,
        List.mem_append_right _ hmem⟩
  | star b out ih =>
    obtain ⟨w, ss, o, hnone | htrace, hmem⟩ := ih hg.1 hs
    · exact absurd hmem List.not_mem_nil
    · exact ⟨w, ss, _, .trace htrace.star, hmem⟩

/-- **A state that reads something stands in some trace.** -/
theorem exists_trace_through (hg : g.Coherent) (hs : s ∈ g.readers) :
    ∃ w ss o, g.Trace w ss o ∧ s ∈ ss := by
  obtain ⟨w, ss, o, hnone | htrace, hmem⟩ := exists_reading_through hg hs
  · exact absurd hmem List.not_mem_nil
  · exact ⟨w, ss, o, htrace, hmem⟩

/-- A state that reads something can be entered. -/
theorem exists_enters (hg : g.Coherent) (hs : s ∈ g.readers) : ∃ w, g.Enters w s := by
  obtain ⟨w, ss, o, htrace, hmem⟩ := exists_trace_through hg hs
  exact (htrace.exists_enters hmem).1

/-- The graph can be left from a state that reads something. -/
theorem exists_leaves (hg : g.Coherent) (hs : s ∈ g.readers) :
    ∃ w ss o, g.Leaves s w ss o := by
  obtain ⟨w, ss, o, htrace, hmem⟩ := exists_trace_through hg hs
  exact (htrace.exists_enters hmem).2

end PositionGraph

end Transduction
