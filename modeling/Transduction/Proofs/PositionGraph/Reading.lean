import Transduction.Proofs.PositionGraph.Parts

/-!
# Readings

A word is read by a position graph through a sequence of states, one for each symbol: the first one
is a first state, the last one is a last state, and neighbours are joined by passages (`Trace`). The
empty word is read through no state if the graph accepts it (`Reading`). What is emitted is the
output on entering, those of the passages, and the output on leaving, in order.

The readings of a node are put together from those of its sides:

* of a union, they are the readings of either side (`reading_union_iff`);
* of a concatenation, a reading of the left side and then one of the right side
  (`reading_concat_iff`);
* of a star, any number of traces of the body (`reading_star_iff`).

In each case the output of the node is emitted once, at the end. The proofs follow a reading from a
state on (`Leaves`). Inside a part that is left only together with the whole (`EndsIn`), the whole
reads as the part does; the left side of a concatenation and the body of a star can also be left
towards the next part or the next round.
-/

namespace Transduction.PositionGraph

/-! ### Reading a word -/

/-- From a state that has been entered, the rest of a word is read through the given states, and the
graph is left. The output is what is emitted after the state was entered. -/
inductive Leaves (g : PositionGraph) : StateId → List Symbol → List StateId → Output → Prop
  /-- The graph is left. -/
  | last {s : StateId} {o : Output} (last : (s, o) ∈ g.last) : Leaves g s [] [] o
  /-- One passage, then the rest. -/
  | pass {s t : StateId} {x : Symbol} {w : List Symbol} {ss : List StateId} {o p : Output}
      (passage : (s, t, o) ∈ g.follow) (reads : g.Reads t x) (rest : Leaves g t w ss p) :
      Leaves g s (x :: w) (t :: ss) (o ++ p)

/-- A word that is not empty is read through the given states, one for each symbol. -/
inductive Trace (g : PositionGraph) : List Symbol → List StateId → Output → Prop
  /-- A first state is entered, and the rest is read from there. -/
  | enter {s : StateId} {x : Symbol} {w : List Symbol} {ss : List StateId} {a o : Output}
      (first : (s, a) ∈ g.first) (reads : g.Reads s x) (rest : g.Leaves s w ss o) :
      Trace g (x :: w) (s :: ss) (a ++ o)

/-- A word is read through the given states, one for each symbol. -/
inductive Reading (g : PositionGraph) : List Symbol → List StateId → Output → Prop
  /-- The empty word is read through no state. -/
  | empty {o : Output} (empty : g.empty? = some o) : Reading g [] [] o
  /-- Any other word has a trace. -/
  | trace {w : List Symbol} {ss : List StateId} {o : Output} (trace : g.Trace w ss o) :
      Reading g w ss o

/-- The word has a reading. -/
def Accepts (g : PositionGraph) (w : List Symbol) : Prop := ∃ ss o, g.Reading w ss o

variable {g g' l r b : PositionGraph} {s : StateId} {x : Symbol} {w : List Symbol}
  {ss : List StateId} {o p out : Output}

/-- One state is entered for each symbol. -/
theorem Leaves.length_eq (h : g.Leaves s w ss o) : ss.length = w.length := by
  induction h with
  | last => rfl
  | pass _ _ _ ih => rw [List.length_cons, List.length_cons, ih]

theorem Trace.length_eq (h : g.Trace w ss o) : ss.length = w.length := by
  obtain ⟨-, -, hrest⟩ := h
  rw [List.length_cons, List.length_cons, hrest.length_eq]

theorem Reading.length_eq (h : g.Reading w ss o) : ss.length = w.length := by
  rcases h with - | htrace
  · rfl
  · exact htrace.length_eq

/-- A trace reads a symbol at least. -/
theorem Trace.ne_nil (h : g.Trace w ss o) : w ≠ [] := by
  obtain ⟨-, -, -⟩ := h
  exact List.cons_ne_nil _ _

/-- A word that is not empty is read by its traces only. -/
theorem Reading.trace_of_ne_nil (h : g.Reading w ss o) (hw : w ≠ []) : g.Trace w ss o := by
  rcases h with - | htrace
  · exact absurd rfl hw
  · exact htrace

theorem Leaves.subset_ids (h : g.Leaves s w ss o) : ss ⊆ g.ids := by
  induction h with
  | last => exact List.nil_subset _
  | pass _ reads _ ih => exact List.cons_subset.2 ⟨reads.mem_ids, ih⟩

theorem Trace.subset_ids (h : g.Trace w ss o) : ss ⊆ g.ids := by
  obtain ⟨-, hreads, hrest⟩ := h
  exact List.cons_subset.2 ⟨hreads.mem_ids, hrest.subset_ids⟩

/-- A reading stays among the occurrences. -/
theorem Reading.subset_ids (h : g.Reading w ss o) : ss ⊆ g.ids := by
  rcases h with - | htrace
  · exact List.nil_subset _
  · exact htrace.subset_ids

/-! ### Parts that are left together with the whole -/

/-- The part `g` of `g'` is left only when `g'` is, and then `g'` emits `out` after it. -/
structure EndsIn (g g' : PositionGraph) (out : Output) : Prop where
  /-- The passages out of states of the part are its own. -/
  follow : ∀ {s}, s ∈ g.ids → ∀ {t o}, (s, t, o) ∈ g'.follow ↔ (s, t, o) ∈ g.follow
  /-- States of the part read the same symbols. -/
  reads : ∀ {s}, s ∈ g.ids → ∀ {x}, g'.Reads s x ↔ g.Reads s x
  /-- The last states of the part are last states of the whole. -/
  last : ∀ {s}, s ∈ g.ids → ∀ {o}, (s, o) ∈ g'.last ↔ ∃ p, (s, p) ∈ g.last ∧ o = p ++ out

/-- **Inside such a part, the whole reads as the part does.** -/
theorem EndsIn.leaves_iff (h : g.EndsIn g' out) (hs : s ∈ g.ids) :
    g'.Leaves s w ss o ↔ ∃ p, g.Leaves s w ss p ∧ o = p ++ out := by
  refine ⟨fun hleaves ↦ ?_, fun h' ↦ ?_⟩
  · induction hleaves with
    | last hlast =>
      obtain ⟨p, hp, rfl⟩ := (h.last hs).1 hlast
      exact ⟨p, .last hp, rfl⟩
    | pass hpass hreads _ ih =>
      have hpass' := (h.follow hs).1 hpass
      have ht := (mem_ids_of_mem_follow hpass').2
      obtain ⟨p, hp, rfl⟩ := ih ht
      exact ⟨_, .pass hpass' ((h.reads ht).1 hreads) hp, (List.append_assoc ..).symm⟩
  · obtain ⟨p, hleaves, rfl⟩ := h'
    induction hleaves with
    | last hlast => exact .last ((h.last hs).2 ⟨_, hlast, rfl⟩)
    | pass hpass hreads _ ih =>
      have ht := (mem_ids_of_mem_follow hpass).2
      rw [List.append_assoc]
      exact .pass ((h.follow hs).2 hpass) ((h.reads ht).2 hreads) (ih ht)

/-- A trace of the whole that begins in such a part is a trace of the part. -/
theorem EndsIn.trace_of_leaves (h : g.EndsIn g' out) {a : Output} (hfirst : (s, a) ∈ g.first)
    (hreads : g'.Reads s x) (hrest : g'.Leaves s w ss o) :
    ∃ q, g.Trace (x :: w) (s :: ss) (a ++ q) ∧ o = q ++ out := by
  have hs := mem_ids_of_mem_first hfirst
  obtain ⟨q, hq, ho⟩ := (h.leaves_iff hs).1 hrest
  exact ⟨q, .enter hfirst ((h.reads hs).1 hreads) hq, ho⟩

/-- A trace of such a part is a trace of the whole, if the whole begins where the part does; it may
emit `p` before. -/
theorem EndsIn.trace (h : g.EndsIn g' out) (k : g.Trace w ss o)
    (hfirst : ∀ s a, (s, a) ∈ g.first → (s, p ++ a) ∈ g'.first) :
    g'.Trace w ss (p ++ o ++ out) := by
  obtain @⟨s, x, w, ss, a, o, hs, hreads, hrest⟩ := k
  have hids := mem_ids_of_mem_first hs
  have houtput : p ++ (a ++ o) ++ out = p ++ a ++ (o ++ out) := by
    simp only [List.append_assoc]
  rw [houtput]
  exact .enter (hfirst s a hs) ((h.reads hids).2 hreads) ((h.leaves_iff hids).2 ⟨o, hrest, rfl⟩)

/-- A part ends in itself with an added output. -/
theorem endsIn_emit (g : PositionGraph) (out : Output) : g.EndsIn (g.emit out) out where
  follow _ := by rw [emit_follow]
  reads {s} _ {x} := by
    show (∃ r, (s, some r) ∈ (g.emit out).ranges ∧ x ∈ r.1) ↔ _
    rw [emit_ranges]
    rfl
  last {s} _ {o} := by rw [emit_last, Boundary.mem_after]

/-- **With one more output, the same words are read**, and that output is emitted last. -/
theorem reading_emit_iff :
    (g.emit out).Reading w ss o ↔ ∃ p, g.Reading w ss p ∧ o = p ++ out := by
  have hends := endsIn_emit g out
  refine ⟨fun h ↦ ?_, fun h ↦ ?_⟩
  · rcases h with hempty | ⟨hfirst, hreads, hrest⟩
    · rw [emit_empty?, Option.map_eq_some_iff] at hempty
      obtain ⟨p, hp, rfl⟩ := hempty
      exact ⟨p, .empty hp, rfl⟩
    · rw [emit_first] at hfirst
      obtain ⟨q, htrace, rfl⟩ := hends.trace_of_leaves hfirst hreads hrest
      exact ⟨_, .trace htrace, (List.append_assoc ..).symm⟩
  · obtain ⟨p, hempty | htrace, rfl⟩ := h
    · exact .empty (by rw [emit_empty?, hempty]; rfl)
    · refine .trace (hends.trace (p := []) htrace fun s a hs ↦ ?_)
      rw [emit_first]
      exact hs

section Disjoint

variable (hdisj : l.ids.Disjoint r.ids)

include hdisj

theorem reads_union_left (hs : s ∈ l.ids) : (union l r out).Reads s x ↔ l.Reads s x := by
  simp only [Reads, ranges_union, List.mem_append]
  refine ⟨fun h ↦ ?_, fun h ↦ ?_⟩
  · obtain ⟨c, hc | hc, hx⟩ := h
    · exact ⟨c, hc, hx⟩
    · exact absurd (mem_ids_of_mem_ranges hc) (hdisj hs)
  · obtain ⟨c, hc, hx⟩ := h
    exact ⟨c, .inl hc, hx⟩

theorem reads_union_right (hs : s ∈ r.ids) : (union l r out).Reads s x ↔ r.Reads s x := by
  simp only [Reads, ranges_union, List.mem_append]
  refine ⟨fun h ↦ ?_, fun h ↦ ?_⟩
  · obtain ⟨c, hc | hc, hx⟩ := h
    · exact absurd hs (hdisj (mem_ids_of_mem_ranges hc))
    · exact ⟨c, hc, hx⟩
  · obtain ⟨c, hc, hx⟩ := h
    exact ⟨c, .inr hc, hx⟩

/-- From a state of the left branch, the union is left as the branch is. -/
theorem endsIn_union_left : l.EndsIn (union l r out) out where
  follow {s} hs {t o} := by
    rw [follow_union, List.mem_append]
    exact or_iff_left fun h ↦ hdisj hs (mem_ids_of_mem_follow h).1
  reads hs := reads_union_left hdisj hs
  last {s} hs {o} := by
    rw [last, Boundary.mem_after]
    refine exists_congr fun p ↦ and_congr_left fun _ ↦ ?_
    rw [List.mem_append]
    exact or_iff_left fun h ↦ hdisj hs (mem_ids_of_mem_last h)

/-- From a state of the right branch, the union is left as the branch is. -/
theorem endsIn_union_right : r.EndsIn (union l r out) out where
  follow {s} hs {t o} := by
    rw [follow_union, List.mem_append]
    exact or_iff_right fun h ↦ hdisj (mem_ids_of_mem_follow h).1 hs
  reads hs := reads_union_right hdisj hs
  last {s} hs {o} := by
    rw [last, Boundary.mem_after]
    refine exists_congr fun p ↦ and_congr_left fun _ ↦ ?_
    rw [List.mem_append]
    exact or_iff_right fun h ↦ hdisj (mem_ids_of_mem_last h) hs

/-- The ranges of a concatenation are those of the union. -/
theorem reads_concat_left (hs : s ∈ l.ids) : (concat l r out).Reads s x ↔ l.Reads s x := by
  have hunion : (union l r out).Reads s x ↔ l.Reads s x := reads_union_left hdisj hs
  rw [← hunion, Reads, Reads, ranges_concat, ranges_union]

theorem reads_concat_right (hs : s ∈ r.ids) : (concat l r out).Reads s x ↔ r.Reads s x := by
  have hunion : (union l r out).Reads s x ↔ r.Reads s x := reads_union_right hdisj hs
  rw [← hunion, Reads, Reads, ranges_concat, ranges_union]

/-- From a state of the right side, the concatenation is left as the side is. -/
theorem endsIn_concat_right : r.EndsIn (concat l r out) out where
  follow {s} hs {t o} := by
    rw [follow_concat, List.mem_append, List.mem_append, or_iff_right, or_iff_right]
    · exact fun h ↦ hdisj (mem_ids_of_mem_follow h).1 hs
    · intro h
      obtain ⟨p, q, hp, -, -⟩ := Boundary.mem_passages.1 h
      exact hdisj (mem_ids_of_mem_last hp) hs
  reads hs := reads_concat_right hdisj hs
  last {s} hs {o} := by
    rw [last, Boundary.mem_after]
    refine exists_congr fun p ↦ and_congr_left fun _ ↦ ?_
    rw [List.mem_append]
    refine or_iff_right fun h ↦ ?_
    split at h
    · obtain ⟨q, hq, -⟩ := Boundary.mem_after.1 h
      exact hdisj (mem_ids_of_mem_last hq) hs
    · exact List.not_mem_nil h

/-! ### Unions -/

/-- **A union reads what either side reads.** -/
theorem reading_union_iff (hagree : ∀ a b, l.empty? = some a → r.empty? = some b → a = b) :
    (union l r out).Reading w ss o ↔
      ∃ p, (l.Reading w ss p ∨ r.Reading w ss p) ∧ o = p ++ out := by
  have hleft : l.EndsIn (union l r out) out := endsIn_union_left hdisj
  have hright : r.EndsIn (union l r out) out := endsIn_union_right hdisj
  refine ⟨fun h ↦ ?_, fun h ↦ ?_⟩
  · rcases h with hempty | ⟨hfirst, hreads, hrest⟩
    · rw [empty?, Option.map_eq_some_iff] at hempty
      obtain ⟨p, hp, rfl⟩ := hempty
      rcases Option.or_eq_some_iff.1 hp with hl | ⟨-, hr⟩
      · exact ⟨p, .inl (.empty hl), rfl⟩
      · exact ⟨p, .inr (.empty hr), rfl⟩
    · rcases List.mem_append.1 hfirst with hfirst | hfirst
      · obtain ⟨q, htrace, rfl⟩ := hleft.trace_of_leaves hfirst hreads hrest
        exact ⟨_, .inl (.trace htrace), (List.append_assoc ..).symm⟩
      · obtain ⟨q, htrace, rfl⟩ := hright.trace_of_leaves hfirst hreads hrest
        exact ⟨_, .inr (.trace htrace), (List.append_assoc ..).symm⟩
  · obtain ⟨p, (hempty | htrace) | (hempty | htrace), rfl⟩ := h
    · exact .empty (by rw [empty?, hempty]; rfl)
    · exact .trace (hleft.trace (p := []) htrace fun s a hs ↦ List.mem_append_left _ hs)
    · -- the output of the left side, if there is one, stands for both
      refine .empty ?_
      rw [empty?, hempty]
      rcases hl : l.empty? with - | a
      · rfl
      · rw [hagree a p hl hempty]
        rfl
    · exact .trace (hright.trace (p := []) htrace fun s a hs ↦ List.mem_append_right _ hs)

/-! ### Concatenations -/

/-- The left side is left together with the whole if the right side accepts the empty word. -/
theorem mem_last_concat_iff (hs : s ∈ l.ids) :
    (s, o) ∈ (concat l r out).last ↔
      ∃ p q, (s, p) ∈ l.last ∧ r.empty? = some q ∧ o = p ++ q ++ out := by
  rw [last, Boundary.mem_after]
  refine ⟨fun h ↦ ?_, fun h ↦ ?_⟩
  · obtain ⟨p, hp, rfl⟩ := h
    rcases List.mem_append.1 hp with hp | hp
    · split at hp
      · next q hq =>
        obtain ⟨p, hlast, rfl⟩ := Boundary.mem_after.1 hp
        exact ⟨p, q, hlast, hq, rfl⟩
      · exact absurd hp List.not_mem_nil
    · exact absurd (mem_ids_of_mem_last hp) (hdisj hs)
  · obtain ⟨p, q, hlast, hempty, rfl⟩ := h
    rw [hempty]
    exact ⟨p ++ q, List.mem_append_left _ (Boundary.mem_after.2 ⟨p, hlast, rfl⟩), rfl⟩

/-- From the left side, a passage leads to the right side or stays on the left. -/
theorem mem_follow_concat_iff {t : StateId} (hs : s ∈ l.ids) :
    (s, t, o) ∈ (concat l r out).follow ↔
      (∃ p a, (s, p) ∈ l.last ∧ (t, a) ∈ r.first ∧ o = p ++ a) ∨ (s, t, o) ∈ l.follow := by
  rw [follow_concat, List.mem_append, List.mem_append, Boundary.mem_passages]
  exact or_congr_right (or_iff_left fun h ↦ hdisj hs (mem_ids_of_mem_follow h).1)

/-- On the left side, a word is read to the end of that side, and the right side reads the rest. -/
theorem exists_of_leaves_concat (h : (concat l r out).Leaves s w ss o) (hs : s ∈ l.ids) :
    ∃ u v su sv p q, w = u ++ v ∧ ss = su ++ sv ∧ o = p ++ q ++ out ∧ l.Leaves s u su p ∧
      r.Reading v sv q := by
  have hright : r.EndsIn (concat l r out) out := endsIn_concat_right hdisj
  induction h with
  | last hlast =>
    obtain ⟨p, q, hleft, hempty, rfl⟩ := (mem_last_concat_iff hdisj hs).1 hlast
    exact ⟨[], [], [], [], p, q, rfl, rfl, rfl, .last hleft, .empty hempty⟩
  | @pass s t x w ss o p hpass hreads hrest ih =>
    rcases (mem_follow_concat_iff hdisj hs).1 hpass with ⟨p₁, a, hlast, hfirst, rfl⟩ | hpass
    · -- the left side is left here: the rest belongs to the right side
      obtain ⟨q, htrace, rfl⟩ := hright.trace_of_leaves hfirst hreads hrest
      refine ⟨[], x :: w, [], t :: ss, p₁, a ++ q, rfl, rfl, ?_, .last hlast, .trace htrace⟩
      simp only [List.append_assoc]
    · have ht := (mem_ids_of_mem_follow hpass).2
      obtain ⟨u, v, su, sv, p', q, rfl, rfl, rfl, hl, hr⟩ := ih ht
      refine ⟨x :: u, v, t :: su, sv, o ++ p', q, rfl, rfl, ?_,
        .pass hpass ((reads_concat_left hdisj ht).1 hreads) hl, hr⟩
      simp only [List.append_assoc]

/-- What the left side reads is continued by what the right side reads. -/
theorem Leaves.concat_append {u v : List Symbol} {su sv : List StateId} {q : Output}
    (h : l.Leaves s u su p) (hs : s ∈ l.ids) (hr : r.Reading v sv q) :
    (concat l r out).Leaves s (u ++ v) (su ++ sv) (p ++ q ++ out) := by
  have hright : r.EndsIn (concat l r out) out := endsIn_concat_right hdisj
  induction h with
  | @last s p hlast =>
    rcases hr with hempty | htrace
    · exact .last ((mem_last_concat_iff hdisj hs).2 ⟨p, q, hlast, hempty, rfl⟩)
    · obtain @⟨t, x, v, sv, a, q, hfirst, hreads, hrest⟩ := htrace
      have ht := mem_ids_of_mem_first hfirst
      -- the left side ends in `s`, the right side begins in `t`
      have hpass : (s, t, p ++ a) ∈ (concat l r out).follow :=
        (mem_follow_concat_iff hdisj hs).2 (.inl ⟨p, a, hlast, hfirst, rfl⟩)
      have houtput : p ++ (a ++ q) ++ out = p ++ a ++ (q ++ out) := by
        simp only [List.append_assoc]
      rw [houtput]
      exact .pass hpass ((hright.reads ht).2 hreads) ((hright.leaves_iff ht).2 ⟨q, hrest, rfl⟩)
  | pass hpass hreads _ ih =>
    have ht := (mem_ids_of_mem_follow hpass).2
    rw [List.append_assoc, List.append_assoc, ← List.append_assoc _ q]
    exact .pass ((mem_follow_concat_iff hdisj hs).2 (.inr hpass))
      ((reads_concat_left hdisj ht).2 hreads) (ih ht)

/-- **A concatenation reads what the left side reads, then what the right side reads.** -/
theorem reading_concat_iff :
    (concat l r out).Reading w ss o ↔ ∃ u v su sv p q, w = u ++ v ∧ ss = su ++ sv ∧
      o = p ++ q ++ out ∧ l.Reading u su p ∧ r.Reading v sv q := by
  have hright : r.EndsIn (concat l r out) out := endsIn_concat_right hdisj
  refine ⟨fun h ↦ ?_, fun h ↦ ?_⟩
  · rcases h with hempty | htrace
    · rw [empty?_concat, Option.map_eq_some_iff] at hempty
      obtain ⟨e, he, rfl⟩ := hempty
      obtain ⟨p, q, hp, hq, rfl⟩ := Output.join?_eq_some_iff.1 he
      exact ⟨[], [], [], [], p, q, rfl, rfl, rfl, .empty hp, .empty hq⟩
    · obtain @⟨s, x, w, ss, a, o, hfirst, hreads, hrest⟩ := htrace
      rcases List.mem_append.1 hfirst with hfirst | hfirst
      · have hs := mem_ids_of_mem_first hfirst
        obtain ⟨u, v, su, sv, p, q, rfl, rfl, rfl, hl, hr⟩ := exists_of_leaves_concat hdisj hrest hs
        refine ⟨x :: u, v, s :: su, sv, a ++ p, q, rfl, rfl, ?_,
          .trace (.enter hfirst ((reads_concat_left hdisj hs).1 hreads) hl), hr⟩
        simp only [List.append_assoc]
      · split at hfirst
        · next e he =>
          -- the left side reads nothing and emits `e`
          obtain ⟨a', hfirst', rfl⟩ := Boundary.mem_before.1 hfirst
          obtain ⟨q, htrace, rfl⟩ := hright.trace_of_leaves hfirst' hreads hrest
          refine ⟨[], x :: w, [], s :: ss, e, a' ++ q, rfl, rfl, ?_, .empty he, .trace htrace⟩
          simp only [List.append_assoc]
        · exact absurd hfirst List.not_mem_nil
  · obtain ⟨u, v, su, sv, p, q, rfl, rfl, rfl, hempty | htrace, hr⟩ := h
    · rcases hr with hempty' | htrace
      · refine .empty ?_
        rw [empty?_concat, hempty, hempty']
        rfl
      · refine .trace (hright.trace htrace fun s a hs ↦ ?_)
        rw [first, hempty]
        exact List.mem_append_right _ (Boundary.mem_before.2 ⟨a, hs, rfl⟩)
    · obtain @⟨s, x, u, su, a, p, hfirst, hreads, hrest⟩ := htrace
      have hs := mem_ids_of_mem_first hfirst
      rw [List.append_assoc, List.append_assoc, ← List.append_assoc p]
      exact .trace (.enter (List.mem_append_left _ hfirst) ((reads_concat_left hdisj hs).2 hreads)
        (hrest.concat_append hdisj hs hr))

end Disjoint

end Transduction.PositionGraph
