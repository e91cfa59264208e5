import Mathlib.Data.List.Forall2
import Transduction.Expr.Unambiguous
import Transduction.Proofs.PositionGraph.Simple
import Transduction.Proofs.PositionGraph.Trim

/-!
# Unambiguous graphs

A graph is **unambiguous** if it is simple and no word is read through two sequences of states.
This is a condition on states and passages; an expression is unambiguous by a condition on the words
that its parts accept. The two agree (`unambiguous_iff_of_build`), node by node:

* for a union, a word that both sides read goes through the states of either
  (`unambiguous_union_iff`);
* for a concatenation, the states tell where the word is divided (`unambiguous_concat_iff`);
* for a star, they tell where the rounds end, and a passage that stands both in the body and between
  rounds gives one word two divisions (`unambiguous_star_iff`).

To see that the parts of an unambiguous graph are unambiguous themselves, a reading of a part is
completed to one of the whole, which needs that no state is dead.
-/

namespace Transduction.PositionGraph

/-- No state is passed to from another in two ways, and each word is read through one sequence of
states at most. -/
structure Unambiguous (g : PositionGraph) : Prop where
  /-- No state is passed to from another in two ways. -/
  simple : g.Simple
  /-- Two readings of a word go through the same states. -/
  unique : ∀ {w ss ts o p}, g.Reading w ss o → g.Reading w ts p → ss = ts

variable {g l r b : PositionGraph} {n n' s : StateId} {w : List Symbol} {ss : List StateId}
  {o out : Output} {e : Expr}

/-- Two readings of the empty word go through no state. -/
theorem Reading.eq_nil_of_nil (h : g.Reading [] ss o) : ss = [] :=
  List.length_eq_zero_iff.1 h.length_eq

/-! ### Leaves of the expression -/

/-- One occurrence reads a word in one way at most. -/
theorem unambiguous_position (c : SymbolClass) (out : Output) :
    (position ⟨s, some c, out⟩).Unambiguous where
  simple := simple_position _
  unique hss hts := by
    obtain ⟨-, -, -, rfl, -⟩ := reading_position_iff.1 hss
    obtain ⟨-, -, -, rfl, -⟩ := reading_position_iff.1 hts
    rfl

/-- A literal reads a word in one way at most. -/
theorem unambiguous_ofWord {word : List Symbol} (h : (ofWord n word out).Coherent) :
    (ofWord n word out).Unambiguous where
  simple := by
    rcases eq_or_ne word [] with rfl | hword
    · exact simple_position _
    · obtain ⟨y, before, -, hchain⟩ := ofWord_eq_chain hword n out
      rw [hchain] at h ⊢
      exact simple_chain h
  unique hss hts := by
    obtain ⟨-, rfl, -⟩ := (reading_ofWord_iff h).1 hss
    obtain ⟨-, rfl, -⟩ := (reading_ofWord_iff h).1 hts
    rfl

/-- An added output does not matter for ambiguity. -/
theorem unambiguous_emit_iff : (g.emit out).Unambiguous ↔ g.Unambiguous := by
  refine ⟨fun h ↦ ?_, fun h ↦ ?_⟩
  · refine ⟨simple_emit_iff.1 h.simple, fun hss hts ↦ ?_⟩
    exact h.unique (reading_emit_iff.2 ⟨_, hss, rfl⟩) (reading_emit_iff.2 ⟨_, hts, rfl⟩)
  · refine ⟨simple_emit_iff.2 h.simple, fun hss hts ↦ ?_⟩
    obtain ⟨p, hss, -⟩ := reading_emit_iff.1 hss
    obtain ⟨q, hts, -⟩ := reading_emit_iff.1 hts
    exact h.unique hss hts

/-! ### Unions -/

/-- **A union is unambiguous if its sides are and share no word but the empty one.** -/
theorem unambiguous_union_iff (hdisj : l.ids.Disjoint r.ids)
    (hagree : ∀ a b, l.empty? = some a → r.empty? = some b → a = b) :
    (union l r out).Unambiguous ↔
      l.Unambiguous ∧ r.Unambiguous ∧ ∀ w, w ≠ [] → l.Accepts w → ¬ r.Accepts w := by
  have hleft : ∀ {w ss o}, l.Reading w ss o → (union l r out).Reading w ss (o ++ out) :=
    fun h ↦ (reading_union_iff hdisj hagree).2 ⟨_, .inl h, rfl⟩
  have hright : ∀ {w ss o}, r.Reading w ss o → (union l r out).Reading w ss (o ++ out) :=
    fun h ↦ (reading_union_iff hdisj hagree).2 ⟨_, .inr h, rfl⟩
  refine ⟨fun h ↦ ?_, fun h' ↦ ?_⟩
  · obtain ⟨hl, hr⟩ := (simple_union_iff hdisj).1 h.simple
    refine ⟨⟨hl, fun hss hts ↦ h.unique (hleft hss) (hleft hts)⟩,
      ⟨hr, fun hss hts ↦ h.unique (hright hss) (hright hts)⟩, ?_⟩
    rintro w hw ⟨ss, o, hss⟩ ⟨ts, p, hts⟩
    -- the states of a common word would be states of both sides
    have heq : ss = ts := h.unique (hleft hss) (hright hts)
    have hlength : ss.length = w.length := hss.length_eq
    obtain ⟨s, hs⟩ : ∃ s, s ∈ ss := List.exists_mem_of_length_pos (by
      rw [hlength]
      exact List.length_pos_iff.2 hw)
    exact hdisj (hss.subset_ids hs) (hts.subset_ids (heq ▸ hs))
  · obtain ⟨hl, hr, hcommon⟩ := h'
    refine ⟨(simple_union_iff hdisj).2 ⟨hl.simple, hr.simple⟩, fun {w ss ts o p} hss hts ↦ ?_⟩
    rcases eq_or_ne w [] with rfl | hw
    · rw [hss.eq_nil_of_nil, hts.eq_nil_of_nil]
    obtain ⟨p, hss | hss, -⟩ := (reading_union_iff hdisj hagree).1 hss <;>
      obtain ⟨q, hts | hts, -⟩ := (reading_union_iff hdisj hagree).1 hts
    · exact hl.unique hss hts
    · exact absurd ⟨_, _, hts⟩ (hcommon w hw ⟨_, _, hss⟩)
    · exact absurd ⟨_, _, hss⟩ (hcommon w hw ⟨_, _, hts⟩)
    · exact hr.unique hss hts

/-! ### Concatenations -/

/-- The states of a concatenation tell which of them belong to the left side. -/
theorem append_inj_of_disjoint {su sv su' sv' : List StateId} (hdisj : l.ids.Disjoint r.ids)
    (hu : su ⊆ l.ids) (hv : sv ⊆ r.ids) (hu' : su' ⊆ l.ids) (hv' : sv' ⊆ r.ids)
    (h : su ++ sv = su' ++ sv') : su = su' ∧ sv = sv' := by
  induction su generalizing su' with
  | nil =>
    rcases su' with - | ⟨t, su'⟩
    · exact ⟨rfl, h⟩
    · -- the longer left part would reach into the right side
      have ht : t ∈ sv := by
        rw [List.nil_append] at h
        rw [h]
        exact List.mem_cons_self
      exact absurd (hv ht) (hdisj (hu' List.mem_cons_self))
  | cons s su ih =>
    rcases su' with - | ⟨t, su'⟩
    · have hs : s ∈ sv' := by
        rw [List.nil_append] at h
        rw [← h]
        exact List.mem_cons_self
      exact absurd (hv' hs) (hdisj (hu List.mem_cons_self))
    · obtain ⟨rfl, htail⟩ := List.cons.inj h
      obtain ⟨rfl, rfl⟩ := ih (List.cons_subset.1 hu).2 (List.cons_subset.1 hu').2 htail
      exact ⟨rfl, rfl⟩

/-- **A concatenation is unambiguous if its sides are and every word has one division.** -/
theorem unambiguous_concat_iff (hl : l.Coherent) (hr : r.Coherent)
    (hdisj : l.ids.Disjoint r.ids) :
    (concat l r out).Unambiguous ↔ l.Unambiguous ∧ r.Unambiguous ∧
      ∀ u v s t, l.Accepts u → r.Accepts v → l.Accepts s → r.Accepts t →
        u ++ v = s ++ t → u = s := by
  have hsimple : (concat l r out).Simple ↔ l.Simple ∧ r.Simple :=
    simple_concat_iff hl.nodup_ids hr.nodup_ids hdisj
  have hjoin : ∀ {u v su sv p q}, l.Reading u su p → r.Reading v sv q →
      (concat l r out).Reading (u ++ v) (su ++ sv) (p ++ q ++ out) := fun hu hv ↦
    (reading_concat_iff hdisj).2 ⟨_, _, _, _, _, _, rfl, rfl, rfl, hu, hv⟩
  refine ⟨fun h ↦ ?_, fun h ↦ ?_⟩
  · -- one word of the other side completes the readings of a side
    obtain ⟨u₀, su₀, p₀, hu₀⟩ := exists_reading hl
    obtain ⟨v₀, sv₀, q₀, hv₀⟩ := exists_reading hr
    refine ⟨⟨(hsimple.1 h.simple).1, fun hss hts ↦ ?_⟩, ⟨(hsimple.1 h.simple).2, fun hss hts ↦ ?_⟩,
      ?_⟩
    · exact List.append_cancel_right (h.unique (hjoin hss hv₀) (hjoin hts hv₀))
    · exact List.append_cancel_left (h.unique (hjoin hu₀ hss) (hjoin hu₀ hts))
    · rintro u v s t ⟨su, p, hu⟩ ⟨sv, q, hv⟩ ⟨ss, p', hs⟩ ⟨st, q', ht⟩ heq
      have hstates : su ++ sv = ss ++ st := by
        have hword := hjoin hs ht
        rw [← heq] at hword
        exact h.unique (hjoin hu hv) hword
      -- the states tell where the left side ends, and each state reads one symbol
      obtain ⟨hleft, -⟩ := append_inj_of_disjoint hdisj hu.subset_ids hv.subset_ids hs.subset_ids
        ht.subset_ids hstates
      have hlength : u.length = s.length := by
        rw [← hu.length_eq, ← hs.length_eq, hleft]
      exact (List.append_inj heq hlength).1
  · obtain ⟨hleft, hright, hdivision⟩ := h
    refine ⟨hsimple.2 ⟨hleft.simple, hright.simple⟩, fun hss hts ↦ ?_⟩
    obtain ⟨u, v, su, sv, p, q, rfl, rfl, -, hu, hv⟩ := (reading_concat_iff hdisj).1 hss
    obtain ⟨u', v', su', sv', p', q', heq, rfl, -, hu', hv'⟩ := (reading_concat_iff hdisj).1 hts
    obtain rfl := hdivision u v u' v' ⟨_, _, hu⟩ ⟨_, _, hv⟩ ⟨_, _, hu'⟩ ⟨_, _, hv'⟩ heq
    obtain rfl := List.append_cancel_left heq
    rw [hleft.unique hu hu', hright.unique hv hv']

/-! ### Stars -/

/-- Words of the body that are not empty are the words of some rounds. -/
theorem exists_rounds {us : List (List Symbol)} (h : ∀ u ∈ us, u ≠ [] ∧ b.Accepts u) :
    ∃ ss o, b.Rounds us.flatten ss o := by
  induction us with
  | nil => exact ⟨[], [], .nil⟩
  | cons u us ih =>
    obtain ⟨⟨hu, su, p, hreading⟩, htail⟩ := List.forall_mem_cons.1 h
    obtain ⟨ss, o, hrounds⟩ := ih htail
    exact ⟨_, _, .cons (hreading.trace_of_ne_nil hu) hrounds⟩

/-- The words of some rounds, each with the states that it is read through. -/
theorem Rounds.exists_words (h : b.Rounds w ss o) :
    ∃ (us : List (List Symbol)) (sss : List (List StateId)), us.flatten = w ∧ sss.flatten = ss ∧
      List.Forall₂ (fun u su ↦ ∃ p, b.Trace u su p) us sss := by
  induction h with
  | nil => exact ⟨[], [], rfl, rfl, .nil⟩
  | @cons u v su sv p q head _ ih =>
    obtain ⟨us, sss, rfl, rfl, hall⟩ := ih
    exact ⟨u :: us, su :: sss, rfl, rfl, .cons ⟨p, head⟩ hall⟩

/-- The words of rounds are words of the body that are not empty. -/
theorem accepts_of_forall₂ {us : List (List Symbol)} {sss : List (List StateId)}
    (h : List.Forall₂ (fun u su ↦ ∃ p, b.Trace u su p) us sss) :
    ∀ u ∈ us, u ≠ [] ∧ b.Accepts u := by
  induction h with
  | nil => exact fun u hu ↦ absurd hu List.not_mem_nil
  | cons head _ ih =>
    obtain ⟨p, htrace⟩ := head
    exact List.forall_mem_cons.2 ⟨⟨htrace.ne_nil, _, _, .trace htrace⟩, ih⟩

/-- **In an unambiguous star a word has one division into rounds.** -/
theorem eq_of_flatten_eq (hb : b.Coherent) (h : (star b out).Unambiguous)
    {us vs : List (List Symbol)} (hus : ∀ u ∈ us, u ≠ [] ∧ b.Accepts u)
    (hvs : ∀ v ∈ vs, v ≠ [] ∧ b.Accepts v) (heq : us.flatten = vs.flatten) : us = vs := by
  induction us generalizing vs with
  | nil =>
    rcases vs with - | ⟨v, vs⟩
    · rfl
    · rw [List.flatten_nil, List.flatten_cons] at heq
      exact absurd (List.append_eq_nil_iff.1 heq.symm).1 (hvs v List.mem_cons_self).1
  | cons u us ih =>
    rcases vs with - | ⟨v, vs⟩
    · rw [List.flatten_nil, List.flatten_cons] at heq
      exact absurd (List.append_eq_nil_iff.1 heq).1 (hus u List.mem_cons_self).1
    · obtain ⟨⟨hu, su, p, hsu⟩, hus'⟩ := List.forall_mem_cons.1 hus
      obtain ⟨⟨hv, sv, q, hsv⟩, hvs'⟩ := List.forall_mem_cons.1 hvs
      obtain ⟨ss, o, hss⟩ := exists_rounds hus'
      obtain ⟨ts, o', hts⟩ := exists_rounds hvs'
      have hut : b.Trace u su p := hsu.trace_of_ne_nil hu
      have hvt : b.Trace v sv q := hsv.trace_of_ne_nil hv
      rw [List.flatten_cons, List.flatten_cons] at heq
      have hstates : su ++ ss = sv ++ ts := by
        have hword := Rounds.cons hvt hts
        rw [← heq] at hword
        exact h.unique (reading_star_iff.2 ⟨_, .cons hut hss, rfl⟩)
          (reading_star_iff.2 ⟨_, hword, rfl⟩)
      -- neither of the first rounds is longer than the other
      have hle := hut.length_le_of_simple hb.nodup_ids h.simple hss hvt hstates
      have hge := hvt.length_le_of_simple hb.nodup_ids h.simple hts hut hstates.symm
      have hlength : u.length = v.length := by
        rw [← hut.length_eq, ← hvt.length_eq]
        exact Nat.le_antisymm hge hle
      obtain ⟨rfl, htail⟩ := List.append_inj heq hlength
      rw [ih hus' hvs' htail]

/-- A passage of the body from a last state to a first one gives a word two divisions. -/
theorem exists_two_divisions (hb : b.Coherent) {t : StateId} {a c : Output}
    (hs : (s, a) ∈ b.last) (ht : (t, c) ∈ b.first) (hpass : (s, t, o) ∈ b.follow) :
    ∃ u v, (u ≠ [] ∧ b.Accepts u) ∧ (v ≠ [] ∧ b.Accepts v) ∧ b.Accepts (u ++ v) := by
  obtain ⟨u, henters⟩ := exists_enters hb (mem_readers_of_mem_last hs)
  have hreader := mem_readers_of_mem_first ht
  obtain ⟨v, ts, p, hleaves⟩ := exists_leaves hb hreader
  obtain ⟨d, hd⟩ := mem_readers.1 hreader
  have hreads : b.Reads t d.1.lower := ⟨d, hd, d.lower_mem⟩
  obtain ⟨su, q, hu⟩ := henters.append_leaves (.last hs)
  obtain ⟨suv, q', huv⟩ := henters.append_leaves (.pass hpass hreads hleaves)
  rw [List.append_nil] at hu
  have hv : b.Trace (d.1.lower :: v) (t :: ts) (c ++ p) := .enter ht hreads hleaves
  exact ⟨u, d.1.lower :: v, ⟨hu.ne_nil, _, _, .trace hu⟩, ⟨hv.ne_nil, _, _, .trace hv⟩, _, _,
    .trace huv⟩

/-- **A star is unambiguous if its body is and every word has one division into rounds.** -/
theorem unambiguous_star_iff (hb : b.Coherent) :
    (star b out).Unambiguous ↔ b.Unambiguous ∧ ∀ us vs : List (List Symbol),
      (∀ u ∈ us, u ≠ [] ∧ b.Accepts u) → (∀ v ∈ vs, v ≠ [] ∧ b.Accepts v) →
        us.flatten = vs.flatten → us = vs := by
  refine ⟨fun h ↦ ?_, fun h ↦ ?_⟩
  · refine ⟨⟨((simple_star_iff hb.nodup_ids).1 h.simple).1, fun {w ss ts o p} hss hts ↦ ?_⟩,
      fun us vs ↦ eq_of_flatten_eq hb h⟩
    rcases eq_or_ne w [] with rfl | hw
    · rw [hss.eq_nil_of_nil, hts.eq_nil_of_nil]
    · exact h.unique (.trace (hss.trace_of_ne_nil hw).star) (.trace (hts.trace_of_ne_nil hw).star)
  · obtain ⟨hbody, hdivision⟩ := h
    refine ⟨(simple_star_iff hb.nodup_ids).2 ⟨hbody.simple, fun hs ht o hpass ↦ ?_⟩,
      fun hss hts ↦ ?_⟩
    · -- where the body passes itself from its end to its start, two rounds are also one
      obtain ⟨u, v, hu, hv, huv⟩ := exists_two_divisions hb hs ht hpass
      have hne : u ++ v ≠ [] := List.append_ne_nil_of_left_ne_nil hu.1 v
      have heq : [u, v] = [u ++ v] := by
        refine hdivision _ _ (List.forall_mem_cons.2 ⟨hu, List.forall_mem_singleton.2 hv⟩)
          (List.forall_mem_singleton.2 ⟨hne, huv⟩) ?_
        rw [List.flatten_cons, List.flatten_singleton, List.flatten_singleton]
      exact List.cons_ne_nil v [] (List.cons.inj heq).2
    · obtain ⟨p, hrounds, -⟩ := reading_star_iff.1 hss
      obtain ⟨q, hrounds', -⟩ := reading_star_iff.1 hts
      obtain ⟨us, sss, rfl, rfl, hall⟩ := hrounds.exists_words
      obtain ⟨vs, tss, heq, rfl, hall'⟩ := hrounds'.exists_words
      obtain rfl := hdivision us vs (accepts_of_forall₂ hall) (accepts_of_forall₂ hall') heq.symm
      -- the rounds are the same words, and the body reads each of them in one way
      have hunique : Relator.RightUnique fun u su ↦ ∃ p, b.Trace u su p := by
        rintro u su su' ⟨p, hp⟩ ⟨q, hq⟩
        exact hbody.unique (.trace hp) (.trace hq)
      rw [List.right_unique_forall₂' hunique hall hall']

/-! ### The whole expression -/

/-- **The graph of an expression is unambiguous exactly when the expression is.** -/
theorem unambiguous_iff_of_build (h : (build e).runFrom n = (.ok g, n')) :
    g.Unambiguous ↔ e.Unambiguous := by
  induction e generalizing n n' g with
  | union l r ihl ihr =>
    obtain ⟨gl, k, gr, hl, hr, rfl, hagree⟩ := build_union_eq_ok h
    rw [unambiguous_union_iff (disjoint_ids_of_build hl hr) hagree, ihl hl, ihr hr]
    simp only [Expr.Unambiguous, accepts_iff hl, accepts_iff hr]
  | concat l r ihl ihr =>
    obtain ⟨gl, k, gr, hl, hr, rfl⟩ := build_concat_eq_ok h
    rw [unambiguous_concat_iff (coherent_of_build hl) (coherent_of_build hr)
      (disjoint_ids_of_build hl hr), ihl hl, ihr hr]
    simp only [Expr.Unambiguous, accepts_iff hl, accepts_iff hr]
  | star b ih =>
    obtain ⟨gb, hb, rfl, -⟩ := build_star_eq_ok h
    rw [unambiguous_star_iff (coherent_of_build hb), ih hb]
    simp only [Expr.Unambiguous, accepts_iff hb]
  | literal word out =>
    have hcoherent := coherent_of_build h
    rw [build_literal] at h
    obtain ⟨hg, -⟩ := Prod.mk.inj h
    cases hg
    exact iff_of_true (unambiguous_ofWord hcoherent) trivial
  | range s out =>
    obtain ⟨hs, rfl, -⟩ := build_range_eq_ok h
    exact iff_of_true (unambiguous_position _ _) trivial
  | emit b out ih =>
    obtain ⟨gb, hb, rfl⟩ := build_emit_eq_ok h
    rw [unambiguous_emit_iff]
    exact ih hb
  | var name =>
    rw [build_var] at h
    cases h

end Transduction.PositionGraph
