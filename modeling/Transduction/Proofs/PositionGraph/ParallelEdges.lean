import Transduction.Proofs.PositionGraph.UniqueRuns

/-!
# Parallel edges

A state can have several edges into another one: a star passes from its last states to its first
ones, and so does a star around it, with what stands between the two emitted on the way. The edges
agree all the same (`eq_of_mem_edges`).

They do because of what stands between the two stars. If a passage of a part leads from one of its
last states to one of its first ones, it comes from a star of the part, and nothing stands around
that star, within the part, that does not accept the empty word. Then the part accepts the empty
word too, and all that is emitted around the star belongs to the output on it
(`exists_empty?_of_follow`). The body of a star emits nothing on the empty word; so its own passages
emit what the passages of the star do, and two passages with the same ends have the same output
(`follow_unique`).
-/

namespace Transduction.PositionGraph

open Transducer

variable {g l r : PositionGraph} {s t : StateId} {o p q out : Output}

/-! ### Boundaries -/

/-- A first state is entered with one output. -/
theorem first_unique (hg : g.Coherent) (h : (s, p) ∈ g.first) (h' : (s, q) ∈ g.first) : p = q :=
  congrArg Prod.snd (List.inj_on_of_nodup_map (nodup_first hg.nodup_ids) h h' rfl)

/-- A last state is left with one output. -/
theorem last_unique (hg : g.Coherent) (h : (s, p) ∈ g.last) (h' : (s, q) ∈ g.last) : p = q :=
  congrArg Prod.snd (List.inj_on_of_nodup_map (nodup_last hg.nodup_ids) h h' rfl)

/-- The passages of one product that have the same ends have the same output. -/
theorem passages_unique (hl : l.Coherent) (hr : r.Coherent)
    (h : (s, t, o) ∈ l.last.passages r.first) (hlast : (s, p) ∈ l.last)
    (hfirst : (t, q) ∈ r.first) : o = p ++ q := by
  obtain ⟨p', q', hlast', hfirst', rfl⟩ := Boundary.mem_passages.1 h
  rw [last_unique hl hlast' hlast, first_unique hr hfirst' hfirst]

/-- A first state of the left side is a first state of a concatenation. -/
theorem mem_first_concat_left (hdisj : l.ids.Disjoint r.ids) (ht : t ∈ l.ids)
    (h : (t, q) ∈ (concat l r out).first) : (t, q) ∈ l.first := by
  rcases List.mem_append.1 h with h | h
  · exact h
  · split at h
    · obtain ⟨c, hfirst, -⟩ := Boundary.mem_before.1 h
      exact absurd (mem_ids_of_mem_first hfirst) (hdisj ht)
    · exact absurd h List.not_mem_nil

/-- A first state of the right side is entered first if the left side accepts the empty word. -/
theorem mem_first_concat_right (hdisj : l.ids.Disjoint r.ids) (ht : t ∈ r.ids)
    (h : (t, q) ∈ (concat l r out).first) :
    ∃ a c, l.empty? = some a ∧ (t, c) ∈ r.first ∧ q = a ++ c := by
  rcases List.mem_append.1 h with h | h
  · exact absurd ht (hdisj (mem_ids_of_mem_first h))
  · split at h
    · next a ha =>
      obtain ⟨c, hfirst, rfl⟩ := Boundary.mem_before.1 h
      exact ⟨a, c, ha, hfirst, rfl⟩
    · exact absurd h List.not_mem_nil

/-! ### Passages from the end to the beginning -/

/-- **A part with a passage from a last state to a first one accepts the empty word**, and if it
emits nothing on it, the passage emits what is emitted on leaving the one and entering the other. -/
theorem exists_empty?_of_follow (hg : g.Coherent) (hpass : (s, t, o) ∈ g.follow)
    (hlast : (s, p) ∈ g.last) (hfirst : (t, q) ∈ g.first) :
    ∃ e, g.empty? = some e ∧ (e = [] → o = p ++ q) := by
  induction g generalizing p q with
  | position => exact absurd hpass List.not_mem_nil
  | union l r out ihl ihr =>
    obtain ⟨hl, hr, hdisj, hagree⟩ := hg
    suffices h : ∃ e p', l.empty?.or r.empty? = some e ∧ p = p' ++ out ∧
        (e = [] → o = p' ++ q) by
      obtain ⟨e, p', hempty, rfl, heq⟩ := h
      refine ⟨e ++ out, by rw [empty?, hempty]; rfl, fun hnil ↦ ?_⟩
      obtain ⟨he, rfl⟩ := List.append_eq_nil_iff.1 hnil
      rw [heq he, List.append_nil]
    rw [follow_union, List.mem_append] at hpass
    rcases hpass with hpass | hpass
    · obtain ⟨hs, ht⟩ := mem_ids_of_mem_follow hpass
      obtain ⟨p', hend, hp⟩ := ((endsIn_union_left hdisj).last hs).1 hlast
      have hbegin : (t, q) ∈ l.first :=
        (List.mem_append.1 hfirst).resolve_right fun h ↦ hdisj ht (mem_ids_of_mem_first h)
      obtain ⟨e, he, heq⟩ := ihl hl hpass hend hbegin
      exact ⟨e, p', by rw [he]; rfl, hp, heq⟩
    · obtain ⟨hs, ht⟩ := mem_ids_of_mem_follow hpass
      obtain ⟨p', hend, hp⟩ := ((endsIn_union_right hdisj).last hs).1 hlast
      have hbegin : (t, q) ∈ r.first :=
        (List.mem_append.1 hfirst).resolve_left fun h ↦ hdisj (mem_ids_of_mem_first h) ht
      obtain ⟨e, he, heq⟩ := ihr hr hpass hend hbegin
      -- if the left branch accepts the empty word too, its output is the same
      have hempty : l.empty?.or r.empty? = some e := by
        rcases ha : l.empty? with - | a
        · exact he
        · rw [hagree a e ha he]
          rfl
      exact ⟨e, p', hempty, hp, heq⟩
  | concat l r out ihl ihr =>
    obtain ⟨hl, hr, hdisj⟩ := hg
    -- both sides accept the empty word; nothing is emitted on it exactly if no part emits anything
    suffices h : ∃ a c, l.empty? = some a ∧ r.empty? = some c ∧
        (a = [] → c = [] → out = [] → o = p ++ q) by
      obtain ⟨a, c, ha, hc, heq⟩ := h
      refine ⟨a ++ c ++ out, by rw [empty?_concat, ha, hc]; rfl, fun hnil ↦ ?_⟩
      obtain ⟨hac, hout⟩ := List.append_eq_nil_iff.1 hnil
      obtain ⟨ha, hc⟩ := List.append_eq_nil_iff.1 hac
      exact heq ha hc hout
    rw [follow_concat, List.mem_append, List.mem_append] at hpass
    rcases hpass with hpass | hpass | hpass
    · -- both sides are passed over: the right one on leaving `s`, the left one on entering `t`
      obtain ⟨p', q', hlast', hfirst', rfl⟩ := Boundary.mem_passages.1 hpass
      obtain ⟨p, c, hend, hc, rfl⟩ :=
        (mem_last_concat_iff hdisj (mem_ids_of_mem_last hlast')).1 hlast
      obtain ⟨a, q, ha, hbegin, rfl⟩ :=
        mem_first_concat_right hdisj (mem_ids_of_mem_first hfirst') hfirst
      refine ⟨a, c, ha, hc, ?_⟩
      rintro rfl rfl rfl
      rw [last_unique hl hlast' hend, first_unique hr hfirst' hbegin, List.append_nil,
        List.append_nil, List.nil_append]
    · obtain ⟨hs, ht⟩ := mem_ids_of_mem_follow hpass
      obtain ⟨p, c, hend, hc, rfl⟩ := (mem_last_concat_iff hdisj hs).1 hlast
      obtain ⟨a, ha, heq⟩ := ihl hl hpass hend (mem_first_concat_left hdisj ht hfirst)
      refine ⟨a, c, ha, hc, ?_⟩
      rintro rfl rfl rfl
      rw [heq rfl, List.append_nil, List.append_nil]
    · obtain ⟨hs, ht⟩ := mem_ids_of_mem_follow hpass
      obtain ⟨p, hend, rfl⟩ := ((endsIn_concat_right hdisj).last hs).1 hlast
      obtain ⟨a, q, ha, hbegin, rfl⟩ := mem_first_concat_right hdisj ht hfirst
      obtain ⟨c, hc, heq⟩ := ihr hr hpass hend hbegin
      refine ⟨a, c, ha, hc, ?_⟩
      rintro rfl rfl rfl
      rw [heq rfl, List.append_nil, List.nil_append]
  | star b out ih =>
    obtain ⟨hb, hnothing⟩ := hg
    obtain ⟨p, hend, rfl⟩ := Boundary.mem_after.1 hlast
    refine ⟨out, rfl, ?_⟩
    rintro rfl
    rw [List.append_nil]
    rw [follow_star, List.mem_append] at hpass
    rcases hpass with hpass | hpass
    · exact passages_unique hb hb hpass hend hfirst
    · obtain ⟨e, he, heq⟩ := ih hb hpass hend hfirst
      exact heq (hnothing e he)

/-! ### Passages with the same ends -/

/-- **Two passages with the same ends have the same output**, however many stars they come from. -/
theorem follow_unique (hg : g.Coherent) (h : (s, t, o) ∈ g.follow) (h' : (s, t, p) ∈ g.follow) :
    o = p := by
  induction g with
  | position => exact absurd h List.not_mem_nil
  | union l r out ihl ihr =>
    obtain ⟨hl, hr, hdisj, -⟩ := hg
    rw [follow_union, List.mem_append] at h h'
    rcases h with h | h
    · have hs := (mem_ids_of_mem_follow h).1
      exact ihl hl h (h'.resolve_right fun h' ↦ hdisj hs (mem_ids_of_mem_follow h').1)
    · have hs := (mem_ids_of_mem_follow h).1
      exact ihr hr h (h'.resolve_left fun h' ↦ hdisj (mem_ids_of_mem_follow h').1 hs)
  | concat l r out ihl ihr =>
    obtain ⟨hl, hr, hdisj⟩ := hg
    rw [follow_concat, List.mem_append, List.mem_append] at h h'
    -- which of the three kinds a passage is of, its ends say
    rcases h with h | h | h
    · obtain ⟨p', q', hlast, hfirst, rfl⟩ := Boundary.mem_passages.1 h
      have hs := mem_ids_of_mem_last hlast
      have ht := mem_ids_of_mem_first hfirst
      rcases h' with h' | h' | h'
      · exact (passages_unique hl hr h' hlast hfirst).symm
      · exact absurd ht (hdisj (mem_ids_of_mem_follow h').2)
      · exact absurd (mem_ids_of_mem_follow h').1 (hdisj hs)
    · obtain ⟨hs, ht⟩ := mem_ids_of_mem_follow h
      rcases h' with h' | h' | h'
      · obtain ⟨_, _, -, hfirst, -⟩ := Boundary.mem_passages.1 h'
        exact absurd (mem_ids_of_mem_first hfirst) (hdisj ht)
      · exact ihl hl h h'
      · exact absurd (mem_ids_of_mem_follow h').1 (hdisj hs)
    · obtain ⟨hs, ht⟩ := mem_ids_of_mem_follow h
      rcases h' with h' | h' | h'
      · obtain ⟨_, _, hlast, -, -⟩ := Boundary.mem_passages.1 h'
        exact absurd hs (hdisj (mem_ids_of_mem_last hlast))
      · exact absurd hs (hdisj (mem_ids_of_mem_follow h').1)
      · exact ihr hr h h'
  | star b out ih =>
    obtain ⟨hb, hnothing⟩ := hg
    -- a passage of the star has the output of a passage of the body with the same ends
    have hinner : ∀ {o p}, (s, t, o) ∈ b.last.passages b.first → (s, t, p) ∈ b.follow → o = p := by
      intro o p hstar hbody
      obtain ⟨p', q', hlast, hfirst, rfl⟩ := Boundary.mem_passages.1 hstar
      obtain ⟨e, he, heq⟩ := exists_empty?_of_follow hb hbody hlast hfirst
      exact (heq (hnothing e he)).symm
    rw [follow_star, List.mem_append] at h h'
    rcases h with h | h
    · rcases h' with h' | h'
      · obtain ⟨p', q', hlast, hfirst, rfl⟩ := Boundary.mem_passages.1 h
        exact (passages_unique hb hb h' hlast hfirst).symm
      · exact hinner h h'
    · rcases h' with h' | h'
      · exact (hinner h' h).symm
      · exact ih hb h h'

/-! ### Edges -/

/-- **Edges with one source and one target are equal.** -/
theorem eq_of_mem_edges (hg : g.Coherent) {d e : Edge} (hd : d ∈ (ofGraph g).edges s)
    (he : e ∈ (ofGraph g).edges s) (htarget : d.target = e.target) : d = e := by
  have hrange : d.range = e.range := range_eq_of_target_eq hg hd he htarget
  have hout : d.out = e.out := by
    rcases mem_follow_or_mem_first hg hd with ⟨o, hpass⟩ | ⟨rfl, -⟩
    · have hs := (mem_ids_of_mem_follow hpass).1
      have hd := ((mem_edges_ofGraph hs).1 hd).1
      have he := ((mem_edges_ofGraph hs).1 he).1
      exact follow_unique hg hd (htarget ▸ he)
    · have hd := (mem_edges_ofGraph_initial.1 hd).1
      have he := (mem_edges_ofGraph_initial.1 he).1
      exact first_unique hg hd (htarget ▸ he)
  obtain ⟨range, target, out⟩ := d
  obtain ⟨range', target', out'⟩ := e
  obtain rfl : range = range' := hrange
  obtain rfl : target = target' := htarget
  obtain rfl : out = out' := hout
  rfl

end Transduction.PositionGraph
