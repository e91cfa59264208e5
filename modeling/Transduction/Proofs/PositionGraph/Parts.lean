import Mathlib.Data.List.Nodup
import Transduction.PositionGraph.Basic

/-!
# The parts of a position graph

The states of a part stay among its own occurrences that read something (`readers`): its first
states, its last states and both ends of its passages (`mem_readers_of_mem_follow`). First and last
states are listed once each if no number is given twice (`nodup_first`, `nodup_last`).

A graph is **coherent** if the sides of a union or a concatenation share no number, branches that
both accept the empty word agree on its output, and the body of a star emits nothing on it. These
are the graphs that numbering an expression gives, see `coherent_of_build`.
-/

namespace Transduction

/-! ### Boundaries and passages -/

theorem Boundary.mem_before {out o : Output} {b : Boundary} {s : StateId} :
    (s, o) ∈ b.before out ↔ ∃ p, (s, p) ∈ b ∧ o = out ++ p := by
  rw [before, List.mem_map]
  refine ⟨fun h ↦ ?_, fun h ↦ ?_⟩
  · obtain ⟨⟨t, p⟩, ht, heq⟩ := h
    obtain ⟨rfl, rfl⟩ := Prod.mk.inj heq
    exact ⟨p, ht, rfl⟩
  · obtain ⟨p, hs, rfl⟩ := h
    exact ⟨(s, p), hs, rfl⟩

theorem Boundary.mem_after {out o : Output} {b : Boundary} {s : StateId} :
    (s, o) ∈ b.after out ↔ ∃ p, (s, p) ∈ b ∧ o = p ++ out := by
  rw [after, List.mem_map]
  refine ⟨fun h ↦ ?_, fun h ↦ ?_⟩
  · obtain ⟨⟨t, p⟩, ht, heq⟩ := h
    obtain ⟨rfl, rfl⟩ := Prod.mk.inj heq
    exact ⟨p, ht, rfl⟩
  · obtain ⟨p, hs, rfl⟩ := h
    exact ⟨(s, p), hs, rfl⟩

@[simp] theorem Boundary.map_fst_before (out : Output) (b : Boundary) :
    (b.before out).map (·.1) = b.map (·.1) := by
  rw [before, List.map_map]
  rfl

@[simp] theorem Boundary.map_fst_after (out : Output) (b : Boundary) :
    (b.after out).map (·.1) = b.map (·.1) := by
  rw [after, List.map_map]
  rfl

theorem Boundary.after_after (s t : Output) (b : Boundary) :
    (b.after s).after t = b.after (s ++ t) := by
  rw [after, after, after, List.map_map]
  refine List.map_congr_left fun x _ ↦ ?_
  show (x.1, x.2 ++ s ++ t) = (x.1, x.2 ++ (s ++ t))
  rw [List.append_assoc]

theorem Boundary.before_before (s t : Output) (b : Boundary) :
    (b.before t).before s = b.before (s ++ t) := by
  rw [before, before, before, List.map_map]
  refine List.map_congr_left fun x _ ↦ ?_
  show (x.1, s ++ (t ++ x.2)) = (x.1, s ++ t ++ x.2)
  rw [List.append_assoc]

theorem Boundary.before_append (out : Output) (b c : Boundary) :
    (b ++ c).before out = b.before out ++ c.before out :=
  List.map_append

theorem Boundary.after_append (out : Output) (b c : Boundary) :
    (b ++ c).after out = b.after out ++ c.after out :=
  List.map_append

@[simp] theorem Boundary.after_nil (b : Boundary) : b.after [] = b := by
  simp [after]

theorem Boundary.append_passages (b c entries : Boundary) :
    (b ++ c).passages entries = b.passages entries ++ c.passages entries :=
  List.flatMap_append

/-- A passage joins an end and a beginning, and their outputs. -/
theorem Boundary.mem_passages {exits entries : Boundary} {s t : StateId} {o : Output} :
    (s, t, o) ∈ exits.passages entries ↔
      ∃ p q, (s, p) ∈ exits ∧ (t, q) ∈ entries ∧ o = p ++ q := by
  rw [passages, List.mem_flatMap]
  refine ⟨fun h ↦ ?_, fun h ↦ ?_⟩
  · obtain ⟨⟨s', p⟩, hs, h⟩ := h
    obtain ⟨⟨t', q⟩, ht, heq⟩ := List.mem_map.1 h
    cases heq
    exact ⟨p, q, hs, ht, rfl⟩
  · obtain ⟨p, q, hs, ht, rfl⟩ := h
    exact ⟨(s, p), hs, List.mem_map.2 ⟨(t, q), ht, rfl⟩⟩

namespace PositionGraph

variable {g l r b : PositionGraph} {s t : StateId} {o out : Output}

/-! ### Numbers and ranges, node by node -/

@[simp] theorem ids_position (p : Position) : (position p).ids = [p.state] := rfl

@[simp] theorem ids_union : (union l r out).ids = l.ids ++ r.ids := by
  rw [ids, positions_union, List.map_append]
  rfl

@[simp] theorem ids_concat : (concat l r out).ids = l.ids ++ r.ids := by
  rw [ids, positions_concat, List.map_append]
  rfl

@[simp] theorem ids_star : (star b out).ids = b.ids := rfl

/-- A graph has an occurrence at least. -/
theorem ids_ne_nil (g : PositionGraph) : g.ids ≠ [] := by
  induction g with
  | position p => exact List.cons_ne_nil _ _
  | union l r out ihl _ => exact ids_union ▸ List.append_ne_nil_of_left_ne_nil ihl _
  | concat l r out ihl _ => exact ids_concat ▸ List.append_ne_nil_of_left_ne_nil ihl _
  | star b out ih => exact ih

/-- The bound is the least number above all that occur. -/
theorem bound_le {n : Nat} (h : ∀ s ∈ g.ids, s < n) : g.bound ≤ n := by
  rw [bound]
  generalize g.ids = ids at h
  induction ids with
  | nil => exact Nat.zero_le n
  | cons s l ih =>
    obtain ⟨hs, hl⟩ := List.forall_mem_cons.1 h
    exact Nat.max_le.2 ⟨hs, ih hl⟩

@[simp] theorem ranges_position (p : Position) :
    (position p).ranges = [(p.state, p.range)] := rfl

@[simp] theorem ranges_union : (union l r out).ranges = l.ranges ++ r.ranges := by
  rw [ranges, positions_union, List.map_append]
  rfl

@[simp] theorem ranges_concat : (concat l r out).ranges = l.ranges ++ r.ranges := by
  rw [ranges, positions_concat, List.map_append]
  rfl

@[simp] theorem ranges_star : (star b out).ranges = b.ranges := rfl

/-- The numbers are listed with their symbols. -/
theorem map_fst_ranges (g : PositionGraph) : g.ranges.map (·.1) = g.ids := by
  rw [ranges, ids, List.map_map]
  rfl

/-- The states that read something. -/
def readers (g : PositionGraph) : List StateId :=
  (g.positions.filter (·.range.isSome)).map (·.state)

/-- An occurrence of the empty literal reads nothing. -/
theorem readers_position (p : Position) :
    (position p).readers = if p.range.isSome then [p.state] else [] := by
  rw [readers, positions_position, List.filter_singleton]
  cases p.range.isSome <;> rfl

@[simp] theorem readers_union : (union l r out).readers = l.readers ++ r.readers := by
  rw [readers, positions_union, List.filter_append, List.map_append]
  rfl

@[simp] theorem readers_concat : (concat l r out).readers = l.readers ++ r.readers := by
  rw [readers, positions_concat, List.filter_append, List.map_append]
  rfl

@[simp] theorem readers_star : (star b out).readers = b.readers := rfl

theorem readers_sublist_ids (g : PositionGraph) : g.readers.Sublist g.ids :=
  List.filter_sublist.map _

/-- A state reads something if some symbols are listed with it. -/
theorem mem_readers : s ∈ g.readers ↔ ∃ r, (s, some r) ∈ g.ranges := by
  rw [readers, List.mem_map]
  refine ⟨fun h ↦ ?_, fun h ↦ ?_⟩
  · obtain ⟨p, hp, rfl⟩ := h
    obtain ⟨hp, hsome⟩ := List.mem_filter.1 hp
    obtain ⟨r, hr⟩ := Option.isSome_iff_exists.1 hsome
    exact ⟨r, List.mem_map.2 ⟨p, hp, by rw [hr]⟩⟩
  · obtain ⟨r, hr⟩ := h
    obtain ⟨p, hp, heq⟩ := List.mem_map.1 hr
    obtain ⟨rfl, hrange⟩ := Prod.mk.inj heq
    exact ⟨p, List.mem_filter.2 ⟨hp, Option.isSome_iff_exists.2 ⟨r, hrange⟩⟩, rfl⟩

/-- The state reads the symbol. -/
def Reads (g : PositionGraph) (s : StateId) (x : Symbol) : Prop :=
  ∃ r, (s, some r) ∈ g.ranges ∧ x ∈ r.1

/-- What reads a symbol is an occurrence. -/
theorem Reads.mem_ids {x : Symbol} (h : g.Reads s x) : s ∈ g.ids := by
  obtain ⟨r, hr, -⟩ := h
  exact mem_ids_of_mem_ranges hr

/-! ### First states, last states, passages -/

/-- The first states are occurrences that read something, from left to right. -/
theorem map_fst_first_sublist (g : PositionGraph) : (g.first.map (·.1)).Sublist g.readers := by
  induction g with
  | position p =>
    rw [first, readers_position]
    split
    · exact List.Sublist.refl _
    · exact List.nil_sublist _
  | union l r out ihl ihr =>
    rw [first, List.map_append, readers_union]
    exact ihl.append ihr
  | concat l r out ihl ihr =>
    rw [first, List.map_append, readers_concat]
    refine ihl.append ?_
    split
    · rwa [Boundary.map_fst_before]
    · exact List.nil_sublist _
  | star b out ih => exact ih

/-- The last states are occurrences that read something, from left to right. -/
theorem map_fst_last_sublist (g : PositionGraph) : (g.last.map (·.1)).Sublist g.readers := by
  induction g with
  | position p =>
    rw [last, readers_position]
    split
    · exact List.Sublist.refl _
    · exact List.nil_sublist _
  | union l r out ihl ihr =>
    rw [last, Boundary.map_fst_after, List.map_append, readers_union]
    exact ihl.append ihr
  | concat l r out ihl ihr =>
    rw [last, Boundary.map_fst_after, List.map_append, readers_concat]
    refine List.Sublist.append ?_ ihr
    split
    · rwa [Boundary.map_fst_after]
    · exact List.nil_sublist _
  | star b out ih =>
    rw [last, Boundary.map_fst_after]
    exact ih

/-- No state is listed twice among the first ones if no number is given twice. -/
theorem nodup_first (h : g.ids.Nodup) : (g.first.map (·.1)).Nodup :=
  h.sublist ((map_fst_first_sublist g).trans (readers_sublist_ids g))

/-- No state is listed twice among the last ones if no number is given twice. -/
theorem nodup_last (h : g.ids.Nodup) : (g.last.map (·.1)).Nodup :=
  h.sublist ((map_fst_last_sublist g).trans (readers_sublist_ids g))

theorem mem_readers_of_mem_first (h : (s, o) ∈ g.first) : s ∈ g.readers :=
  (map_fst_first_sublist g).subset (List.mem_map.2 ⟨(s, o), h, rfl⟩)

theorem mem_readers_of_mem_last (h : (s, o) ∈ g.last) : s ∈ g.readers :=
  (map_fst_last_sublist g).subset (List.mem_map.2 ⟨(s, o), h, rfl⟩)

theorem mem_ids_of_mem_first (h : (s, o) ∈ g.first) : s ∈ g.ids :=
  (readers_sublist_ids g).subset (mem_readers_of_mem_first h)

theorem mem_ids_of_mem_last (h : (s, o) ∈ g.last) : s ∈ g.ids :=
  (readers_sublist_ids g).subset (mem_readers_of_mem_last h)

/-- Passages stay inside the part, and both ends read something. -/
theorem mem_readers_of_mem_follow (h : (s, t, o) ∈ g.follow) : s ∈ g.readers ∧ t ∈ g.readers := by
  induction g with
  | position p => exact absurd h List.not_mem_nil
  | union l r out ihl ihr =>
    rw [follow_union, List.mem_append] at h
    rw [readers_union, List.mem_append, List.mem_append]
    rcases h with h | h
    · exact (ihl h).imp .inl .inl
    · exact (ihr h).imp .inr .inr
  | concat l r out ihl ihr =>
    rw [follow_concat, List.mem_append, List.mem_append] at h
    rw [readers_concat, List.mem_append, List.mem_append]
    rcases h with h | h | h
    · obtain ⟨p, q, hs, ht, -⟩ := Boundary.mem_passages.1 h
      exact ⟨.inl (mem_readers_of_mem_last hs), .inr (mem_readers_of_mem_first ht)⟩
    · exact (ihl h).imp .inl .inl
    · exact (ihr h).imp .inr .inr
  | star b out ih =>
    rw [follow_star, List.mem_append] at h
    rw [readers_star]
    rcases h with h | h
    · obtain ⟨p, q, hs, ht, -⟩ := Boundary.mem_passages.1 h
      exact ⟨mem_readers_of_mem_last hs, mem_readers_of_mem_first ht⟩
    · exact ih h

/-- Both ends of a passage are occurrences. -/
theorem mem_ids_of_mem_follow (h : (s, t, o) ∈ g.follow) : s ∈ g.ids ∧ t ∈ g.ids :=
  (mem_readers_of_mem_follow h).imp (fun hs ↦ (readers_sublist_ids g).subset hs)
    fun ht ↦ (readers_sublist_ids g).subset ht

/-! ### One more output -/

theorem emit_ids (s : Output) (g : PositionGraph) : (g.emit s).ids = g.ids := by
  cases g <;> simp [emit]

theorem emit_ranges (s : Output) (g : PositionGraph) : (g.emit s).ranges = g.ranges := by
  cases g <;> simp [emit]

theorem emit_first (s : Output) (g : PositionGraph) : (g.emit s).first = g.first := by
  cases g <;> rfl

theorem emit_follow (s : Output) (g : PositionGraph) : (g.emit s).follow = g.follow := by
  cases g <;> simp [emit]

/-- An added output is emitted when the part is left. -/
theorem emit_last (s : Output) (g : PositionGraph) : (g.emit s).last = g.last.after s := by
  cases g with
  | position p =>
    rw [emit, last, last]
    dsimp only
    split <;> rfl
  | union l r out | concat l r out | star b out =>
    rw [emit, last, last, Boundary.after_after]

/-- An added output is emitted on the empty word, too. -/
theorem emit_empty? (s : Output) (g : PositionGraph) :
    (g.emit s).empty? = g.empty?.map (· ++ s) := by
  cases g with
  | position p =>
    rw [emit, empty?, empty?]
    dsimp only
    split <;> rfl
  | union l r out => cases h : l.empty?.or r.empty? <;> simp [emit, empty?, h]
  | concat l r out =>
    rw [emit, empty?_concat, empty?_concat]
    cases h : Output.join? l.empty? r.empty? <;> simp
  | star b out => rfl

/-! ### Coherent graphs -/

/-- The sides of a union or a concatenation share no number, branches that both accept the empty
word agree on its output, and the body of a star emits nothing on it. -/
def Coherent : PositionGraph → Prop
  | position _ => True
  | union l r _ =>
    l.Coherent ∧ r.Coherent ∧ l.ids.Disjoint r.ids ∧
      ∀ a b, l.empty? = some a → r.empty? = some b → a = b
  | concat l r _ => l.Coherent ∧ r.Coherent ∧ l.ids.Disjoint r.ids
  | star b _ => b.Coherent ∧ ∀ a, b.empty? = some a → a = []

/-- **In a coherent graph no number is given twice.** -/
theorem Coherent.nodup_ids (h : g.Coherent) : g.ids.Nodup := by
  induction g with
  | position p => exact List.nodup_singleton _
  | union l r out ihl ihr =>
    obtain ⟨hl, hr, hdisj, -⟩ := h
    rw [ids_union]
    exact List.nodup_append'.2 ⟨ihl hl, ihr hr, hdisj⟩
  | concat l r out ihl ihr =>
    obtain ⟨hl, hr, hdisj⟩ := h
    rw [ids_concat]
    exact List.nodup_append'.2 ⟨ihl hl, ihr hr, hdisj⟩
  | star b out ih => exact ih h.1

/-- An added output keeps a graph coherent. -/
theorem Coherent.emit (h : g.Coherent) (s : Output) : (g.emit s).Coherent := by
  cases g <;> exact h

end PositionGraph

end Transduction
