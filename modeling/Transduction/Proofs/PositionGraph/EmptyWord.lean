import Transduction.Expr.EmptyWord
import Transduction.Proofs.PositionGraph.Denotation

/-!
# Numbering and the empty word

Numbering an expression fails, and a graph emits on the empty word, as the expression alone says,
from whichever number it is numbered (`map_empty?_build`). Each node checks what its numbered parts
emit, so the induction compares the checks: `unite` is a union of two outputs, `iterate` a star.

What the graph emits on the empty word is what the expression denotes (`denotes_nil_iff`). So the
checks are exact, although there are none outside unions and stars: the check of an expression
succeeds exactly when none of its parts has two outputs on the empty word
(`exists_emptyWord_iff_sound`). Two outputs come from two branches that both have one, or from a
star whose body has one that can be repeated; all other parts have no more outputs than their own
parts have.
-/

namespace Transduction

namespace PositionGraph

open Transduction.Expr (emptyUnion emptyStar)

/-! ### The checks -/

/-- A union is refused for the outputs of its branches on the empty word. -/
theorem map_empty?_unite (l r : PositionGraph) :
    (unite l r).map empty? = emptyUnion l.empty? r.empty? := by
  rw [unite]
  rcases hl : l.empty? with - | a <;> rcases hr : r.empty? with - | b
  all_goals dsimp only [Except.map, emptyUnion]
  · rw [empty?, hl, hr]
    rfl
  · rw [empty?, hl, hr]
    exact congrArg (fun o ↦ Except.ok (some o)) (List.append_nil b)
  · rw [empty?, hl, hr]
    exact congrArg (fun o ↦ Except.ok (some o)) (List.append_nil a)
  · by_cases hab : a = b
    · rw [if_pos hab, if_pos hab]
      dsimp only
      rw [empty?, hl, hr]
      exact congrArg (fun o ↦ Except.ok (some o)) (List.append_nil a)
    · rw [if_neg hab, if_neg hab]

/-- A star is refused for the output of its body on the empty word. -/
theorem map_empty?_iterate (b : PositionGraph) :
    (iterate b).map empty? = emptyStar b.empty? := by
  rw [iterate]
  rcases b.empty? with - | ⟨- | ⟨c, out⟩⟩ <;> rfl

theorem empty?_concat_nil (l r : PositionGraph) :
    (concat l r []).empty? = Output.join? l.empty? r.empty? := by
  rw [empty?_concat]
  rcases Output.join? l.empty? r.empty? with - | o
  · rfl
  · exact congrArg some (List.append_nil o)

/-! ### Literals -/

/-- A chain whose last position reads something does not accept the empty word. -/
theorem empty?_chain {p : Position} (hp : p.range.isSome) (before : List Position) :
    (chain p before).empty? = none := by
  obtain ⟨c, hc⟩ := Option.isSome_iff_exists.1 hp
  have hposition : (position p).empty? = none := by rw [empty?, hc]; rfl
  cases before with
  | nil => exact hposition
  | cons q before => rw [chain, empty?_concat_nil, hposition, Output.join?_none_right]

/-- Among literals, the empty one alone accepts the empty word. -/
theorem empty?_ofWord (n : StateId) (word : List Symbol) (out : Output) :
    (ofWord n word out).empty? = if word.isEmpty then some out else none := by
  rcases eq_or_ne word [] with rfl | hword
  · rfl
  · obtain ⟨y, before, -, hchain⟩ := ofWord_eq_chain hword n out
    rw [hchain, empty?_chain rfl, if_neg (by simpa using hword)]

/-! ### The whole expression -/

/-- **Numbering succeeds where the check of the empty word does**, with the same output on it, and
fails with the same failure. -/
theorem map_empty?_build (e : Expr) (n : StateId) :
    ((build e).runFrom n).1.map empty? = e.emptyWord := by
  induction e generalizing n with
  | union l r ihl ihr =>
    rw [build_union, Expr.emptyWord, ← ihl n]
    rcases (build l).runFrom n with ⟨err | gl, k⟩
    · rfl
    dsimp only
    rw [← ihr k]
    rcases (build r).runFrom k with ⟨err | gr, k'⟩
    · rfl
    · exact map_empty?_unite gl gr
  | concat l r ihl ihr =>
    rw [build_concat, Expr.emptyWord, ← ihl n]
    rcases (build l).runFrom n with ⟨err | gl, k⟩
    · rfl
    dsimp only
    rw [← ihr k]
    rcases (build r).runFrom k with ⟨err | gr, k'⟩
    · rfl
    · exact congrArg Except.ok (empty?_concat_nil gl gr)
  | star b ih =>
    rw [build_star, Expr.emptyWord, ← ih n]
    rcases (build b).runFrom n with ⟨err | gb, k⟩
    · rfl
    · exact map_empty?_iterate gb
  | literal word out =>
    rw [build_literal, Expr.emptyWord]
    exact congrArg Except.ok (empty?_ofWord n word out)
  | range r out =>
    rw [Expr.emptyWord]
    by_cases hr : r.IsEmpty
    · rw [build_range_of_isEmpty hr, if_pos hr]
      rfl
    · rw [build_range hr, if_neg hr]
      rfl
  | emit b out ih =>
    rw [build_emit, Expr.emptyWord, ← ih n]
    rcases (build b).runFrom n with ⟨err | gb, k⟩
    · rfl
    · exact congrArg Except.ok (emit_empty? out gb)
  | var name => rfl

/-! ### What is denoted -/

/-- The empty word is read through no state, with the output that the graph emits on it. -/
theorem reading_nil_iff {g : PositionGraph} {ss : List StateId} {o : Output} :
    g.Reading [] ss o ↔ ss = [] ∧ g.empty? = some o := by
  constructor
  · intro h
    rcases h with hempty | htrace
    · exact ⟨rfl, hempty⟩
    · exact absurd rfl htrace.ne_nil
  · rintro ⟨rfl, hempty⟩
    exact .empty hempty

/-- **A graph emits on the empty word what the expression denotes.** -/
theorem denotes_nil_iff {e : Expr} {g : PositionGraph} {n n' : StateId} {o : Output}
    (h : (build e).runFrom n = (.ok g, n')) : e.Denotes [] o ↔ g.empty? = some o := by
  rw [denotes_iff_reading h]
  simp only [reading_nil_iff, exists_eq_left]

end PositionGraph

namespace Expr

variable {e p : Expr} {a : Option Output} {o : Output}

/-- **The output that is checked is the one that is denoted.** -/
theorem denotes_nil_iff_of_emptyWord (h : e.emptyWord = .ok a) : e.Denotes [] o ↔ a = some o := by
  rcases hbuild : (PositionGraph.build e).runFrom 0 with ⟨err | g, n⟩
  all_goals
    have hempty := PositionGraph.map_empty?_build e 0
    rw [hbuild, h] at hempty
  · cases hempty
  · rw [PositionGraph.denotes_nil_iff hbuild, ← Except.ok.inj hempty]

/-! ### Parts -/

theorem mem_parts_self (e : Expr) : e ∈ e.parts := by
  cases e <;> exact List.mem_cons_self

/-- **Where a part fails, the whole does.** -/
theorem exists_emptyWord_eq_error_of_mem_parts (hp : p ∈ e.parts)
    (h : ∃ err, p.emptyWord = .error err) : ∃ err, e.emptyWord = .error err := by
  induction e with
  | union l r ihl ihr | concat l r ihl ihr =>
    rw [parts, List.mem_cons, List.mem_append] at hp
    rcases hp with rfl | hp | hp
    · exact h
    · obtain ⟨err, hl⟩ := ihl hp
      exact ⟨err, by rw [emptyWord, hl]; rfl⟩
    · obtain ⟨err, hr⟩ := ihr hp
      rcases hl : l.emptyWord with err' | a
      · exact ⟨err', by rw [emptyWord, hl]; rfl⟩
      · exact ⟨err, by rw [emptyWord, hl, hr]; rfl⟩
  | star b ih | emit b out ih =>
    rcases List.mem_cons.1 hp with rfl | hp
    · exact h
    · obtain ⟨err, hb⟩ := ih hp
      exact ⟨err, by rw [emptyWord, hb]; rfl⟩
  | literal | range | var =>
    rwa [← List.mem_singleton.1 hp]

/-- What passes the check is sound. -/
theorem sound_of_emptyWord (h : e.emptyWord = .ok a) : e.Sound where
  not_var := by
    rintro name rfl
    cases h
  not_isEmpty := by
    rintro r out rfl hr
    rw [emptyWord, if_pos hr] at h
    cases h
  unique o o' ho ho' := by
    have heq := ((denotes_nil_iff_of_emptyWord h).1 ho).symm.trans
      ((denotes_nil_iff_of_emptyWord h).1 ho')
    exact Option.some.inj heq

/-- **Where all parts are sound, none fails.** -/
theorem exists_emptyWord_of_sound (h : ∀ p ∈ e.parts, p.Sound) : ∃ a, e.emptyWord = .ok a := by
  induction e with
  | union l r ihl ihr =>
    rw [parts, List.forall_mem_cons, List.forall_mem_append] at h
    obtain ⟨hself, hl, hr⟩ := h
    obtain ⟨a, ha⟩ := ihl hl
    obtain ⟨b, hb⟩ := ihr hr
    rw [emptyWord, ha, hb]
    show ∃ c, emptyUnion a b = .ok c
    rcases a with - | a <;> rcases b with - | b
    · exact ⟨_, rfl⟩
    · exact ⟨_, rfl⟩
    · exact ⟨_, rfl⟩
    · -- both branches have an output, so the union has both
      have hab : a = b := hself.unique a b (.inl ((denotes_nil_iff_of_emptyWord ha).2 rfl))
        (.inr ((denotes_nil_iff_of_emptyWord hb).2 rfl))
      exact ⟨some a, if_pos hab⟩
  | concat l r ihl ihr =>
    rw [parts, List.forall_mem_cons, List.forall_mem_append] at h
    obtain ⟨-, hl, hr⟩ := h
    obtain ⟨a, ha⟩ := ihl hl
    obtain ⟨b, hb⟩ := ihr hr
    exact ⟨_, by rw [emptyWord, ha, hb]; rfl⟩
  | star b ih =>
    rw [parts, List.forall_mem_cons] at h
    obtain ⟨hself, hb⟩ := h
    obtain ⟨a, ha⟩ := ih hb
    rw [emptyWord, ha]
    show ∃ c, emptyStar a = .ok c
    rcases a with - | ⟨- | ⟨c, out⟩⟩
    · exact ⟨_, rfl⟩
    · exact ⟨_, rfl⟩
    · -- no round and one round have different outputs
      have hround := Iterated.single ((denotes_nil_iff_of_emptyWord ha).2 rfl)
      cases hself.unique [] (c :: out) .nil hround
  | literal word out => exact ⟨_, rfl⟩
  | range r out =>
    have hr := (h _ (mem_parts_self _)).not_isEmpty r out rfl
    exact ⟨_, if_neg hr⟩
  | emit b out ih =>
    rw [parts, List.forall_mem_cons] at h
    obtain ⟨a, ha⟩ := ih h.2
    exact ⟨_, by rw [emptyWord, ha]; rfl⟩
  | var name => exact absurd rfl ((h _ (mem_parts_self _)).not_var name)

/-- **The check of the empty word is exact**: it succeeds exactly when all parts are sound. -/
theorem exists_emptyWord_iff_sound :
    (∃ a, e.emptyWord = .ok a) ↔ ∀ p ∈ e.parts, p.Sound := by
  refine ⟨fun h p hp ↦ ?_, exists_emptyWord_of_sound⟩
  obtain ⟨a, ha⟩ := h
  rcases hpart : p.emptyWord with err | b
  · obtain ⟨err', herr⟩ := exists_emptyWord_eq_error_of_mem_parts hp ⟨err, hpart⟩
    cases herr.symm.trans ha
  · exact sound_of_emptyWord hpart

end Expr

end Transduction
