import Transduction.Expr.Denotation
import Transduction.Proofs.Expr.Rewriting

/-!
# Rewriting keeps the meaning

Moving outputs does not change which outputs a word has (`Rewrites.denotes_iff`): the laws hold of
the relation that an expression denotes, and the relation is built from those of the parts. This
needs no assumption: an expression without a machine keeps its meaning too.
-/

namespace Transduction

/-- Rounds of a part are rounds of what contains it. -/
theorem Iterated.mono {R R' : List Symbol → Output → Prop} (h : ∀ w o, R w o → R' w o)
    {w : List Symbol} {o : Output} (hw : Iterated R w o) : Iterated R' w o := by
  induction hw with
  | nil => exact .nil
  | cons head _ ih => exact .cons (h _ _ head) ih

namespace Expr

variable {e f : Expr}

/-- **The laws keep the meaning.** -/
theorem Law.denotes_iff (h : Law e f) (w : List Symbol) (o : Output) :
    e.Denotes w o ↔ f.Denotes w o := by
  cases h with
  | emit_nil => simp only [Denotes, List.append_nil, exists_eq_right']
  | emit_literal word out s =>
    simp only [Denotes]
    refine ⟨fun h ↦ ?_, fun h ↦ ?_⟩
    · obtain ⟨p, ⟨hw, rfl⟩, ho⟩ := h
      exact ⟨hw, ho⟩
    · obtain ⟨hw, ho⟩ := h
      exact ⟨out, ⟨hw, rfl⟩, ho⟩
  | emit_range r out s =>
    simp only [Denotes]
    refine ⟨fun h ↦ ?_, fun h ↦ ?_⟩
    · obtain ⟨p, ⟨x, hx, hw, rfl⟩, ho⟩ := h
      exact ⟨x, hx, hw, ho⟩
    · obtain ⟨x, hx, hw, ho⟩ := h
      exact ⟨out, ⟨x, hx, hw, rfl⟩, ho⟩
  | emit_emit b out s =>
    simp only [Denotes]
    refine ⟨fun h ↦ ?_, fun h ↦ ?_⟩
    · obtain ⟨q, ⟨p, hp, rfl⟩, ho⟩ := h
      exact ⟨p, hp, ho.trans (List.append_assoc ..)⟩
    · obtain ⟨p, hp, ho⟩ := h
      exact ⟨p ++ out, ⟨p, hp, rfl⟩, ho.trans (List.append_assoc ..).symm⟩
  | emit_concat l r s =>
    simp only [Denotes]
    refine ⟨fun h ↦ ?_, fun h ↦ ?_⟩
    · obtain ⟨_, ⟨u, v, p, q, hw, rfl, hl, hr⟩, ho⟩ := h
      exact ⟨u, v, p, q ++ s, hw, ho.trans (List.append_assoc ..), hl, q, hr, rfl⟩
    · obtain ⟨u, v, p, _, hw, ho, hl, q, hr, rfl⟩ := h
      exact ⟨p ++ q, ⟨u, v, p, q, hw, rfl, hl, hr⟩, ho.trans (List.append_assoc ..).symm⟩
  | empty_concat =>
    simp only [Denotes]
    refine ⟨fun h ↦ ?_, fun h ↦ ?_⟩
    · obtain ⟨u, v, p, q, rfl, rfl, ⟨rfl, rfl⟩, hr⟩ := h
      exact hr
    · exact ⟨[], w, [], o, rfl, rfl, ⟨rfl, rfl⟩, h⟩
  | concat_empty l out =>
    simp only [Denotes]
    refine ⟨fun h ↦ ?_, fun h ↦ ?_⟩
    · obtain ⟨u, v, p, q, rfl, rfl, hl, rfl, rfl⟩ := h
      rw [List.append_nil]
      exact ⟨p, hl, rfl⟩
    · obtain ⟨p, hl, ho⟩ := h
      exact ⟨w, [], p, out, (List.append_nil w).symm, ho, hl, rfl, rfl⟩
  | literal_literal u v out s =>
    simp only [Denotes]
    refine ⟨fun h ↦ ?_, fun h ↦ ?_⟩
    · obtain ⟨_, _, _, _, rfl, rfl, ⟨rfl, rfl⟩, rfl, rfl⟩ := h
      exact ⟨rfl, rfl⟩
    · obtain ⟨rfl, rfl⟩ := h
      exact ⟨u, v, out, s, rfl, rfl, ⟨rfl, rfl⟩, rfl, rfl⟩
  | empty_range out r s =>
    simp only [Denotes]
    refine ⟨fun h ↦ ?_, fun h ↦ ?_⟩
    · obtain ⟨_, _, _, _, rfl, rfl, ⟨rfl, rfl⟩, x, hx, rfl, rfl⟩ := h
      exact ⟨x, hx, rfl, rfl⟩
    · obtain ⟨x, hx, rfl, rfl⟩ := h
      exact ⟨[], [x], out, s, rfl, rfl, ⟨rfl, rfl⟩, x, hx, rfl, rfl⟩

/-- **Rewriting keeps the meaning.** -/
theorem Rewrites.denotes_iff (h : Rewrites e f) (w : List Symbol) (o : Output) :
    e.Denotes w o ↔ f.Denotes w o := by
  induction h generalizing w o with
  | refl => exact .rfl
  | trans _ _ ih ih' => exact (ih w o).trans (ih' w o)
  | law hlaw => exact hlaw.denotes_iff w o
  | symm hlaw => exact (hlaw.denotes_iff w o).symm
  | hoist l r s => simp only [Denotes, or_and_right, exists_or]
  | union _ _ ihl ihr => exact or_congr (ihl w o) (ihr w o)
  | concat _ _ ihl ihr => simp only [Denotes, ihl, ihr]
  | star _ ih => exact ⟨.mono fun w o ↦ (ih w o).1, .mono fun w o ↦ (ih w o).2⟩
  | emit _ out ih => simp only [Denotes, ih]

/-- **Normalisation keeps the meaning.** -/
theorem denotes_normalize_iff (e : Expr) (w : List Symbol) (o : Output) :
    e.normalize.Denotes w o ↔ e.Denotes w o :=
  ((rewrites_normalize e).denotes_iff w o).symm

end Expr

end Transduction
