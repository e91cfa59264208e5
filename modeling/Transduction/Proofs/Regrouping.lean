import Transduction.Compile
import Transduction.Proofs.Expr.Regrouping
import Transduction.Proofs.PositionGraph.Alike

/-!
# The grouping of concatenations cannot be observed

Two expressions that differ only in how their concatenations are grouped compile to one result: the
same table, edge by edge and in the same order, or the same failure (`compile_eq_of_regroups`).

Both groupings number the same leaves in the same order, and fail in the same place: a concatenation
is never refused, and a union or a star is refused for what its parts emit on the empty word, which
does not depend on their grouping. So numbering either fails alike or gives graphs that are alike
(`Regroups.numbersAlike`). The induction is on the moves; a move inside of a part is taken through
the numbering of the whole by `NumbersAlike.bind`.
-/

namespace Transduction

namespace PositionGraph

/-- The same outcome of numbering: parts that are alike, or the same failure. The same number is
free next. -/
inductive SameNumbering : Except CompileError PositionGraph × StateId →
    Except CompileError PositionGraph × StateId → Prop
  /-- Both succeed. -/
  | ok {g g' : PositionGraph} (alike : g.Alike g') (next : StateId) :
    SameNumbering (.ok g, next) (.ok g', next)
  /-- Both fail. -/
  | error (err : CompileError) (next : StateId) :
    SameNumbering (.error err, next) (.error err, next)

namespace SameNumbering

variable {p q r : Except CompileError PositionGraph × StateId}

theorem refl (p : Except CompileError PositionGraph × StateId) : SameNumbering p p := by
  rcases p with ⟨err | g, next⟩
  · exact .error err next
  · exact .ok (.refl g) next

theorem symm (h : SameNumbering p q) : SameNumbering q p := by
  cases h with
  | ok halike next => exact .ok halike.symm next
  | error err next => exact .error err next

theorem trans (h : SameNumbering p q) (h' : SameNumbering q r) : SameNumbering p r := by
  cases h with
  | ok halike next =>
    cases h' with
    | ok halike' => exact .ok (halike.trans halike') next
  | error => exact h'

end SameNumbering

/-- Two computations have the same outcome, whichever number is free first. -/
def NumbersAlike (x y : Numbering PositionGraph) : Prop :=
  ∀ next, SameNumbering (x.runFrom next) (y.runFrom next)

namespace NumbersAlike

variable {x y z : Numbering PositionGraph} {l l' r r' b b' : PositionGraph}

theorem refl (x : Numbering PositionGraph) : NumbersAlike x x := fun _ ↦ .refl _

theorem symm (h : NumbersAlike x y) : NumbersAlike y x := fun next ↦ (h next).symm

theorem trans (h : NumbersAlike x y) (h' : NumbersAlike y z) : NumbersAlike x z :=
  fun next ↦ (h next).trans (h' next)

/-- What goes on with a part goes on alike with one that is alike. -/
theorem bind {f f' : PositionGraph → Numbering PositionGraph} (h : NumbersAlike x y)
    (hf : ∀ {g g'}, g.Alike g' → NumbersAlike (f g) (f' g')) :
    NumbersAlike (x >>= f) (y >>= f') := by
  intro next
  have hsame := h next
  rw [Numbering.run_bind, Numbering.run_bind]
  generalize x.runFrom next = p at hsame ⊢
  generalize y.runFrom next = q at hsame ⊢
  cases hsame with
  | ok halike next => exact hf halike next
  | error err next => exact .error err next

theorem pure {g g' : PositionGraph} (h : g.Alike g') :
    NumbersAlike (Pure.pure g) (Pure.pure g') :=
  fun next ↦ .ok h next

/-- A union is refused for what its branches emit on the empty word. -/
theorem unite (hl : l.Alike l') (hr : r.Alike r') :
    NumbersAlike (liftM (PositionGraph.unite l r)) (liftM (PositionGraph.unite l' r')) := by
  intro next
  show SameNumbering (PositionGraph.unite l r, next) (PositionGraph.unite l' r', next)
  rw [PositionGraph.unite, PositionGraph.unite, hl.empty?, hr.empty?]
  split
  · split
    · exact .ok (hl.union hr []) next
    · exact .error _ next
  · exact .ok (hl.union hr []) next

/-- A star is refused for what its body emits on the empty word. -/
theorem iterate (hb : b.Alike b') :
    NumbersAlike (liftM (PositionGraph.iterate b)) (liftM (PositionGraph.iterate b')) := by
  intro next
  show SameNumbering (PositionGraph.iterate b, next) (PositionGraph.iterate b', next)
  rw [PositionGraph.iterate, PositionGraph.iterate, hb.empty?]
  split
  · exact .ok (hb.star []) next
  · exact .ok (hb.star []) next
  · exact .error _ next

/-- Whichever two of three parts are joined first, the same leaves are numbered in the same
order. -/
theorem concat_assoc (a b c : Expr) :
    NumbersAlike (build (.concat (.concat a b) c)) (build (.concat a (.concat b c))) := by
  intro next
  rw [build_concat, build_concat, build_concat]
  rcases (build a).runFrom next with ⟨err | ga, next⟩
  · exact .error err next
  dsimp only
  rw [build_concat]
  rcases (build b).runFrom next with ⟨err | gb, next⟩
  · exact .error err next
  dsimp only
  rcases (build c).runFrom next with ⟨err | gc, next⟩
  · exact .error err next
  · exact .ok (alike_concat_assoc ga gb gc) next

end NumbersAlike

end PositionGraph

namespace Expr

open PositionGraph (build NumbersAlike)

variable {e f : Expr}

/-- **Numbering does not see the grouping**: it fails alike, or gives graphs that are alike. -/
theorem Regroups.numbersAlike (h : Regroups e f) : NumbersAlike (build e) (build f) := by
  induction h with
  | refl e => exact .refl _
  | symm _ ih => exact ih.symm
  | trans _ _ ih ih' => exact ih.trans ih'
  | assoc a b c => exact .concat_assoc a b c
  | union _ _ ihl ihr => exact ihl.bind fun hl ↦ ihr.bind fun hr ↦ .unite hl hr
  | concat _ _ ihl ihr => exact ihl.bind fun hl ↦ ihr.bind fun hr ↦ .pure (hl.concat hr [])
  | star _ ih => exact ih.bind fun hb ↦ .iterate hb
  | emit _ out ih => exact ih.bind fun hb ↦ .pure (hb.emit out)

/-- **The grouping of concatenations cannot be observed**: wherever brackets are moved, the result
is the same table or the same failure. -/
theorem compile_eq_of_regroups (h : Regroups e f) : e.compile = f.compile := by
  have hsame := h.numbersAlike 0
  have hcoherent : ∀ g n, (build e).runFrom 0 = (.ok g, n) → g.Coherent :=
    fun g n ↦ PositionGraph.coherent_of_build
  rw [compile, compile]
  generalize (build e).runFrom 0 = p at hsame hcoherent ⊢
  generalize (build f).runFrom 0 = q at hsame ⊢
  cases hsame with
  | ok halike n => exact congrArg Except.ok (halike.ofGraph_eq (hcoherent _ n rfl))
  | error => rfl

/-- A star around three stars, the first two of which are joined first. -/
def threeStars : Expr :=
  emit (star (concat (concat (star (text "a" ['x'])) (star (text "b" ['y']))) (star (text "c" []))))
    ['z']

/-- The same, the last two of the stars being joined first. -/
def threeStarsRight : Expr :=
  emit (star (concat (star (text "a" ['x'])) (concat (star (text "b" ['y'])) (star (text "c" [])))))
    ['z']

/-- Three stars inside of a star, so the ends of each pass to beginnings of the others: both
groupings have one table. -/
theorem threeStars_compile_eq :
    threeStars ≠ threeStarsRight ∧ Regroups threeStars threeStarsRight ∧
      threeStars.compile = threeStarsRight.compile := by
  have hregroups : Regroups threeStars threeStarsRight := by decide
  exact ⟨by decide, hregroups, compile_eq_of_regroups hregroups⟩

end Expr

end Transduction
