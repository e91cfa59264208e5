import Transduction.Expr.Regrouping

/-!
# One grouping for each expression

Moving brackets is undone by grouping every chain to the right: what differs in its grouping only is
then equal (`Regroups.groupRight_eq`), since joining chains that are grouped to the right is
associative (`concatRight_assoc`). Grouping to the right moves brackets and does nothing else
(`regroups_groupRight`), so equality after grouping is the whole relation
(`regroups_iff_groupRight_eq`) and can be decided.
-/

namespace Transduction.Expr

variable {e f : Expr}

/-- Chains can be joined in any order. -/
theorem concatRight_assoc (a b c : Expr) :
    concatRight (concatRight a b) c = concatRight a (concatRight b c) := by
  induction a with
  | concat x y _ ih => exact congrArg (concat x) ih
  | union | star | literal | range | emit | var => rfl

/-- **What differs in its grouping only is equal when it is grouped to the right.** -/
theorem Regroups.groupRight_eq (h : Regroups e f) : e.groupRight = f.groupRight := by
  induction h with
  | refl e => rfl
  | symm _ ih => exact ih.symm
  | trans _ _ ih ih' => exact ih.trans ih'
  | assoc a b c => exact concatRight_assoc _ _ _
  | union _ _ ihl ihr => rw [groupRight, groupRight, ihl, ihr]
  | concat _ _ ihl ihr => rw [groupRight, groupRight, ihl, ihr]
  | star _ ih => rw [groupRight, groupRight, ih]
  | emit _ out ih => rw [groupRight, groupRight, ih]

/-- To join two expressions to the right only regroups them. -/
theorem regroups_concatRight (l r : Expr) : Regroups (concat l r) (concatRight l r) := by
  induction l with
  | concat a b _ ih => exact (Regroups.assoc a b r).trans (.concat (.refl a) ih)
  | union | star | literal | range | emit | var => exact .refl _

/-- Grouping to the right moves brackets only. -/
theorem regroups_groupRight (e : Expr) : Regroups e e.groupRight := by
  induction e with
  | union l r ihl ihr => exact .union ihl ihr
  | concat l r ihl ihr => exact (Regroups.concat ihl ihr).trans (regroups_concatRight _ _)
  | star b ih => exact .star ih
  | emit b out ih => exact .emit ih out
  | literal | range | var => exact .refl _

/-- **Two expressions differ in their grouping only if grouping to the right makes them equal**, and
conversely. -/
theorem regroups_iff_groupRight_eq : Regroups e f ↔ e.groupRight = f.groupRight := by
  refine ⟨Regroups.groupRight_eq, fun h ↦ ?_⟩
  have hright := regroups_groupRight f
  rw [← h] at hright
  exact (regroups_groupRight e).trans hright.symm

instance (e f : Expr) : Decidable (Regroups e f) :=
  decidable_of_iff _ regroups_iff_groupRight_eq.symm

end Transduction.Expr
