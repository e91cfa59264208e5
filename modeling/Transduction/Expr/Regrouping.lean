import Transduction.Expr.Basic

/-!
# The grouping of concatenations

A chain of concatenations can be grouped in many ways. `Expr.Regroups` says that two expressions
differ in this only: brackets are moved in chains of concatenations, anywhere in the expressions,
and all else stays as it is.

`Expr.groupRight` moves all brackets of every chain to the right. This makes expressions equal that
differ in their grouping only, and no others.

## Main definitions

* `Expr.Regroups`: the same expression up to the grouping of concatenations;
* `Expr.groupRight`: every chain of concatenations grouped to the right.
-/

namespace Transduction.Expr

/-- The first expression becomes the second one by moving the brackets of concatenations. -/
inductive Regroups : Expr → Expr → Prop
  /-- Nothing is moved. -/
  | refl (e : Expr) : Regroups e e
  /-- Brackets can be moved back. -/
  | symm {e f : Expr} (back : Regroups f e) : Regroups e f
  /-- One move after the other. -/
  | trans {e f g : Expr} (first : Regroups e f) (second : Regroups f g) : Regroups e g
  /-- Three parts in a row, grouped to the left or to the right. -/
  | assoc (a b c : Expr) : Regroups (concat (concat a b) c) (concat a (concat b c))
  /-- Moves in both branches. -/
  | union {l l' r r' : Expr} (left : Regroups l l') (right : Regroups r r') :
    Regroups (union l r) (union l' r')
  /-- Moves on both sides. -/
  | concat {l l' r r' : Expr} (left : Regroups l l') (right : Regroups r r') :
    Regroups (concat l r) (concat l' r')
  /-- Moves in the body. -/
  | star {b b' : Expr} (body : Regroups b b') : Regroups (star b) (star b')
  /-- Moves in the body. -/
  | emit {b b' : Expr} (body : Regroups b b') (out : Output) :
    Regroups (emit b out) (emit b' out)

/-- The links of a chain that is grouped to the right, and then `r`, grouped to the right. -/
def concatRight : Expr → Expr → Expr
  | concat a b, r => concat a (concatRight b r)
  | l, r => concat l r

/-- The expression with every chain of concatenations grouped to the right. -/
def groupRight : Expr → Expr
  | union l r => union l.groupRight r.groupRight
  | concat l r => concatRight l.groupRight r.groupRight
  | star b => star b.groupRight
  | literal word out => literal word out
  | range r out => range r out
  | emit b out => emit b.groupRight out
  | var name => var name

end Transduction.Expr
