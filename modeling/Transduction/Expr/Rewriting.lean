import Transduction.Expr.Basic

/-!
# Rewriting expressions

The laws by which outputs are moved. Most of them hold both ways (`Expr.Law`): an output that
follows a part can be written on the part, and an empty literal beside a part vanishes into it. One
law takes something away from a union and is used in one direction only: an output that ends both
branches is emitted after the union.

`Expr.Rewrites` says that one expression becomes another by these laws, used anywhere in it.

## Main definitions

* `Expr.Law`: the laws that hold both ways;
* `Expr.Rewrites`: any number of steps, inside any expression.
-/

namespace Transduction.Expr

/-- Two ways to write the same outputs on the same symbols. -/
inductive Law : Expr → Expr → Prop
  /-- The empty output. -/
  | emit_nil (e : Expr) : Law (emit e []) e
  /-- An output after a literal is emitted by the literal. -/
  | emit_literal (word : List Symbol) (out s : Output) :
    Law (emit (literal word out) s) (literal word (out ++ s))
  /-- An output after a range is emitted by the range. -/
  | emit_range (r : SymbolRange) (out s : Output) : Law (emit (range r out) s) (range r (out ++ s))
  /-- Two outputs in turn are one. -/
  | emit_emit (b : Expr) (out s : Output) : Law (emit (emit b out) s) (emit b (out ++ s))
  /-- An output after a concatenation follows its right side. -/
  | emit_concat (l r : Expr) (s : Output) : Law (emit (concat l r) s) (concat l (emit r s))
  /-- The empty word without output, on the left. -/
  | empty_concat (r : Expr) : Law (concat (empty []) r) r
  /-- The empty word with an output, on the right. -/
  | concat_empty (l : Expr) (out : Output) : Law (concat l (empty out)) (emit l out)
  /-- Two literals are one. -/
  | literal_literal (u v : List Symbol) (out s : Output) :
    Law (concat (literal u out) (literal v s)) (literal (u ++ v) (out ++ s))
  /-- An output before a range is emitted by the range, which emits only once. -/
  | empty_range (out : Output) (r : SymbolRange) (s : Output) :
    Law (concat (empty out) (range r s)) (range r (out ++ s))

/-- The first expression becomes the second one by moving outputs. -/
inductive Rewrites : Expr → Expr → Prop
  /-- Nothing is done. -/
  | refl (e : Expr) : Rewrites e e
  /-- One step after the other. -/
  | trans {e f g : Expr} (first : Rewrites e f) (second : Rewrites f g) : Rewrites e g
  /-- A law is used from left to right. -/
  | law {e f : Expr} (law : Law e f) : Rewrites e f
  /-- A law is used from right to left. -/
  | symm {e f : Expr} (law : Law f e) : Rewrites e f
  /-- What ends both branches of a union is emitted after it. -/
  | hoist (l r : Expr) (s : Output) :
    Rewrites (union (emit l s) (emit r s)) (emit (union l r) s)
  /-- Steps in both branches. -/
  | union {l l' r r' : Expr} (left : Rewrites l l') (right : Rewrites r r') :
    Rewrites (union l r) (union l' r')
  /-- Steps on both sides. -/
  | concat {l l' r r' : Expr} (left : Rewrites l l') (right : Rewrites r r') :
    Rewrites (concat l r) (concat l' r')
  /-- Steps in the body. -/
  | star {b b' : Expr} (body : Rewrites b b') : Rewrites (star b) (star b')
  /-- Steps in the body. -/
  | emit {b b' : Expr} (body : Rewrites b b') (out : Output) :
    Rewrites (emit b out) (emit b' out)

end Transduction.Expr
