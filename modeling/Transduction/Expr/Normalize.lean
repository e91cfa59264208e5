import Transduction.Expr.Basic

/-!
# Normalisation

`Expr.normalize` rewrites an expression so that its outputs sit on as few nodes as possible. It
works from the leaves up, each node being rebuilt by a constructor that applies the rules for two
normal parts:

* `withSuffix e s` adds the output `s` after `e`, on the last node of `e` that can carry it;
* `sequence l r` drops and merges literals that stand beside each other;
* `choice l r` takes the longest common end of the outputs of two branches out of the union.

Outputs never cross the boundary of a star.

## Main statements

* `withSuffix_concat`: an output after a concatenation goes to its right side;
* `sequence_empty_nil`, `sequence_empty_right`, `sequence_literal_literal`, `sequence_empty_range`:
  the rules of a sequence, in their order.
-/

namespace Transduction.Expr

/-! ### Sequences -/

/-- The rules for two expressions in sequence. An empty literal without output vanishes, one on the
right leaves its output on the left side, two literals merge, and an empty literal before a range
leaves its output there. `suffixed out` is the left side with `out` after it. -/
def sequenceWith (suffixed : Output → Expr) : Expr → Expr → Expr
  | literal [] [], r => r
  | _, literal [] out => suffixed out
  | literal u o, literal v p => literal (u ++ v) (o ++ p)
  | literal [] o, range r p => range r (o ++ p)
  | l, r => concat l r

/-- The expression with an output after it, put on the last node that can carry it. -/
def withSuffix : Expr → Output → Expr
  | e, [] => e
  | literal w out, s => literal w (out ++ s)
  | range r out, s => range r (out ++ s)
  | emit b out, s => emit b (out ++ s)
  | concat l r, s => sequenceWith l.withSuffix l (r.withSuffix s)
  | e, s => emit e s

/-- Two expressions in sequence. -/
def sequence (l r : Expr) : Expr := sequenceWith l.withSuffix l r

/-! ### Unions -/

/-- The output that ends every output of the expression, if one node carries it. -/
def trailingOutput? : Expr → Option Output
  | literal _ out | range _ out | emit _ out => some out
  | concat _ r => r.trailingOutput?
  | union .. | star _ | var _ => none

/-- The expression without the last `n` characters of its trailing output. -/
def dropTrailing (n : Nat) : Expr → Expr
  | literal w out => literal w (out.take (out.length - n))
  | range r out => range r (out.take (out.length - n))
  | emit b out =>
    match out.take (out.length - n) with
    | [] => b
    | rest => emit b rest
  | concat l r => concat l (r.dropTrailing n)
  | e => e

/-- The longest output that ends the trailing outputs of both expressions; empty if one of them has
no trailing output. -/
def commonTrailing (l r : Expr) : Output :=
  match l.trailingOutput?, r.trailingOutput? with
  | some a, some b => Output.commonSuffix a b
  | _, _ => []

/-- Two expressions as branches of a union, what ends both outputs being emitted after it. -/
def choice (l r : Expr) : Expr :=
  match commonTrailing l r with
  | [] => union l r
  | s => (union (l.dropTrailing s.length) (r.dropTrailing s.length)).withSuffix s

/-! ### The whole expression -/

/-- The expression with its outputs on as few nodes as possible. It reads the same words and emits
the same outputs. -/
def normalize : Expr → Expr
  | union l r => choice l.normalize r.normalize
  | concat l r => sequence l.normalize r.normalize
  | star b => star b.normalize
  | emit b out => b.normalize.withSuffix out
  | e => e

/-! ### The rules, one by one -/

/-- To add no output changes nothing. -/
@[simp] theorem withSuffix_nil (e : Expr) : e.withSuffix [] = e := by
  cases e <;> rfl

/-- An output after a concatenation is added to its right side. -/
theorem withSuffix_concat (l r : Expr) {s : Output} (h : s ≠ []) :
    (concat l r).withSuffix s = sequence l (r.withSuffix s) := by
  cases s with
  | nil => exact absurd rfl h
  | cons => rfl

/-- An empty literal without output vanishes on the left. -/
theorem sequence_empty_nil (r : Expr) : sequence (empty []) r = r := by
  rfl

/-- An empty literal on the right leaves its output to the left side. -/
theorem sequence_empty_right (l : Expr) (out : Output) :
    sequence l (empty out) = l.withSuffix out := by
  cases l with
  | literal w o => cases w <;> cases o <;> cases out <;> rfl
  | _ => rfl

/-- Two literals are joined if the right one is not empty. -/
theorem sequence_literal_literal {u v : List Symbol} {o p : Output} (hv : v ≠ []) :
    sequence (literal u o) (literal v p) = literal (u ++ v) (o ++ p) := by
  obtain ⟨x, v, rfl⟩ := List.exists_cons_of_ne_nil hv
  cases u <;> cases o <;> rfl

/-- An empty literal on the left leaves its output to a range. -/
theorem sequence_empty_range (r : SymbolRange) (o p : Output) :
    sequence (empty o) (range r p) = range r (o ++ p) := by
  cases o <;> rfl

end Transduction.Expr
