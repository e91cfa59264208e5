import Mathlib.Data.Multiset.Bind
import Transduction.Expr.Basic
import Transduction.Proofs.Expr.Rewriting

/-!
# Outlines

What remains of an expression without its outputs and without the places that read nothing: which
places a word can begin and end in, and which place can follow which, as often as some node of the
expression says so. Each place that reads a symbol has a number; `Expr.outline n` numbers them from
`n` on, from left to right, and `Expr.ranges` lists what they read.

Outlines are put together as the expression is. Concatenation is a monoid
(`Outline.concat_assoc`, `Outline.one_concat`, `Outline.concat_one`), and the outline of a literal
is the product of its places (`Outline.ofList_append`). Outputs do not occur, so the laws by which
outputs are moved keep the outline as it is (`Law.outline_eq`), and so does every rewriting
(`Rewrites.outline_eq`): the two sides have the same places, in the same order.
-/

namespace Transduction

/-- Where the words of a part begin and end, and what follows what in them. A place follows another
one as often as it is listed. -/
@[ext]
structure Outline (σ : Type) where
  /-- The part accepts the empty word. -/
  nullable : Bool
  /-- The places that a word can begin in. -/
  first : Multiset σ
  /-- The places that a word can end in. -/
  last : Multiset σ
  /-- The places that can follow each other. -/
  follow : Multiset (σ × σ)

namespace Outline

variable {σ τ : Type}

/-- No place: the empty word only. -/
def one : Outline σ := ⟨true, 0, 0, 0⟩

/-- One place. -/
def leaf (s : σ) : Outline σ := ⟨false, {s}, {s}, 0⟩

/-- Either part. -/
def union (a b : Outline σ) : Outline σ where
  nullable := a.nullable || b.nullable
  first := a.first + b.first
  last := a.last + b.last
  follow := a.follow + b.follow

/-- The first part, then the second one. -/
def concat (a b : Outline σ) : Outline σ where
  nullable := a.nullable && b.nullable
  first := a.first + if a.nullable then b.first else 0
  last := (if b.nullable then a.last else 0) + b.last
  follow := a.last ×ˢ b.first + (a.follow + b.follow)

/-- The part any number of times. -/
def star (a : Outline σ) : Outline σ where
  nullable := true
  first := a.first
  last := a.last
  follow := a.last ×ˢ a.first + a.follow

/-- Places in sequence. -/
def ofList : List σ → Outline σ
  | [] => one
  | s :: l => (leaf s).concat (ofList l)

/-- The outline with other places. -/
def map (f : σ → τ) (a : Outline σ) : Outline τ where
  nullable := a.nullable
  first := a.first.map f
  last := a.last.map f
  follow := a.follow.map (Prod.map f f)

/-! ### Concatenation -/

@[simp] theorem one_concat (a : Outline σ) : one.concat a = a := by
  ext1 <;> simp [concat, one]

@[simp] theorem concat_one (a : Outline σ) : a.concat one = a := by
  ext1 <;> simp [concat, one]

/-- **The grouping of a concatenation does not matter**, also not for how often two places follow
each other. -/
theorem concat_assoc (a b c : Outline σ) : (a.concat b).concat c = a.concat (b.concat c) := by
  have hfirst : ((a.concat b).concat c).first = (a.concat (b.concat c)).first := by
    dsimp only [concat]
    cases a.nullable <;> simp [add_assoc]
  have hlast : ((a.concat b).concat c).last = (a.concat (b.concat c)).last := by
    dsimp only [concat]
    cases c.nullable <;> cases b.nullable <;> simp [add_assoc]
  -- both sides pass from `a` to `b`, from `b` to `c`, and over an empty `b` from `a` to `c`
  have hfollow : ((a.concat b).concat c).follow = (a.concat (b.concat c)).follow := by
    dsimp only [concat]
    cases b.nullable <;>
      simp only [Bool.false_eq_true, ↓reduceIte, zero_add, add_zero, Multiset.add_product,
        Multiset.product_add] <;> ac_rfl
  exact Outline.ext (Bool.and_assoc ..) hfirst hlast hfollow

@[simp] theorem ofList_singleton (s : σ) : ofList [s] = leaf s := concat_one _

/-- Places in sequence are the first ones and then the others. -/
theorem ofList_append (l k : List σ) : ofList (l ++ k) = (ofList l).concat (ofList k) := by
  induction l with
  | nil => exact (one_concat _).symm
  | cons s l ih => rw [List.cons_append, ofList, ofList, ih, concat_assoc]

/-! ### Other places -/

theorem map_product (f : σ → τ) (s t : Multiset σ) :
    (s ×ˢ t).map (Prod.map f f) = s.map f ×ˢ t.map f := by
  induction s using Multiset.induction with
  | empty => rfl
  | cons a s ih =>
    rw [Multiset.map_cons, Multiset.cons_product, Multiset.cons_product, Multiset.map_add, ih,
      Multiset.map_map, Multiset.map_map]
    rfl

@[simp] theorem map_one (f : σ → τ) : (one : Outline σ).map f = one := rfl

@[simp] theorem map_leaf (f : σ → τ) (s : σ) : (leaf s).map f = leaf (f s) := rfl

theorem map_union (f : σ → τ) (a b : Outline σ) :
    (a.union b).map f = (a.map f).union (b.map f) := by
  ext1 <;> simp [map, union]

theorem map_concat (f : σ → τ) (a b : Outline σ) :
    (a.concat b).map f = (a.map f).concat (b.map f) := by
  have hfirst : ((a.concat b).map f).first = ((a.map f).concat (b.map f)).first := by
    dsimp only [map, concat]
    rw [Multiset.map_add]
    split <;> rfl
  have hlast : ((a.concat b).map f).last = ((a.map f).concat (b.map f)).last := by
    dsimp only [map, concat]
    rw [Multiset.map_add]
    split <;> rfl
  have hfollow : ((a.concat b).map f).follow = ((a.map f).concat (b.map f)).follow := by
    dsimp only [map, concat]
    rw [Multiset.map_add, Multiset.map_add, map_product]
  exact Outline.ext rfl hfirst hlast hfollow

theorem map_star (f : σ → τ) (a : Outline σ) : a.star.map f = (a.map f).star := by
  have hfollow : (a.star.map f).follow = (a.map f).star.follow := by
    dsimp only [map, star]
    rw [Multiset.map_add, map_product]
  exact Outline.ext rfl rfl rfl hfollow

theorem map_ofList (f : σ → τ) (l : List σ) : (ofList l).map f = ofList (l.map f) := by
  induction l with
  | nil => exact map_one f
  | cons s l ih => rw [ofList, map_concat, ih, List.map_cons, ofList, map_leaf]

end Outline

namespace Expr

/-- What the places of the expression read, from left to right. -/
def ranges : Expr → List SymbolRange
  | union l r | concat l r => l.ranges ++ r.ranges
  | star b | emit b _ => b.ranges
  | literal word _ => word.map .single
  | range r _ => [r]
  | var _ => []

/-- The outline of the expression, its places being numbered from `n` on. -/
def outline : Expr → Nat → Outline Nat
  | union l r, n => (l.outline n).union (r.outline (n + l.ranges.length))
  | concat l r, n => (l.outline n).concat (r.outline (n + l.ranges.length))
  | star b, n => (b.outline n).star
  | literal word _, n => .ofList (List.range' n word.length)
  | range _ _, n => .leaf n
  | emit b _, n => b.outline n
  | var _, _ => .one

variable {e f : Expr}

/-! ### Rewriting -/

/-- **The laws keep the places.** -/
theorem Law.ranges_eq (h : Law e f) : e.ranges = f.ranges := by
  cases h with
  | emit_nil | emit_literal | emit_range | emit_emit | emit_concat => rfl
  | empty_concat | empty_range => rfl
  | concat_empty l out => exact List.append_nil _
  | literal_literal u v out s => exact List.map_append.symm

/-- **The laws keep the outline.** -/
theorem Law.outline_eq (h : Law e f) (n : Nat) : e.outline n = f.outline n := by
  cases h with
  | emit_nil | emit_literal | emit_range | emit_emit | emit_concat => rfl
  | empty_concat | empty_range => exact Outline.one_concat _
  | concat_empty l out => exact Outline.concat_one _
  | literal_literal u v out s =>
    rw [outline, outline, outline, outline, ranges, List.length_map, ← Outline.ofList_append,
      List.range'_append_1, List.length_append]

/-- Rewriting keeps the places. -/
theorem Rewrites.ranges_eq (h : Rewrites e f) : e.ranges = f.ranges := by
  induction h with
  | refl => rfl
  | trans _ _ ih ih' => exact ih.trans ih'
  | law hlaw => exact hlaw.ranges_eq
  | symm hlaw => exact hlaw.ranges_eq.symm
  | hoist => rfl
  | union _ _ ihl ihr | concat _ _ ihl ihr => rw [ranges, ranges, ihl, ihr]
  | star _ ih | emit _ _ ih => exact ih

/-- **Rewriting keeps the outline.** -/
theorem Rewrites.outline_eq (h : Rewrites e f) (n : Nat) : e.outline n = f.outline n := by
  induction h generalizing n with
  | refl => rfl
  | trans _ _ ih ih' => exact (ih n).trans (ih' n)
  | law hlaw => exact hlaw.outline_eq n
  | symm hlaw => exact (hlaw.outline_eq n).symm
  | hoist => rfl
  | union hl _ ihl ihr | concat hl _ ihl ihr => rw [outline, outline, ihl, ihr, hl.ranges_eq]
  | star _ ih => rw [outline, outline, ih]
  | emit _ _ ih => exact ih n

end Expr

end Transduction
