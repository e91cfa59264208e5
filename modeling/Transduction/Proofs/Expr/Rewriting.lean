import Transduction.Expr.Normalize
import Transduction.Expr.Rewriting

/-!
# Normalisation rewrites

Every rule that normalisation applies is a step of `Expr.Rewrites`, so a property of expressions
that the laws keep is kept by `normalize`, whatever the expression (`rewrites_normalize`).

The constructors are taken in the order in which they rest on each other. `withSuffix` and
`sequence` call each other: an output after a concatenation goes to its right side, and an empty
literal on the right goes as an output to the left side, which is smaller; so `sequence` is followed
for any left side whose outputs are already understood (`rewrites_sequenceWith`). `choice` writes
the common end of both branches after each of them (`rewrites_dropTrailing`), and then after the
union.
-/

namespace Transduction.Expr

variable {e l r : Expr} {s out : Output}

/-- A step in the right side of a concatenation. -/
theorem rewrites_concat_right (l : Expr) (h : Rewrites r e) :
    Rewrites (concat l r) (concat l e) :=
  .concat (.refl l) h

/-! ### Sequences -/

/-- The rules of a sequence are laws, if an output can be written after the left side. -/
theorem rewrites_sequenceWith {suffixed : Output → Expr}
    (h : ∀ out, Rewrites (emit l out) (suffixed out)) (r : Expr) :
    Rewrites (concat l r) (sequenceWith suffixed l r) := by
  fun_cases sequenceWith suffixed l r with
  | case1 => exact .law (.empty_concat r)
  | case2 => exact (Rewrites.law (.concat_empty l _)).trans (h _)
  | case3 u o v p => exact .law (.literal_literal u v o p)
  | case4 o r p => exact .law (.empty_range o r p)
  | case5 => exact .refl _

/-- **An output after an expression is written on its last node that can carry it.** -/
theorem rewrites_withSuffix (e : Expr) (s : Output) : Rewrites (emit e s) (e.withSuffix s) := by
  induction e generalizing s with
  | literal w out =>
    rcases s with - | ⟨c, s⟩
    · exact .law (.emit_nil _)
    · exact .law (.emit_literal w out _)
  | range r out =>
    rcases s with - | ⟨c, s⟩
    · exact .law (.emit_nil _)
    · exact .law (.emit_range r out _)
  | emit b out =>
    rcases s with - | ⟨c, s⟩
    · exact .law (.emit_nil _)
    · exact .law (.emit_emit b out _)
  | concat l r ihl ihr =>
    rcases s with - | ⟨c, s⟩
    · exact .law (.emit_nil _)
    · -- first into the right side, then the two sides are put together again
      have hright : Rewrites (concat l (emit r (c :: s))) (concat l (r.withSuffix (c :: s))) :=
        rewrites_concat_right l (ihr _)
      have hsequence := rewrites_sequenceWith ihl (r.withSuffix (c :: s))
      exact (Rewrites.law (.emit_concat l r _)).trans (hright.trans hsequence)
  | union | star | var =>
    rcases s with - | ⟨c, s⟩
    · exact .law (.emit_nil _)
    · exact .refl _

/-- **A sequence is reached by steps from the concatenation.** -/
theorem rewrites_sequence (l r : Expr) : Rewrites (concat l r) (sequence l r) :=
  rewrites_sequenceWith (rewrites_withSuffix l) r

/-! ### Unions -/

/-- What is left of an output without its end, and then the end. -/
theorem take_append_of_isSuffix (h : s <:+ out) : out.take (out.length - s.length) ++ s = out := by
  obtain ⟨p, rfl⟩ := h
  rw [List.length_append, Nat.add_sub_cancel, List.take_left]

/-- **The end of a trailing output can be emitted after the expression instead.** -/
theorem rewrites_dropTrailing (h : e.trailingOutput? = some out) (hs : s <:+ out) :
    Rewrites e (emit (e.dropTrailing s.length) s) := by
  induction e with
  | literal w o =>
    obtain rfl : o = out := Option.some.inj h
    have hlaw := Law.emit_literal w (o.take (o.length - s.length)) s
    rw [take_append_of_isSuffix hs] at hlaw
    exact .symm hlaw
  | range r o =>
    obtain rfl : o = out := Option.some.inj h
    have hlaw := Law.emit_range r (o.take (o.length - s.length)) s
    rw [take_append_of_isSuffix hs] at hlaw
    exact .symm hlaw
  | emit b o =>
    obtain rfl : o = out := Option.some.inj h
    have hlaw := Law.emit_emit b (o.take (o.length - s.length)) s
    rw [take_append_of_isSuffix hs] at hlaw
    rw [dropTrailing]
    split
    · next hnil =>
      -- the whole output goes, and the node with it
      have hout := take_append_of_isSuffix hs
      rw [hnil, List.nil_append] at hout
      rw [hout]
      exact .refl _
    · exact .symm hlaw
  | concat l r _ ihr =>
    have hright : Rewrites (concat l r) (concat l (emit (r.dropTrailing s.length) s)) :=
      rewrites_concat_right l (ihr h)
    exact hright.trans (.symm (.emit_concat l (r.dropTrailing s.length) s))
  | union | star | var => cases h

/-- **A union without the common end is reached by steps from the union.** -/
theorem rewrites_choice (l r : Expr) : Rewrites (union l r) (choice l r) := by
  rcases ha : l.trailingOutput? with - | a
  · have hnone : commonTrailing l r = [] := by rw [commonTrailing, ha]
    rw [choice, hnone]
    exact .refl _
  rcases hb : r.trailingOutput? with - | b
  · have hnone : commonTrailing l r = [] := by rw [commonTrailing, ha, hb]
    rw [choice, hnone]
    exact .refl _
  have hcommon : commonTrailing l r = Output.commonSuffix a b := by rw [commonTrailing, ha, hb]
  rw [choice, hcommon]
  split
  · exact .refl _
  · have hl := rewrites_dropTrailing ha (Output.commonSuffix_isSuffix_left a b)
    have hr := rewrites_dropTrailing hb (Output.commonSuffix_isSuffix_right a b)
    exact (Rewrites.union hl hr).trans ((Rewrites.hoist _ _ _).trans (rewrites_withSuffix _ _))

/-! ### The whole expression -/

/-- **Normalisation rewrites.** -/
theorem rewrites_normalize (e : Expr) : Rewrites e e.normalize := by
  induction e with
  | union l r ihl ihr => exact (Rewrites.union ihl ihr).trans (rewrites_choice _ _)
  | concat l r ihl ihr => exact (Rewrites.concat ihl ihr).trans (rewrites_sequence _ _)
  | star b ih => exact .star ih
  | emit b out ih => exact (Rewrites.emit ih out).trans (rewrites_withSuffix _ out)
  | literal | range | var => exact .refl _

end Transduction.Expr
