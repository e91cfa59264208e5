/-!
# Emitted text

Outputs are lists of characters, joined end to end. "No output" is written `none` and differs from
the empty output: joining anything with `none` gives `none`.

`commonSuffix a b` is the longest list that ends both `a` and `b`. It is counted in characters, so
it never cuts one.

## Main statements

* `commonSuffix_isSuffix_left`, `commonSuffix_isSuffix_right`: it ends both;
* `isSuffix_commonSuffix`: every list that ends both ends it.
-/

namespace Transduction

/-- The text that a part of a machine or of an expression emits. -/
abbrev Output := List Char

namespace Output

/-- One output after another; missing if either is. -/
def join? : Option Output → Option Output → Option Output
  | some a, some b => some (a ++ b)
  | _, _ => none

@[simp] theorem join?_some_some (a b : Output) : join? (some a) (some b) = some (a ++ b) := rfl

@[simp] theorem join?_none_left (b : Option Output) : join? none b = none := rfl

@[simp] theorem join?_none_right (a : Option Output) : join? a none = none := by
  cases a <;> rfl

/-- Two outputs are joined exactly if both are there. -/
theorem join?_eq_some_iff {a b : Option Output} {o : Output} :
    join? a b = some o ↔ ∃ p q, a = some p ∧ b = some q ∧ p ++ q = o := by
  cases a <;> cases b <;> simp

/-! ### The longest common beginning and end -/

/-- The longest list that begins both lists. -/
def commonPrefix : Output → Output → Output
  | c :: a, d :: b => if c = d then c :: commonPrefix a b else []
  | _, _ => []

/-- The longest list that ends both lists. -/
def commonSuffix (a b : Output) : Output := (commonPrefix a.reverse b.reverse).reverse

theorem commonPrefix_isPrefix_left (a b : Output) : commonPrefix a b <+: a := by
  fun_induction commonPrefix a b with
  | case1 c a b ih => exact List.cons_prefix_cons.2 ⟨rfl, ih⟩
  | case2 => exact List.nil_prefix
  | case3 => exact List.nil_prefix

theorem commonPrefix_comm (a b : Output) : commonPrefix a b = commonPrefix b a := by
  induction a generalizing b with
  | nil => cases b <;> rfl
  | cons c a ih =>
    cases b with
    | nil => rfl
    | cons d b =>
      by_cases h : c = d
      · simp [commonPrefix, h, ih b]
      · simp [commonPrefix, h, Ne.symm h]

theorem commonPrefix_isPrefix_right (a b : Output) : commonPrefix a b <+: b :=
  commonPrefix_comm a b ▸ commonPrefix_isPrefix_left b a

/-- Whatever begins both texts begins their common beginning. -/
theorem isPrefix_commonPrefix {s a b : Output} (ha : s <+: a) (hb : s <+: b) :
    s <+: commonPrefix a b := by
  induction s generalizing a b with
  | nil => exact List.nil_prefix
  | cons c s ih =>
    obtain ⟨u, rfl⟩ := ha
    obtain ⟨v, rfl⟩ := hb
    simpa [commonPrefix] using ih ⟨u, rfl⟩ ⟨v, rfl⟩

/-- The common end ends the left text. -/
theorem commonSuffix_isSuffix_left (a b : Output) : commonSuffix a b <:+ a := by
  rw [commonSuffix, ← List.reverse_prefix, List.reverse_reverse]
  exact commonPrefix_isPrefix_left _ _

/-- The common end ends the right text. -/
theorem commonSuffix_isSuffix_right (a b : Output) : commonSuffix a b <:+ b := by
  rw [commonSuffix, ← List.reverse_prefix, List.reverse_reverse]
  exact commonPrefix_isPrefix_right _ _

/-- **The common end is the longest one**: whatever ends both texts ends it. -/
theorem isSuffix_commonSuffix {s a b : Output} (ha : s <:+ a) (hb : s <:+ b) :
    s <:+ commonSuffix a b := by
  rw [commonSuffix, ← List.reverse_prefix, List.reverse_reverse]
  exact isPrefix_commonPrefix (List.reverse_prefix.2 ha) (List.reverse_prefix.2 hb)

end Output

end Transduction
