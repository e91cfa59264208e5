/-!
# Symbols and symbol ranges

Words are read one symbol at a time. A symbol is a 32-bit number; text enters as the code points of
its characters, but a symbol need not be the code point of a character: surrogates and numbers above
`0x10FFFF` are symbols too.

A `SymbolRange` has two inclusive bounds, which may stand in the wrong order: then no symbol lies in
it. A `SymbolClass` is a range that holds a symbol, which is what a machine can read.

## Main statements

* `SymbolRange.mem_single`: the range of one symbol holds that symbol and nothing else.
-/

namespace Transduction

/-- An input symbol. -/
abbrev Symbol := UInt32

namespace Symbol

/-- The symbol that stands for a character: its code point. -/
def ofChar (c : Char) : Symbol := c.val

/-- The character whose code point a symbol is. Surrogates and numbers above the last code point
stand for none. -/
def toChar? (x : Symbol) : Option Char :=
  if h : x.isValidChar then some ⟨x, h⟩ else none

/-- The word that a text spells. -/
def wordOf (text : String) : List Symbol := text.toList.map ofChar

/-- The symbol after a symbol; none after the last one. -/
def next? (x : Symbol) : Option Symbol := if x = 0xFFFFFFFF then none else some (x + 1)

end Symbol

/-- The symbols from `lower` to `upper`, both included. -/
structure SymbolRange where
  /-- The least symbol of the range. -/
  lower : Symbol
  /-- The greatest symbol of the range. -/
  upper : Symbol
deriving DecidableEq

namespace SymbolRange

instance : Membership Symbol SymbolRange := ⟨fun r x ↦ r.lower ≤ x ∧ x ≤ r.upper⟩

theorem mem_def {x : Symbol} {r : SymbolRange} : x ∈ r ↔ r.lower ≤ x ∧ x ≤ r.upper := Iff.rfl

instance (x : Symbol) (r : SymbolRange) : Decidable (x ∈ r) :=
  decidable_of_iff (r.lower ≤ x ∧ x ≤ r.upper) Iff.rfl

/-- Ranges are ordered by their lower bounds, then by their upper bounds. -/
instance : Ord SymbolRange :=
  ⟨fun r s ↦ (compare r.lower s.lower).then (compare r.upper s.upper)⟩

/-- The range that holds one symbol. -/
def single (x : Symbol) : SymbolRange := ⟨x, x⟩

/-- The bounds stand in the wrong order. -/
def IsEmpty (r : SymbolRange) : Prop := r.upper < r.lower

instance (r : SymbolRange) : Decidable r.IsEmpty :=
  decidable_of_iff (r.upper < r.lower) Iff.rfl

@[simp] theorem mem_single {x y : Symbol} : x ∈ single y ↔ x = y := by
  rw [mem_def, single]
  exact ⟨fun h ↦ UInt32.le_antisymm h.2 h.1, fun h ↦ h ▸ ⟨UInt32.le_refl x, UInt32.le_refl x⟩⟩

/-- A range holds a symbol exactly if its bounds stand in order. -/
theorem not_isEmpty_iff {r : SymbolRange} : ¬ r.IsEmpty ↔ r.lower ≤ r.upper := UInt32.not_lt

theorem not_isEmpty_single (x : Symbol) : ¬ (single x).IsEmpty := UInt32.lt_irrefl x

end SymbolRange

/-- A range that holds at least one symbol. -/
abbrev SymbolClass := { r : SymbolRange // ¬ r.IsEmpty }

/-- The class of one symbol. -/
def SymbolClass.single (x : Symbol) : SymbolClass := ⟨.single x, SymbolRange.not_isEmpty_single x⟩

end Transduction
