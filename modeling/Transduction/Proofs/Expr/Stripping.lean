import Transduction.Expr.Stripping
import Transduction.Proofs.Expr.Denotation
import Transduction.Proofs.Expr.Occurrences
import Transduction.Proofs.Expr.Size
import Transduction.Proofs.Text.Bytes

/-!
# Cutting common ends by bytes

The number of bytes is counted on the output of one branch and used on a node of each, which is
searched for anew. The search that cuts goes the way of the search that found the output
(`stripByBytes?_eq`), so what it cuts is an end of the output that was looked at, and an end is cut
between characters. Hence the union by bytes is the one by characters (`choiceByBytes?_eq`), and
what its branches lose is their longest common end (`exists_commonSuffix_cutsOff`).
-/

namespace Transduction.Expr

variable {e l r : Expr} {s out a b : Output}

/-- An end of an output is cut by its number of bytes. -/
theorem splitOff?_of_isSuffix (h : s <:+ out) :
    out.splitOff? s.byteLength = some (out.take (out.length - s.length), s) := by
  have hsplit := Output.splitOff?_append (out.take (out.length - s.length)) s
  rwa [take_append_of_isSuffix h] at hsplit

/-- **The last node is found again.** Cutting the bytes of an end of the trailing output cuts its
characters, whatever node carries the output. -/
theorem stripByBytes?_eq (h : e.trailingOutput? = some out) (hs : s <:+ out) :
    e.stripByBytes? s.byteLength = some (e.dropTrailing s.length, s) := by
  induction e with
  | literal word o | range d o =>
    obtain rfl : o = out := Option.some.inj h
    rw [stripByBytes?, splitOff?_of_isSuffix hs]
    rfl
  | emit b o =>
    obtain rfl : o = out := Option.some.inj h
    rw [stripByBytes?, splitOff?_of_isSuffix hs, dropTrailing]
    rcases o.take (o.length - s.length) with - | ⟨c, rest⟩ <;> rfl
  | concat l r _ ihr =>
    rw [stripByBytes?, ihr h]
    rfl
  | union | star | var => cases h

/-- **Only the end is lost.** -/
theorem cutsOff_dropTrailing (h : e.trailingOutput? = some out) (hs : s <:+ out) :
    e.CutsOff s (e.dropTrailing s.length) where
  strips := stripByBytes?_eq h hs
  outputs := outputs_dropTrailing h hs
  ranges := occurrenceRanges_dropTrailing s.length e
  denotes := (rewrites_dropTrailing h hs).denotes_iff

/-- **The union by bytes is the union by characters**, and always an answer. -/
theorem choiceByBytes?_eq (l r : Expr) : choiceByBytes? l r = some (choice l r) := by
  rcases ha : l.trailingOutput? with - | a
  · rw [choiceByBytes?, sharedBytes?, choice, commonTrailing, ha]
    rfl
  rcases hb : r.trailingOutput? with - | b
  · rw [choiceByBytes?, sharedBytes?, choice, commonTrailing, ha, hb]
    rfl
  have hshared : sharedBytes? l r = some (Output.commonSuffix a b).byteLength := by
    rw [sharedBytes?, ha, hb]
    simp only [Output.commonSuffixByBytes?_eq, Option.map_some]
  have hl := stripByBytes?_eq ha (Output.commonSuffix_isSuffix_left a b)
  have hr := stripByBytes?_eq hb (Output.commonSuffix_isSuffix_right a b)
  rw [choiceByBytes?, hshared, choice, commonTrailing_eq ha hb]
  rcases hcommon : Output.commonSuffix a b with - | ⟨c, s⟩
  · rfl
  · rw [hcommon] at hl hr
    -- the bytes are compared with zero, the characters with the empty output
    have hbytes : Output.byteLength (c :: s) ≠ 0 :=
      mt Output.byteLength_eq_zero_iff.1 (List.cons_ne_nil c s)
    simp only [Option.bind_eq_bind, Option.bind_some, Option.pure_def, if_neg hbytes, hl, hr]

/-- **What a union takes out of its branches is their longest common end.** The bytes counted on the
output of one branch are those of a whole number of characters, they are there on both sides, and
both branches lose the same text. -/
theorem exists_commonSuffix_cutsOff (ha : l.trailingOutput? = some a)
    (hb : r.trailingOutput? = some b) :
    ∃ s, Output.commonSuffixByBytes? a b = some s ∧ s <:+ a ∧ s <:+ b ∧
      (∀ t, t <:+ a → t <:+ b → t <:+ s) ∧
      l.CutsOff s (l.dropTrailing s.length) ∧ r.CutsOff s (r.dropTrailing s.length) ∧
      choiceByBytes? l r = some (choice l r) := by
  have hleft := Output.commonSuffix_isSuffix_left a b
  have hright := Output.commonSuffix_isSuffix_right a b
  exact ⟨Output.commonSuffix a b, Output.commonSuffixByBytes?_eq a b, hleft, hright,
    fun _ ↦ Output.isSuffix_commonSuffix, cutsOff_dropTrailing ha hleft,
    cutsOff_dropTrailing hb hright, choiceByBytes?_eq l r⟩

/-- A literal, and then a star that emits two characters of two bytes each. -/
def roundsMarked : Expr := concat (literal [7] ['k']) (emit (star (literal [8] [])) ['ä', 'ß'])

/-- A range that emits these characters after another one. -/
def rangeMarked : Expr := range (.single 9) ['ö', 'ä', 'ß']

/-- A common end of two characters that take two bytes each, on the output of a star in the one
branch and on that of a range in the other: it is cut between characters, and both branches keep
what stands before it. -/
theorem roundsMarked_cutsOff :
    roundsMarked.CutsOff ['ä', 'ß'] (concat (literal [7] ['k']) (star (literal [8] []))) ∧
      rangeMarked.CutsOff ['ä', 'ß'] (range (.single 9) ['ö']) ∧
      choiceByBytes? roundsMarked rangeMarked = some (choice roundsMarked rangeMarked) := by
  obtain ⟨s, hs, -, -, -, hl, hr, hchoice⟩ :=
    exists_commonSuffix_cutsOff (l := roundsMarked) (r := rangeMarked) rfl rfl
  obtain rfl : ['ä', 'ß'] = s := Option.some.inj hs
  exact ⟨hl, hr, hchoice⟩

end Transduction.Expr
