import Transduction.Expr.Size
import Transduction.Proofs.Expr.Normal
import Transduction.Proofs.Expr.Occurrences

/-!
# What normalisation saves

Two things are counted while a normal expression is put together, and both counts are exact.

* Outputs are moved but not rewritten: an output that is added stands at the end of the text of all
  outputs (`outputs_withSuffix`), and a sequence keeps the text as it is (`outputs_sequence`). Only
  a union shortens it, by the common end of its branches (`exists_outputs_choice`); what is left
  stands in the old order (`outputs_normalize_sublist`).
* Occurrences are the places that read something and the empty literals (`occurrences_eq`). The
  places stay (`Rewrites.ranges_eq`), and an empty literal vanishes in a sequence only
  (`IsNormal.emptyLiterals_sequence`). An output that is added to a normal expression does not make
  one vanish, since no sides merge that did not before (`IsNormal.emptyLiterals_withSuffix`).
-/

namespace Transduction.Expr

variable {e l r : Expr} {s out : Output}

/-! ### Outputs -/

/-- The rules of a sequence keep the text, if an output that is added to the left side ends it. -/
theorem outputs_sequenceWith {suffixed : Output → Expr}
    (h : ∀ out, (suffixed out).outputs = l.outputs ++ out) (r : Expr) :
    (sequenceWith suffixed l r).outputs = l.outputs ++ r.outputs := by
  fun_cases sequenceWith suffixed l r with
  | case1 => rfl
  | case2 => exact h _
  | case3 | case4 | case5 => rfl

/-- **An output that is added stands at the end of the text.** -/
theorem outputs_withSuffix (e : Expr) (s : Output) :
    (e.withSuffix s).outputs = e.outputs ++ s := by
  induction e generalizing s with
  | concat l r ihl ihr =>
    rcases s with - | ⟨c, s⟩
    · exact (List.append_nil _).symm
    · have hsequence := outputs_sequenceWith ihl (r.withSuffix (c :: s))
      rw [ihr, ← List.append_assoc] at hsequence
      exact hsequence
  | emit b out =>
    rcases s with - | ⟨c, s⟩
    · exact (List.append_nil _).symm
    · exact (List.append_assoc _ _ _).symm
  | literal | range | union | star | var =>
    rcases s with - | ⟨c, s⟩
    · exact (List.append_nil _).symm
    · rfl

/-- A sequence keeps the text of all outputs. -/
theorem outputs_sequence (l r : Expr) : (sequence l r).outputs = l.outputs ++ r.outputs :=
  outputs_sequenceWith (outputs_withSuffix l) r

/-- **What is cut is the end of the text.** -/
theorem outputs_dropTrailing (h : e.trailingOutput? = some out) (hs : s <:+ out) :
    (e.dropTrailing s.length).outputs ++ s = e.outputs := by
  induction e with
  | literal w o | range d o =>
    obtain rfl : o = out := Option.some.inj h
    exact take_append_of_isSuffix hs
  | emit b o =>
    obtain rfl : o = out := Option.some.inj h
    have hout := take_append_of_isSuffix hs
    rw [dropTrailing]
    split
    · next hnil =>
      rw [hnil, List.nil_append] at hout
      rw [outputs, hout]
    · rw [outputs, outputs, List.append_assoc, hout]
  | concat l r _ ihr => rw [dropTrailing, outputs, outputs, List.append_assoc, ihr h]
  | union | star | var => cases h

/-- **A union writes the common end of its branches once** instead of twice. -/
theorem exists_outputs_choice (l r : Expr) :
    ∃ u v, l.outputs = u ++ commonTrailing l r ∧ r.outputs = v ++ commonTrailing l r ∧
      (choice l r).outputs = u ++ (v ++ commonTrailing l r) := by
  rw [choice]
  split
  · next hnil =>
    rw [hnil]
    exact ⟨l.outputs, r.outputs, by simp, by simp, by simp [outputs]⟩
  · next hne =>
    obtain ⟨a, b, ha, hb⟩ := exists_trailingOutput? hne
    have hl := outputs_dropTrailing ha (Output.commonSuffix_isSuffix_left a b)
    have hr := outputs_dropTrailing hb (Output.commonSuffix_isSuffix_right a b)
    rw [← commonTrailing_eq ha hb] at hl hr
    refine ⟨_, _, hl.symm, hr.symm, ?_⟩
    rw [outputs_withSuffix, outputs, List.append_assoc]

/-- **Normalisation writes no new text**: what it leaves stands in the old order. -/
theorem outputs_normalize_sublist (e : Expr) : e.normalize.outputs.Sublist e.outputs := by
  induction e with
  | union l r ihl ihr =>
    obtain ⟨u, v, hl, hr, hchoice⟩ := exists_outputs_choice l.normalize r.normalize
    rw [normalize, hchoice, ← hr]
    refine List.Sublist.append (List.Sublist.trans ?_ ihl) ihr
    rw [hl]
    exact List.sublist_append_left _ _
  | concat l r ihl ihr =>
    rw [normalize, outputs_sequence]
    exact ihl.append ihr
  | star b ih => exact ih
  | emit b out ih =>
    rw [normalize, outputs_withSuffix]
    exact ih.append (.refl out)
  | literal | range | var => exact .refl _

/-- **What normalisation saves** are the common ends of branches. -/
theorem length_outputs_normalize (e : Expr) :
    e.normalize.outputs.length + e.hoisted = e.outputs.length := by
  induction e with
  | union l r ihl ihr =>
    obtain ⟨u, v, hl, hr, hchoice⟩ := exists_outputs_choice l.normalize r.normalize
    rw [hl, List.length_append] at ihl
    rw [hr, List.length_append] at ihr
    rw [normalize, hchoice, hoisted, outputs, List.length_append, List.length_append,
      List.length_append]
    omega
  | concat l r ihl ihr =>
    rw [normalize, outputs_sequence, hoisted, outputs, List.length_append, List.length_append]
    omega
  | star b ih => exact ih
  | emit b out ih =>
    rw [normalize, outputs_withSuffix, hoisted, outputs, List.length_append, List.length_append]
    omega
  | literal | range | var => rfl

/-! ### Empty literals -/

/-- An occurrence is a place that reads something, or an empty literal. -/
theorem occurrences_eq (e : Expr) : e.occurrences = e.ranges.length + e.emptyLiterals := by
  induction e with
  | union l r ihl ihr | concat l r ihl ihr =>
    rw [occurrences, ranges, emptyLiterals, List.length_append]
    omega
  | star b ih | emit b out ih => exact ih
  | literal word out =>
    rcases word with - | ⟨x, word⟩
    · rfl
    · simp [occurrences, ranges, emptyLiterals]
  | range | var => rfl

/-- To cut an output leaves all empty literals. -/
theorem emptyLiterals_dropTrailing (n : Nat) (e : Expr) :
    (e.dropTrailing n).emptyLiterals = e.emptyLiterals := by
  induction e with
  | concat l r _ ihr => rw [dropTrailing, emptyLiterals, emptyLiterals, ihr]
  | emit b out =>
    rw [dropTrailing]
    split <;> rfl
  | literal | range | union | star | var => rfl

/-- **An output that is added to a normal expression makes no empty literal vanish.** -/
theorem IsNormal.emptyLiterals_withSuffix (h : e.IsNormal) (s : Output) :
    (e.withSuffix s).emptyLiterals = e.emptyLiterals := by
  rcases s with - | ⟨c, s⟩
  · rw [withSuffix_nil]
  induction e with
  | concat l r _ ihr =>
    obtain ⟨-, hr, hmerges⟩ := h
    have hmerges' : ¬ Merges l (r.withSuffix (c :: s)) :=
      mt ((hr.withSuffix_and_mergeAlike (c :: s)).2 l).1 hmerges
    rw [withSuffix_concat l r (List.cons_ne_nil c s), Expr.sequence,
      sequenceWith_of_not_merges hmerges', emptyLiterals, emptyLiterals, ihr hr]
  | literal | range | emit | union | star | var => rfl

/-- No empty literal vanishes between sides that do not merge. -/
theorem absorbedBetween_of_not_merges (h : ¬ Merges l r) : absorbedBetween l r = 0 := by
  rw [merges_iff] at h
  fun_cases absorbedBetween l r <;> simp_all

/-- An empty literal on the right is absorbed. -/
theorem absorbedBetween_empty_right (l : Expr) (out : Output) :
    absorbedBetween l (empty out) = 1 := by
  cases l with
  | literal w o => cases w <;> cases o <;> rfl
  | _ => rfl

/-- **The empty literals of two normal expressions stay in their sequence**, but for the one that
vanishes between them. -/
theorem IsNormal.emptyLiterals_sequence (hl : l.IsNormal) (r : Expr) :
    (Expr.sequence l r).emptyLiterals + absorbedBetween l r =
      l.emptyLiterals + r.emptyLiterals := by
  by_cases hmerges : Merges l r
  · rcases merges_iff.1 hmerges with rfl | ⟨out, rfl⟩ | ⟨u, o, v, p, rfl, rfl⟩ | ⟨o, c, p, rfl, rfl⟩
    · rw [sequence_empty_nil]
      exact Nat.add_comm _ _
    · rw [sequence_empty_right, absorbedBetween_empty_right, hl.emptyLiterals_withSuffix]
      rfl
    · rcases v with - | ⟨x, v⟩
      · rw [sequence_empty_right, absorbedBetween_empty_right, hl.emptyLiterals_withSuffix]
        rfl
      · rw [sequence_literal_literal (List.cons_ne_nil x v)]
        cases u <;> cases o <;> rfl
    · rw [sequence_empty_range]
      cases o <;> rfl
  · rw [Expr.sequence, sequenceWith_of_not_merges hmerges, absorbedBetween_of_not_merges hmerges]
    rfl

/-- A union keeps the empty literals of its branches. -/
theorem emptyLiterals_choice (l r : Expr) :
    (choice l r).emptyLiterals = l.emptyLiterals + r.emptyLiterals := by
  rw [choice]
  split
  · rfl
  · next hne =>
    rw [withSuffix_of_not_carriesOutput id hne, emptyLiterals, emptyLiterals,
      emptyLiterals_dropTrailing, emptyLiterals_dropTrailing]

/-- **What normalisation drops** are the empty literals that vanish in a sequence. -/
theorem emptyLiterals_normalize (e : Expr) :
    e.normalize.emptyLiterals + e.absorbed = e.emptyLiterals := by
  induction e with
  | union l r ihl ihr =>
    rw [normalize, emptyLiterals_choice, absorbed, emptyLiterals]
    omega
  | concat l r ihl ihr =>
    have hsequence := (isNormal_normalize l).emptyLiterals_sequence r.normalize
    rw [normalize, absorbed, emptyLiterals]
    omega
  | star b ih => exact ih
  | emit b out ih =>
    rw [normalize, (isNormal_normalize b).emptyLiterals_withSuffix]
    exact ih
  | literal | range | var => rfl

/-- **As many occurrences are dropped as empty literals vanish.** -/
theorem occurrences_normalize (e : Expr) :
    e.normalize.occurrences + e.absorbed = e.occurrences := by
  rw [occurrences_eq, occurrences_eq, ← (rewrites_normalize e).ranges_eq, Nat.add_assoc,
    emptyLiterals_normalize]

end Transduction.Expr
