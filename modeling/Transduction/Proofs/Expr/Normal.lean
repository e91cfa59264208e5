import Transduction.Expr.Normal
import Transduction.Proofs.Expr.Rewriting

/-!
# Normalisation reaches a normal form

One pass from the leaves up leaves nothing to normalise (`isNormal_normalize`). Each constructor of
the pass is given normal parts and may change one of them, so it could undo what was done to that
part, or bring it beside a neighbour that it merges with. It does neither:

* an output that is added or cut changes no word and no range, and a part that is neither a literal
  nor a range stays such. So what stands on the right of a concatenation merges with the same
  expressions as before (`MergeAlike`), and both changes keep normal expressions normal
  (`IsNormal.withSuffix`, `IsNormal.dropTrailing`);
* what is left of the trailing outputs of two branches, their longest common end being cut, has no
  common end (`eq_nil_of_isSuffix_take`). If a whole output goes, the node goes with it, and what it
  followed has no trailing output (`take_of_trailingOutput?_dropTrailing`).

On a normal expression no rule applies, so it stays as it is (`IsNormal.normalize_eq`).
-/

namespace Transduction.Expr

variable {e f b l r : Expr} {a s t out : Output} {n : Nat}

/-! ### What merges -/

/-- Neither a literal nor a range. -/
def IsCompound : Expr → Prop
  | literal .. | range .. => False
  | union .. | concat .. | star _ | emit .. | var _ => True

/-- On the right of a concatenation, both merge with the same expressions. -/
def MergeAlike (e f : Expr) : Prop := ∀ l, Merges l e ↔ Merges l f

/-- The pairs of sides that do not stay apart. -/
theorem merges_iff : Merges l r ↔ l = empty [] ∨ (∃ out, r = empty out) ∨
    (∃ w o v p, l = literal w o ∧ r = literal v p) ∨ ∃ o c p, l = empty o ∧ r = range c p := by
  fun_cases Merges l r <;> grind

/-- Nothing but the empty literal without output merges with a compound expression. -/
theorem merges_iff_of_isCompound (h : r.IsCompound) : Merges l r ↔ l = empty [] := by
  rw [merges_iff]
  cases r <;> simp_all [IsCompound]

/-- With a compound expression on its right, nothing merges but the empty literal without output. -/
theorem mergeAlike_of_isCompound (he : e.IsCompound) (hf : f.IsCompound) : MergeAlike e f :=
  fun _ ↦ (merges_iff_of_isCompound he).trans (merges_iff_of_isCompound hf).symm

/-- What a literal emits is no matter on the right. -/
theorem mergeAlike_literal (w : List Symbol) (o p : Output) :
    MergeAlike (literal w o) (literal w p) := fun l ↦ by
  simp [merges_iff]

/-- What a range emits is no matter on the right. -/
theorem mergeAlike_range (c : SymbolRange) (o p : Output) :
    MergeAlike (range c o) (range c p) := fun l ↦ by
  simp [merges_iff]

/-! ### One more output -/

/-- Sides that do not merge are put in sequence as they are. -/
theorem sequenceWith_of_not_merges (h : ¬ Merges l r) (suffixed : Output → Expr) :
    sequenceWith suffixed l r = concat l r := by
  rw [merges_iff] at h
  fun_cases sequenceWith suffixed l r <;> simp_all

/-- What carries no output of its own is neither a literal nor a range. -/
theorem isCompound_of_not_carriesOutput (h : ¬ b.CarriesOutput) : b.IsCompound := by
  cases b with
  | union | star | var => trivial
  | concat | literal | range | emit => exact absurd trivial h

/-- An output that no node of the expression carries is written after it. -/
theorem withSuffix_of_not_carriesOutput (h : ¬ b.CarriesOutput) (hout : out ≠ []) :
    b.withSuffix out = emit b out := by
  obtain ⟨c, out, rfl⟩ := List.exists_cons_of_ne_nil hout
  cases b with
  | union | star | var => rfl
  | concat | literal | range | emit => exact absurd trivial h

/-- An output that is added keeps a normal expression normal, and it merges with the same
expressions. -/
theorem IsNormal.withSuffix_and_mergeAlike (h : e.IsNormal) (s : Output) :
    (e.withSuffix s).IsNormal ∧ MergeAlike (e.withSuffix s) e := by
  rcases s with - | ⟨c, s⟩
  · rw [withSuffix_nil]
    exact ⟨h, fun _ ↦ Iff.rfl⟩
  induction e with
  | union | star | var =>
    rw [withSuffix_of_not_carriesOutput id (List.cons_ne_nil c s)]
    exact ⟨⟨h, List.cons_ne_nil c s, id⟩, mergeAlike_of_isCompound trivial trivial⟩
  | literal w o => exact ⟨trivial, mergeAlike_literal w _ o⟩
  | range d o => exact ⟨trivial, mergeAlike_range d _ o⟩
  | emit b o =>
    obtain ⟨hb, -, hcarries⟩ := h
    have hne : o ++ c :: s ≠ [] := List.append_ne_nil_of_right_ne_nil o (List.cons_ne_nil c s)
    exact ⟨⟨hb, hne, hcarries⟩, mergeAlike_of_isCompound trivial trivial⟩
  | concat l r _ ihr =>
    obtain ⟨hl, hr, hmerges⟩ := h
    obtain ⟨hr', halike⟩ := ihr hr
    -- the suffix goes into the right side, which merges with the left one no more than before
    have hmerges' : ¬ Merges l (r.withSuffix (c :: s)) := mt (halike l).1 hmerges
    rw [withSuffix_concat l r (List.cons_ne_nil c s), sequence, sequenceWith_of_not_merges hmerges']
    exact ⟨⟨hl, hr', hmerges'⟩, mergeAlike_of_isCompound trivial trivial⟩

/-- **An output that is added keeps a normal expression normal.** -/
theorem IsNormal.withSuffix (h : e.IsNormal) (s : Output) : (e.withSuffix s).IsNormal :=
  (h.withSuffix_and_mergeAlike s).1

/-! ### Sequences -/

/-- **Two normal expressions in sequence are normal.** -/
theorem IsNormal.sequence (hl : l.IsNormal) (hr : r.IsNormal) : (sequence l r).IsNormal := by
  by_cases hmerges : Merges l r
  · rcases merges_iff.1 hmerges with rfl | ⟨out, rfl⟩ | ⟨w, o, v, p, rfl, rfl⟩ | ⟨o, c, p, rfl, rfl⟩
    · rwa [sequence_empty_nil]
    · rw [sequence_empty_right]
      exact hl.withSuffix out
    · rcases v with - | ⟨x, v⟩
      · rw [sequence_empty_right]
        exact hl.withSuffix p
      · rw [sequence_literal_literal (List.cons_ne_nil x v)]
        trivial
    · rw [sequence_empty_range]
      trivial
  · rw [Expr.sequence, sequenceWith_of_not_merges hmerges]
    exact ⟨hl, hr, hmerges⟩

/-! ### Unions -/

/-- What carries no output ends with none. -/
theorem trailingOutput?_eq_none (h : ¬ b.CarriesOutput) : b.trailingOutput? = none := by
  cases b with
  | union | star | var => rfl
  | concat | literal | range | emit => exact absurd trivial h

/-- An output that is cut keeps a normal expression normal, and it merges with the same
expressions. -/
theorem IsNormal.dropTrailing_and_mergeAlike (h : e.IsNormal) (n : Nat) :
    (e.dropTrailing n).IsNormal ∧ MergeAlike (e.dropTrailing n) e := by
  induction e with
  | union | star | var => exact ⟨h, fun _ ↦ Iff.rfl⟩
  | literal w o => exact ⟨trivial, mergeAlike_literal w _ o⟩
  | range d o => exact ⟨trivial, mergeAlike_range d _ o⟩
  | emit b o =>
    obtain ⟨hb, -, hcarries⟩ := h
    rw [dropTrailing]
    split
    · -- the whole output goes, and the node with it
      exact ⟨hb, mergeAlike_of_isCompound (isCompound_of_not_carriesOutput hcarries) trivial⟩
    · next hne => exact ⟨⟨hb, hne, hcarries⟩, mergeAlike_of_isCompound trivial trivial⟩
  | concat l r _ ihr =>
    obtain ⟨hl, hr, hmerges⟩ := h
    obtain ⟨hr', halike⟩ := ihr hr
    exact ⟨⟨hl, hr', mt (halike l).1 hmerges⟩, mergeAlike_of_isCompound trivial trivial⟩

/-- What is left of a trailing output, if anything is left that carries one. -/
theorem IsNormal.take_of_trailingOutput?_dropTrailing (h : e.IsNormal)
    (ha : e.trailingOutput? = some a) (ht : (e.dropTrailing n).trailingOutput? = some t) :
    t = a.take (a.length - n) := by
  induction e with
  | union | star | var => cases ha
  | literal w o | range d o =>
    obtain rfl := Option.some.inj ha
    exact (Option.some.inj ht).symm
  | emit b o =>
    obtain ⟨-, -, hcarries⟩ := h
    obtain rfl := Option.some.inj ha
    rw [dropTrailing] at ht
    split at ht
    · cases (trailingOutput?_eq_none hcarries).symm.trans ht
    · exact (Option.some.inj ht).symm
  | concat l r _ ihr => exact ihr h.2.1 ha ht

/-- An end of what is left of an output stands before what has been cut. -/
theorem append_isSuffix_of_isSuffix_take (hs : s <:+ a) (ht : t <:+ a.take (a.length - s.length)) :
    t ++ s <:+ a := by
  obtain ⟨p, hp⟩ := ht
  refine ⟨p, ?_⟩
  rw [← List.append_assoc, hp, take_append_of_isSuffix hs]

/-- **Without their longest common end, two outputs have no common end.** -/
theorem eq_nil_of_isSuffix_take {a b t : Output}
    (ha : t <:+ a.take (a.length - (Output.commonSuffix a b).length))
    (hb : t <:+ b.take (b.length - (Output.commonSuffix a b).length)) : t = [] := by
  -- otherwise `t` before the longest common end would be a longer one
  have hleft := append_isSuffix_of_isSuffix_take (Output.commonSuffix_isSuffix_left a b) ha
  have hright := append_isSuffix_of_isSuffix_take (Output.commonSuffix_isSuffix_right a b) hb
  have hlength := (Output.isSuffix_commonSuffix hleft hright).length_le
  rw [List.length_append] at hlength
  exact List.length_eq_zero_iff.1 (by omega)

/-- If both branches end with an output, the common end is that of these outputs. -/
theorem commonTrailing_eq {a b : Output} (ha : l.trailingOutput? = some a)
    (hb : r.trailingOutput? = some b) : commonTrailing l r = Output.commonSuffix a b := by
  rw [commonTrailing, ha, hb]

/-- Branches with a common end both have a trailing output. -/
theorem exists_trailingOutput? (h : commonTrailing l r ≠ []) :
    ∃ a b, l.trailingOutput? = some a ∧ r.trailingOutput? = some b := by
  rw [commonTrailing] at h
  split at h
  · next a b ha hb => exact ⟨a, b, ha, hb⟩
  · exact absurd rfl h

/-- **Two normal expressions are normal as branches**, when the longest common end of their outputs
is emitted after the union. -/
theorem IsNormal.choice (hl : l.IsNormal) (hr : r.IsNormal) : (choice l r).IsNormal := by
  rw [Expr.choice]
  split
  · next hcommon =>
    refine ⟨hl, hr, fun a b s ha hb hsa hsb ↦ ?_⟩
    rw [commonTrailing_eq ha hb] at hcommon
    exact List.suffix_nil.1 (hcommon ▸ Output.isSuffix_commonSuffix hsa hsb)
  · next hne =>
    obtain ⟨a, b, ha, hb⟩ := exists_trailingOutput? hne
    rw [withSuffix_of_not_carriesOutput id hne]
    refine ⟨⟨(hl.dropTrailing_and_mergeAlike _).1, (hr.dropTrailing_and_mergeAlike _).1,
      fun a' b' t ha' hb' hta htb ↦ ?_⟩, hne, id⟩
    rw [commonTrailing_eq ha hb] at ha' hb'
    rw [hl.take_of_trailingOutput?_dropTrailing ha ha'] at hta
    rw [hr.take_of_trailingOutput?_dropTrailing hb hb'] at htb
    exact eq_nil_of_isSuffix_take hta htb

/-! ### The whole expression -/

/-- **What has been normalised is normal.** -/
theorem isNormal_normalize (e : Expr) : e.normalize.IsNormal := by
  induction e with
  | union l r ihl ihr => exact ihl.choice ihr
  | concat l r ihl ihr => exact ihl.sequence ihr
  | star b ih => exact ih
  | emit b out ih => exact ih.withSuffix out
  | literal | range | var => trivial

/-- Branches without a common end are a union as they are. -/
theorem choice_eq_union
    (h : ∀ a b s, l.trailingOutput? = some a → r.trailingOutput? = some b →
      s <:+ a → s <:+ b → s = []) : choice l r = union l r := by
  have hcommon : commonTrailing l r = [] := by
    refine Decidable.byContradiction fun hne ↦ ?_
    obtain ⟨a, b, ha, hb⟩ := exists_trailingOutput? hne
    refine hne ((commonTrailing_eq ha hb).trans (h a b _ ha hb ?_ ?_))
    · exact Output.commonSuffix_isSuffix_left a b
    · exact Output.commonSuffix_isSuffix_right a b
  rw [choice, hcommon]

/-- **A normal expression stays as it is.** -/
theorem IsNormal.normalize_eq (h : e.IsNormal) : e.normalize = e := by
  induction e with
  | union l r ihl ihr =>
    obtain ⟨hl, hr, hcommon⟩ := h
    rw [normalize, ihl hl, ihr hr, choice_eq_union hcommon]
  | concat l r ihl ihr =>
    obtain ⟨hl, hr, hmerges⟩ := h
    rw [normalize, ihl hl, ihr hr, Expr.sequence, sequenceWith_of_not_merges hmerges]
  | star b ih => rw [normalize, ih h]
  | emit b out ih =>
    obtain ⟨hb, hout, hcarries⟩ := h
    rw [normalize, ih hb, withSuffix_of_not_carriesOutput hcarries hout]
  | literal | range | var => rfl

/-- **Normalisation reaches a normal form in one pass**: what it returns is normal, it changes
exactly the expressions that are not normal, and normalising again changes nothing. -/
theorem normalize_isNormal_and_idempotent (e : Expr) :
    e.normalize.IsNormal ∧ (e.normalize = e ↔ e.IsNormal) ∧
      e.normalize.normalize = e.normalize := by
  refine ⟨isNormal_normalize e, ⟨fun h ↦ ?_, IsNormal.normalize_eq⟩,
    (isNormal_normalize e).normalize_eq⟩
  rw [← h]
  exact isNormal_normalize e

/-- The common end of the branches unwraps the star in one of them, and literals on the other side
merge. -/
example : normalize (union (concat (text "a" ['p']) (emit (star (text "b" [])) ['s']))
      (concat (text "c" []) (concat (empty ['q']) (emit (text "d" []) ['s'])))) =
    emit (union (concat (text "a" ['p']) (star (text "b" [])))
      (text "cd" ['q'])) ['s'] := by
  decide

end Transduction.Expr
