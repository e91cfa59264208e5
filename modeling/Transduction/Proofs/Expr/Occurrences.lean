import Mathlib.Data.List.ReduceOption
import Transduction.Expr.Occurrences
import Transduction.Proofs.Expr.Outline

/-!
# What normalisation leaves of the occurrences

Normalisation drops occurrences and adds none, and all rules keep the order
(`sublist_normalize`). What is dropped reads nothing, since the places that read something are the
same before and after (`Rewrites.ranges_eq`). So an occurrence that is left has its number among all
occurrences, and the numbers keep their order (`exists_picks_normalize`).
-/

namespace Transduction

namespace Expr

variable {e l : Expr}

/-- There is one place for each occurrence. -/
theorem length_occurrenceRanges (e : Expr) : e.occurrenceRanges.length = e.occurrences := by
  induction e with
  | union l r ihl ihr | concat l r ihl ihr =>
    rw [occurrenceRanges, occurrences, List.length_append, ihl, ihr]
  | star b ih | emit b out ih => exact ih
  | literal word out =>
    rcases word with - | ⟨x, word⟩
    · rfl
    · simp [occurrenceRanges, occurrences]
  | range | var => rfl

/-- The places of an expression are the occurrences that read something. -/
theorem reduceOption_occurrenceRanges (e : Expr) : e.occurrenceRanges.reduceOption = e.ranges := by
  induction e with
  | union l r ihl ihr | concat l r ihl ihr =>
    rw [occurrenceRanges, ranges, List.reduceOption_append, ihl, ihr]
  | star b ih | emit b out ih => exact ih
  | literal word out =>
    rcases word with - | ⟨x, word⟩
    · rfl
    · have hsome : (x :: word).map (fun y ↦ some (SymbolRange.single y)) =
          ((x :: word).map SymbolRange.single).map some := List.map_map.symm
      show ((x :: word).map fun y ↦ some (SymbolRange.single y)).reduceOption = _
      rw [hsome, List.reduceOption, List.filterMap_map]
      exact List.filterMap_some
  | range | var => rfl

/-! ### Normalisation -/

/-- Two literals that are joined keep their symbols; at most an empty one is lost. -/
theorem sublist_literal_append (u v : List Symbol) (o p s : Output) :
    (literal (u ++ v) s).occurrenceRanges.Sublist
      ((literal u o).occurrenceRanges ++ (literal v p).occurrenceRanges) := by
  rcases u with - | ⟨x, u⟩
  · exact List.sublist_append_right _ _
  rcases v with - | ⟨y, v⟩
  · rw [List.append_nil]
    exact List.sublist_append_left _ _
  · show ((x :: u ++ y :: v).map fun z ↦ some (SymbolRange.single z)).Sublist _
    rw [List.map_append]
    exact .refl _

/-- The rules of a sequence only drop occurrences, if writing an output after the left side does. -/
theorem sublist_sequenceWith {suffixed : Output → Expr}
    (h : ∀ out, (suffixed out).occurrenceRanges.Sublist l.occurrenceRanges) (r : Expr) :
    (sequenceWith suffixed l r).occurrenceRanges.Sublist
      (l.occurrenceRanges ++ r.occurrenceRanges) := by
  fun_cases sequenceWith suffixed l r with
  | case1 => exact List.sublist_append_right _ _
  | case2 => exact (h _).trans (List.sublist_append_left _ _)
  | case3 u o v p => exact sublist_literal_append u v o p _
  | case4 => exact List.sublist_append_right [none] _
  | case5 => exact .refl _

/-- An added output loses no place that reads something. -/
theorem sublist_withSuffix (e : Expr) (s : Output) :
    (e.withSuffix s).occurrenceRanges.Sublist e.occurrenceRanges := by
  induction e generalizing s with
  | concat l r ihl ihr =>
    rcases s with - | ⟨c, s⟩
    · exact .refl _
    · exact (sublist_sequenceWith ihl _).trans ((List.Sublist.refl _).append (ihr _))
  | literal | range | emit | union | star | var =>
    rcases s with - | ⟨c, s⟩ <;> exact .refl _

/-- To cut an output changes no place. -/
theorem occurrenceRanges_dropTrailing (n : Nat) (e : Expr) :
    (e.dropTrailing n).occurrenceRanges = e.occurrenceRanges := by
  induction e with
  | concat l r _ ihr => rw [dropTrailing, occurrenceRanges, occurrenceRanges, ihr]
  | emit b out =>
    rw [dropTrailing]
    split <;> rfl
  | literal | range | union | star | var => rfl

/-- A union keeps the places of its branches. -/
theorem sublist_choice (l r : Expr) :
    (choice l r).occurrenceRanges.Sublist (l.occurrenceRanges ++ r.occurrenceRanges) := by
  rw [choice]
  generalize commonTrailing l r = s
  rcases s with - | ⟨c, s⟩
  · exact .refl _
  · have hsuffix := sublist_withSuffix
      (union (l.dropTrailing (c :: s).length) (r.dropTrailing (c :: s).length)) (c :: s)
    rwa [occurrenceRanges, occurrenceRanges_dropTrailing, occurrenceRanges_dropTrailing] at hsuffix

/-- **Normalisation only drops occurrences.** -/
theorem sublist_normalize (e : Expr) :
    e.normalize.occurrenceRanges.Sublist e.occurrenceRanges := by
  induction e with
  | union l r ihl ihr => exact (sublist_choice _ _).trans (ihl.append ihr)
  | concat l r ihl ihr =>
    exact (sublist_sequenceWith (sublist_withSuffix _) _).trans (ihl.append ihr)
  | star b ih => exact ih
  | emit b out ih => exact (sublist_withSuffix _ _).trans ih
  | literal | range | var => exact .refl _

end Expr

/-! ### New numbers -/

namespace Picks

variable {ρ : StateId → StateId} {left all : List (Option SymbolRange)}

theorem nil : Picks id [] [] where
  strictMono := strictMono_id
  length := rfl
  reads _ h := absurd h (Nat.not_lt_zero _)
  dropped _ h := absurd h (Nat.not_lt_zero _)

/-- One occurrence is dropped in front. -/
theorem drop (h : Picks ρ left all) : Picks (fun s ↦ ρ s + 1) left (none :: all) where
  strictMono _ _ hst := Nat.succ_lt_succ (h.strictMono hst)
  length := congrArg Nat.succ h.length
  reads s hs := h.reads s hs
  dropped t ht hnot := by
    rcases t with - | t
    · rfl
    · exact h.dropped t (Nat.lt_of_succ_lt_succ ht) fun s hs ↦ hnot s (congrArg Nat.succ hs)

/-- One occurrence is kept in front. -/
theorem keep (h : Picks ρ left all) (a : Option SymbolRange) :
    Picks (fun s ↦ s.casesOn 0 fun s ↦ ρ s + 1) (a :: left) (a :: all) where
  strictMono s t hst := by
    rcases t with - | t
    · exact absurd hst (Nat.not_lt_zero _)
    rcases s with - | s
    · exact Nat.succ_pos _
    · exact Nat.succ_lt_succ (h.strictMono (Nat.lt_of_succ_lt_succ hst))
  length := congrArg Nat.succ h.length
  reads s hs := by
    rcases s with - | s
    · rfl
    · exact h.reads s (Nat.lt_of_succ_lt_succ hs)
  dropped t ht hnot := by
    rcases t with - | t
    · exact absurd rfl (hnot 0)
    · exact h.dropped t (Nat.lt_of_succ_lt_succ ht) fun s hs ↦
        hnot (s + 1) (congrArg Nat.succ hs)

end Picks

/-- If only occurrences that read nothing are left out, the others have a number among all. -/
theorem exists_picks_of_sublist {left all : List (Option SymbolRange)} (h : left.Sublist all)
    (heq : left.reduceOption = all.reduceOption) : ∃ ρ, Picks ρ left all := by
  induction h with
  | slnil => exact ⟨id, .nil⟩
  | cons a hsub ih =>
    rcases a with - | r
    · obtain ⟨ρ, hρ⟩ := ih heq
      exact ⟨_, hρ.drop⟩
    · -- one that reads something would be missing
      have hle := (hsub.filterMap id).length_le
      have hlength := congrArg List.length heq
      rw [List.reduceOption_cons_of_some, List.length_cons] at hlength
      exact absurd hlength (Nat.ne_of_lt (Nat.lt_succ_of_le hle))
  | @cons_cons left all a hsub ih =>
    have htail : left.reduceOption = all.reduceOption := by
      rcases a with - | r
      · exact heq
      · exact (List.cons.inj heq).2
    obtain ⟨ρ, hρ⟩ := ih htail
    exact ⟨_, hρ.keep a⟩

/-- **What normalisation leaves has its numbers among all occurrences.** -/
theorem Expr.exists_picks_normalize (e : Expr) :
    ∃ ρ, Picks ρ e.normalize.occurrenceRanges e.occurrenceRanges := by
  refine exists_picks_of_sublist (sublist_normalize e) ?_
  rw [reduceOption_occurrenceRanges, reduceOption_occurrenceRanges,
    (rewrites_normalize e).ranges_eq]

end Transduction
