/-!
# Binary search

`partitionPoint p a` searches an array for the place where a condition stops to hold. On an array
whose elements that satisfy the condition all stand before those that do not, it is the number of
the former.

## Main statements

* `partitionPoint_le_size`: the place is in the array or at its end;
* `lt_partitionPoint_iff`: an element stands before the place exactly when it satisfies the
  condition.
-/

namespace Transduction

variable {α : Type}

/-- The place where the condition stops to hold, found by halving the part of the array in which it
may lie. -/
def partitionPoint (p : α → Bool) (a : Array α) : Nat := loop 0 a.size (Nat.le_refl _)
where
  /-- The place lies from `lo` to `hi`. -/
  loop (lo hi : Nat) (h : hi ≤ a.size) : Nat :=
    if hlt : lo < hi then
      let mid := lo + (hi - lo) / 2
      have hmid : mid < a.size := by omega
      if p a[mid] then loop (mid + 1) hi h else loop lo mid (by omega)
    else lo
  termination_by hi - lo

namespace partitionPoint

theorem loop_le {p : α → Bool} {a : Array α} (lo hi : Nat) (h : hi ≤ a.size) (hle : lo ≤ hi) :
    loop p a lo hi h ≤ hi := by
  fun_induction loop p a lo hi h with
  | case1 _ _ _ _ _ _ _ ih => exact ih (by omega)
  | case2 _ _ _ _ _ _ _ ih => exact Nat.le_trans (ih (by omega)) (by omega)
  | case3 => omega

/-- If all elements in front of the lower bound have the property and none from the upper bound on,
the search ends between those that have it and those that do not. -/
theorem lt_loop_iff {p : α → Bool} {a : Array α}
    (hp : ∀ i j (hi : i < a.size) (hj : j < a.size), i ≤ j → p a[j] → p a[i])
    (lo hi : Nat) (h : hi ≤ a.size) (hlo : ∀ i (hi : i < a.size), i < lo → p a[i])
    (hhi : ∀ i (h : i < a.size), hi ≤ i → ¬ p a[i]) {i : Nat} (hia : i < a.size) :
    i < loop p a lo hi h ↔ p a[i] := by
  fun_induction loop p a lo hi h with
  | case1 lo hi h hlt mid hmid hpm ih =>
    refine ih (fun j hj hjm ↦ ?_) hhi
    exact hp j mid hj hmid (by omega) hpm
  | case2 lo hi h hlt mid hmid hpm ih =>
    refine ih hlo fun j hj hjm hpj ↦ ?_
    exact hpm (hp mid j hmid hj hjm hpj)
  | case3 lo hi h hlt =>
    constructor
    · exact hlo i hia
    · intro hpi
      refine Nat.lt_of_not_le fun hle ↦ ?_
      exact hhi i hia (by omega) hpi

end partitionPoint

theorem partitionPoint_le_size (p : α → Bool) (a : Array α) : partitionPoint p a ≤ a.size :=
  partitionPoint.loop_le 0 a.size (Nat.le_refl _) (Nat.zero_le _)

/-- **The elements in front of the point are those that have the property**, if no element behind
one without it has it. -/
theorem lt_partitionPoint_iff {p : α → Bool} {a : Array α}
    (hp : ∀ i j (hi : i < a.size) (hj : j < a.size), i ≤ j → p a[j] → p a[i])
    {i : Nat} (hi : i < a.size) : i < partitionPoint p a ↔ p a[i] :=
  partitionPoint.lt_loop_iff hp 0 a.size (Nat.le_refl _) (fun _ _ h ↦ absurd h (Nat.not_lt_zero _))
    (fun _ h hle ↦ absurd h (Nat.not_lt.2 hle)) hi

end Transduction
