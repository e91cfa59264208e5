/-!
# Lists in ascending order

Two ways to bring a list in ascending order. `sort` keeps elements that neither order separates, as
they stood: it merges neighbouring lists in pairs, from single elements on, until one list is left.
`distinct` keeps each element once, by inserting the elements one at a time.

Both are recursive on their data alone, merging included, so they can be evaluated inside a proof.

## Main statements

* `merge_eq_merge`: two ascending lists are merged as in the standard library;
* `sort_perm`, `pairwise_sort`: sorting rearranges a list, and the result is ascending;
* `sort_eq_self`: an ascending list stays as it is;
* `map_sort`: elements can be replaced before sorting or after;
* `mem_distinct`, `pairwise_distinct`: `distinct` keeps the elements, strictly ascending.
-/

namespace Transduction.Ascending

variable {α : Type}

/-! ### Keeping equal elements -/

section Sorting

variable (le : α → α → Bool)

/-- Merges a list that begins with `a` and goes on with `l` into another one; `rest` merges `l`. -/
def mergeCons (a : α) (l : List α) (rest : List α → List α) : List α → List α
  | [] => a :: l
  | b :: r => if le a b then a :: rest (b :: r) else b :: mergeCons a l rest r

/-- Two ascending lists as one; of elements that may stand before each other, those of the first
list come first. -/
def merge : List α → List α → List α
  | [], r => r
  | a :: l, r => mergeCons le a l (merge l) r

/-- Merges the first list with the second, the third with the fourth, and so on. -/
def mergePairs : List (List α) → List (List α)
  | a :: b :: rest => merge le a b :: mergePairs rest
  | ls => ls

/-- Merges pairs up to `n` times, or until one list is left. -/
def mergeAll : Nat → List (List α) → List α
  | n + 1, a :: b :: rest => mergeAll n (mergePairs le (a :: b :: rest))
  | _, ls => ls.flatten

/-- The list in ascending order; elements that may stand before each other keep their order. -/
def sort (l : List α) : List α := mergeAll le l.length (l.map ([·]))

variable {le}

theorem merge_eq_merge (l r : List α) : merge le l r = l.merge r le := by
  induction l generalizing r with
  | nil => rw [List.nil_merge, merge]
  | cons a l ih =>
    rw [merge]
    induction r with
    | nil => rw [List.merge_right, mergeCons]
    | cons b r ihr => rw [mergeCons, List.cons_merge_cons, ih, ihr]

theorem flatten_mergePairs_perm (ls : List (List α)) :
    (mergePairs le ls).flatten.Perm ls.flatten := by
  fun_induction mergePairs le ls with
  | case1 a b rest ih =>
    rw [merge_eq_merge, List.flatten_cons, List.flatten_cons, List.flatten_cons,
      ← List.append_assoc]
    exact (List.merge_perm_append le).append ih
  | case2 => rfl

theorem mergeAll_perm (n : Nat) (ls : List (List α)) : (mergeAll le n ls).Perm ls.flatten := by
  fun_induction mergeAll le n ls with
  | case1 n a b rest ih => exact ih.trans (flatten_mergePairs_perm _)
  | case2 => rfl

theorem flatten_singletons (l : List α) : (l.map ([·])).flatten = l := by
  simp [← List.flatMap_def]

/-- **Sorting keeps all members**, each as often as it is there. -/
theorem sort_perm (l : List α) : (sort le l).Perm l := by
  have h := @mergeAll_perm α le l.length (l.map ([·]))
  rwa [flatten_singletons] at h

@[simp] theorem mem_sort {a : α} {l : List α} : a ∈ sort le l ↔ a ∈ l := (sort_perm l).mem_iff

/-- A round of merging in pairs does not make the lists more. -/
theorem length_mergePairs_le (ls : List (List α)) : (mergePairs le ls).length ≤ ls.length := by
  fun_induction mergePairs le ls with
  | case1 a b rest ih => simp only [List.length_cons]; omega
  | case2 => exact Nat.le_refl _

section Pairwise

variable (htrans : ∀ a b c, le a b → le b c → le a c) (htotal : ∀ a b, le a b || le b a)

include htrans htotal

/-- Ascending lists are merged into ascending ones. -/
theorem pairwise_of_mem_mergePairs {ls : List (List α)} (h : ∀ l ∈ ls, l.Pairwise (le · ·)) :
    ∀ l ∈ mergePairs le ls, l.Pairwise (le · ·) := by
  fun_induction mergePairs le ls with
  | case1 a b rest ih =>
    rw [List.forall_mem_cons] at h ⊢
    rw [List.forall_mem_cons] at h
    refine ⟨?_, ih h.2.2⟩
    rw [merge_eq_merge]
    exact List.pairwise_merge htrans htotal a b h.1 h.2.1
  | case2 => exact h

/-- As many rounds as there are lists leave one ascending list. -/
theorem pairwise_mergeAll {n : Nat} {ls : List (List α)} (hn : ls.length ≤ n + 1)
    (h : ∀ l ∈ ls, l.Pairwise (le · ·)) : (mergeAll le n ls).Pairwise (le · ·) := by
  fun_induction mergeAll le n ls with
  | case1 n a b rest ih =>
    refine ih ?_ (pairwise_of_mem_mergePairs htrans htotal h)
    have hle := @length_mergePairs_le α le rest
    simp only [mergePairs, List.length_cons] at hn ⊢
    omega
  | case2 n ls hshort =>
    match ls with
    | [] => exact .nil
    | [l] => simpa using h
    | a :: b :: rest =>
      obtain ⟨k, rfl⟩ : ∃ k, n = k + 1 := ⟨n - 1, by simp only [List.length_cons] at hn; omega⟩
      exact (hshort k a b rest rfl rfl).elim

/-- **A sorted list ascends.** -/
theorem pairwise_sort (l : List α) : (sort le l).Pairwise (le · ·) := by
  refine pairwise_mergeAll htrans htotal (by simp) fun k hk ↦ ?_
  obtain ⟨a, -, rfl⟩ := List.mem_map.1 hk
  exact List.pairwise_singleton _ _

end Pairwise

/-- Lists that ascend from one to the next are joined as they stand. -/
theorem flatten_mergePairs {ls : List (List α)} (h : ls.flatten.Pairwise (le · ·)) :
    (mergePairs le ls).flatten = ls.flatten := by
  fun_induction mergePairs le ls with
  | case1 a b rest ih =>
    rw [List.flatten_cons, List.flatten_cons, ← List.append_assoc, List.pairwise_append] at h
    have hab := (List.pairwise_append.1 h.1).2.2
    rw [List.flatten_cons, ih h.2.1, merge_eq_merge, List.merge_of_le fun x y ↦ (hab x · y ·),
      List.append_assoc]
    rfl
  | case2 => rfl

/-- All rounds join such lists as they stand. -/
theorem mergeAll_eq_flatten (n : Nat) {ls : List (List α)} (h : ls.flatten.Pairwise (le · ·)) :
    mergeAll le n ls = ls.flatten := by
  fun_induction mergeAll le n ls with
  | case1 n a b rest ih => rw [ih (by rwa [flatten_mergePairs h]), flatten_mergePairs h]
  | case2 => rfl

/-- A list that ascends already is not changed, so members that are alike keep their order. -/
theorem sort_eq_self {l : List α} (h : l.Pairwise (le · ·)) : sort le l = l := by
  rw [sort, mergeAll_eq_flatten, flatten_singletons]
  rwa [flatten_singletons]

section Map

variable {β : Type} {le' : β → β → Bool} {f : α → β} (h : ∀ a b, le' (f a) (f b) = le a b)

include h

/-- A map that keeps the order can be applied before or after merging. -/
theorem map_merge (l r : List α) : (merge le l r).map f = merge le' (l.map f) (r.map f) := by
  rw [merge_eq_merge, merge_eq_merge]
  exact List.map_merge fun a _ b _ ↦ (h a b).symm

theorem map_mergePairs (ls : List (List α)) :
    (mergePairs le ls).map (List.map f) = mergePairs le' (ls.map (List.map f)) := by
  fun_induction mergePairs le ls with
  | case1 a b rest ih =>
    rw [List.map_cons, List.map_cons, List.map_cons, mergePairs, map_merge h, ih]
  | case2 ls hshort =>
    match ls with
    | [] => rfl
    | [l] => rfl
    | a :: b :: rest => exact (hshort a b rest rfl).elim

theorem map_mergeAll (n : Nat) (ls : List (List α)) :
    (mergeAll le n ls).map f = mergeAll le' n (ls.map (List.map f)) := by
  fun_induction mergeAll le n ls with
  | case1 n a b rest ih => rw [ih, map_mergePairs h, List.map_cons, List.map_cons, mergeAll]
  | case2 n ls hshort =>
    match n, ls with
    | 0, ls => rw [mergeAll, List.map_flatten]; nofun
    | n + 1, [] => rfl
    | n + 1, [l] => simp [mergeAll]
    | n + 1, a :: b :: rest => exact (hshort n a b rest rfl rfl).elim

/-- Elements can be replaced before sorting if this keeps their order. -/
theorem map_sort (l : List α) : (sort le l).map f = sort le' (l.map f) := by
  rw [sort, sort, map_mergeAll h, List.length_map, List.map_map, List.map_map]
  rfl

end Map

end Sorting

/-! ### Each element once -/

section Distinct

variable [LT α] [DecidableLT α] [DecidableEq α]

/-- The ascending list with `a` in its place, unless it is there already. -/
def insertNew (a : α) : List α → List α
  | [] => [a]
  | b :: l => if a < b then a :: b :: l else if a = b then b :: l else b :: insertNew a l

/-- The elements of a list in strictly ascending order. -/
def distinct (l : List α) : List α := l.foldr insertNew []

@[simp] theorem mem_insertNew {a b : α} {l : List α} : b ∈ insertNew a l ↔ b = a ∨ b ∈ l := by
  fun_induction insertNew a l with
  | case1 => simp
  | case2 => simp
  | case3 => simp
  | case4 c l _ _ ih => simp [ih, or_left_comm]

@[simp] theorem mem_distinct {a : α} {l : List α} : a ∈ distinct l ↔ a ∈ l := by
  induction l with
  | nil => rfl
  | cons b l ih => rw [distinct, List.foldr_cons, ← distinct, mem_insertNew, ih, List.mem_cons]

variable [LE α] [Std.IsLinearOrder α] [Std.LawfulOrderLT α]

/-- A member is put where it keeps the list strictly ascending. -/
theorem pairwise_insertNew (a : α) {l : List α} (hl : l.Pairwise (· < ·)) :
    (insertNew a l).Pairwise (· < ·) := by
  fun_induction insertNew a l with
  | case1 => exact List.pairwise_singleton _ _
  | case2 b l hab =>
    refine List.pairwise_cons.2 ⟨fun c hc ↦ ?_, hl⟩
    rcases List.mem_cons.1 hc with rfl | hc
    · exact hab
    · exact Std.lt_trans hab (List.rel_of_pairwise_cons hl hc)
  | case3 => exact hl
  | case4 b l hab hne ih =>
    refine List.pairwise_cons.2 ⟨fun c hc ↦ ?_, ih hl.of_cons⟩
    rcases mem_insertNew.1 hc with rfl | hc
    · exact Std.lt_of_le_of_ne (Std.not_lt.1 hab) (Ne.symm hne)
    · exact List.rel_of_pairwise_cons hl hc

/-- The distinct members ascend strictly. -/
theorem pairwise_distinct (l : List α) : (distinct l).Pairwise (· < ·) := by
  induction l with
  | nil => exact .nil
  | cons a l ih => exact pairwise_insertNew a ih

end Distinct

end Transduction.Ascending
