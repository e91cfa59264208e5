/-!
# Numbered values

A list of numbered values says, for each number, which values it has: `valuesAt l i` in the order of
the list. `tabulate n l` lays the values out by number in one pass over the list, for the numbers
below `n`.

## Main statements

* `getElem?_tabulate`: an entry of the layout holds the values with its number;
* `toList_tabulate`: the layout as a list.
-/

namespace Transduction.Numbered

variable {α : Type}

/-- The values with number `i`, in their order. -/
def valuesAt (l : List (Nat × α)) (i : Nat) : List α := (l.filter (·.1 = i)).map (·.2)

/-- The values by number, for the numbers below `n`; values with greater numbers are left out. -/
def tabulate (n : Nat) (l : List (Nat × α)) : Array (List α) :=
  l.foldr (fun x table ↦ table.modify x.1 (x.2 :: ·)) (Array.replicate n [])

@[simp] theorem valuesAt_nil (i : Nat) : valuesAt ([] : List (Nat × α)) i = [] := rfl

theorem valuesAt_cons (x : Nat × α) (l : List (Nat × α)) (i : Nat) :
    valuesAt (x :: l) i = if x.1 = i then x.2 :: valuesAt l i else valuesAt l i := by
  by_cases h : x.1 = i <;> simp [valuesAt, h]

@[simp] theorem valuesAt_append (l k : List (Nat × α)) (i : Nat) :
    valuesAt (l ++ k) i = valuesAt l i ++ valuesAt k i := by
  simp [valuesAt]

/-- A value is found by its number exactly if it is listed with it. -/
@[simp] theorem mem_valuesAt {l : List (Nat × α)} {i : Nat} {a : α} :
    a ∈ valuesAt l i ↔ (i, a) ∈ l := by
  constructor
  · intro h
    obtain ⟨⟨j, b⟩, hx, rfl⟩ := List.mem_map.1 h
    obtain ⟨hmem, hj⟩ := List.mem_filter.1 hx
    exact of_decide_eq_true hj ▸ hmem
  · intro h
    exact List.mem_map.2 ⟨(i, a), List.mem_filter.2 ⟨h, decide_eq_true rfl⟩, rfl⟩

@[simp] theorem size_tabulate (n : Nat) (l : List (Nat × α)) : (tabulate n l).size = n := by
  induction l with
  | nil => exact Array.size_replicate
  | cons x l ih => rw [tabulate, List.foldr_cons, ← tabulate, Array.size_modify, ih]

/-- **A slot holds the values of its number** in their order. -/
theorem getElem?_tabulate {n i : Nat} (h : i < n) (l : List (Nat × α)) :
    (tabulate n l)[i]? = some (valuesAt l i) := by
  induction l with
  | nil => simp [tabulate, h]
  | cons x l ih =>
    rw [tabulate, List.foldr_cons, ← tabulate, Array.getElem?_modify, ih, valuesAt_cons]
    split <;> rfl

theorem getElem?_tabulate_eq_none {n i : Nat} (h : n ≤ i) (l : List (Nat × α)) :
    (tabulate n l)[i]? = none :=
  Array.getElem?_eq_none (by rwa [size_tabulate])

theorem toList_tabulate (n : Nat) (l : List (Nat × α)) :
    (tabulate n l).toList = (List.range n).map (valuesAt l) := by
  refine List.ext_getElem? fun i ↦ ?_
  rw [Array.getElem?_toList, List.getElem?_map]
  rcases Nat.lt_or_ge i n with h | h
  · rw [getElem?_tabulate h, List.getElem?_range h, Option.map_some]
  · rw [getElem?_tabulate_eq_none h, List.getElem?_eq_none (by simpa using h), Option.map_none]

end Transduction.Numbered
