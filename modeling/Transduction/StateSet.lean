import Transduction.Ascending

/-!
# Sets of states

The states of a machine are numbered from zero. A `StateSet` holds some of the numbers below its
capacity, which is the number of states of the machine it is made for. Two sets are equal when their
capacities and their members are: the members are kept strictly ascending, so a set has one form.
Sets are ordered too, so that they can be looked up among others.

Numbers that are not below the capacity never enter a set: `insert?` and `ofList?` refuse them, and
`ofList` leaves them out.

## Main statements

* `mem_ofList`: the members of a set made from a list;
* `insert?_eq_none_iff`: insertion fails exactly beyond the capacity;
* `mem_of_insert?`: what insertion adds.
-/

namespace Transduction

/-- The number of a state. -/
abbrev StateId := Nat

/-- A set of states of a machine with `capacity` states. -/
structure StateSet where
  /-- The number of states of the machine. -/
  capacity : Nat
  /-- The states in the set. -/
  members : List StateId
  /-- Each state stands once, in ascending order. -/
  ascending : members.Pairwise (· < ·)
  /-- Every member is a state of the machine. -/
  lt_capacity : ∀ s ∈ members, s < capacity
deriving DecidableEq

namespace StateSet

instance : Membership StateId StateSet := ⟨fun S s ↦ s ∈ S.members⟩

theorem mem_def {s : StateId} {S : StateSet} : s ∈ S ↔ s ∈ S.members := Iff.rfl

instance (s : StateId) (S : StateSet) : Decidable (s ∈ S) :=
  decidable_of_iff (s ∈ S.members) Iff.rfl

/-- Sets are ordered by their capacities, then by their members, one after the other. -/
instance : Ord StateSet := ⟨compareLex (compareOn capacity) (compareOn members)⟩

instance : Std.TransOrd StateSet :=
  inferInstanceAs (Std.TransCmp (compareLex (compareOn capacity) (compareOn members)))

instance : Std.LawfulEqOrd StateSet where
  compare_self := Std.ReflOrd.compare_self
  eq_of_compare {S T} h := by
    obtain ⟨hc, hm⟩ := compareLex_eq_eq.1 h
    cases S
    cases T
    cases Std.LawfulEqOrd.eq_of_compare hc
    cases Std.LawfulEqOrd.eq_of_compare hm
    rfl

/-- No state at all. -/
def empty (capacity : Nat) : StateSet := ⟨capacity, [], .nil, by simp⟩

/-- One state. -/
def singleton (capacity : Nat) (s : StateId) (h : s < capacity) : StateSet :=
  ⟨capacity, [s], List.pairwise_singleton _ _, by simpa using h⟩

/-- The states of a list that are below the capacity. -/
def ofList (capacity : Nat) (states : List StateId) : StateSet where
  capacity
  members := Ascending.distinct (states.filter (· < capacity))
  ascending := Ascending.pairwise_distinct _
  lt_capacity s hs := by simpa using (List.mem_filter.1 (Ascending.mem_distinct.1 hs)).2

/-- The set with one more state; refused if the state is not below the capacity. -/
def insert? (S : StateSet) (s : StateId) : Option StateSet :=
  if h : s < S.capacity then
    some {
      capacity := S.capacity
      members := Ascending.insertNew s S.members
      ascending := Ascending.pairwise_insertNew s S.ascending
      lt_capacity t ht := by
        rcases Ascending.mem_insertNew.1 ht with rfl | ht
        · exact h
        · exact S.lt_capacity t ht }
  else none

/-- The set of the states of a list; refused if one of them is not below the capacity. -/
def ofList? (capacity : Nat) (states : List StateId) : Option StateSet :=
  states.foldlM insert? (empty capacity)

/-- The set has no member. -/
def isEmpty (S : StateSet) : Bool := S.members.isEmpty

/-- The number of members. -/
def size (S : StateSet) : Nat := S.members.length

/-- The members in ascending order between braces, separated by commas. -/
def display (S : StateSet) : String :=
  "\x7b" ++ ", ".intercalate (S.members.map toString) ++ "\x7d"

@[simp] theorem not_mem_empty (capacity : Nat) (s : StateId) : s ∉ empty capacity :=
  List.not_mem_nil

@[simp] theorem mem_singleton {capacity : Nat} {s t : StateId} {h : s < capacity} :
    t ∈ singleton capacity s h ↔ t = s := List.mem_singleton

/-- States beyond the capacity are left out. -/
@[simp] theorem mem_ofList {capacity : Nat} {states : List StateId} {s : StateId} :
    s ∈ ofList capacity states ↔ s ∈ states ∧ s < capacity := by
  rw [mem_def, ofList, Ascending.mem_distinct, List.mem_filter, decide_eq_true_iff]

/-- A state cannot be put into a set that has no room for it. -/
theorem insert?_eq_none_iff {S : StateSet} {s : StateId} :
    S.insert? s = none ↔ S.capacity ≤ s := by
  rw [insert?, ← Nat.not_lt]
  split <;> simp_all

/-- The new state is the only one that is added. -/
theorem mem_of_insert? {S T : StateSet} {s t : StateId} (h : S.insert? s = some T) :
    t ∈ T ↔ t = s ∨ t ∈ S := by
  rw [insert?] at h
  split at h
  · cases h
    exact Ascending.mem_insertNew
  · cases h

theorem capacity_of_insert? {S T : StateSet} {s : StateId} (h : S.insert? s = some T) :
    T.capacity = S.capacity := by
  rw [insert?] at h
  split at h
  · cases h
    rfl
  · cases h

end StateSet

end Transduction
