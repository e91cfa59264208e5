import Transduction.Proofs.PositionGraph.Shift
import Transduction.Proofs.Transducer.Relabelling

/-!
# Graphs under other numbers

Nothing in a graph depends on its numbers but the numbers themselves. So the machine of a graph
whose occurrences are renumbered is the machine of the graph under the new numbers
(`relabelled_ofGraph`), as long as different numbers stay different and the initial state still
comes after all occurrences. The edges of a state need not keep their order, since they are sorted
by numbers.

When two parts are numbered in the one order or in the other, their numbers are exchanged in two
blocks (`exchange`): each part keeps its numbers, but for as many as the other part takes before it.
-/

namespace Transduction

/-! ### Two blocks of numbers -/

/-- The numbers below `m` and the `n` numbers after them change places; greater numbers stay. -/
def exchange (m n s : Nat) : Nat := if s < m then s + n else if s < m + n then s - m else s

section Exchange

variable {m n s : Nat}

theorem exchange_of_lt (h : s < m) : exchange m n s = s + n := if_pos h

theorem exchange_add_of_lt (h : s < n) : exchange m n (s + m) = s := by
  rw [exchange, if_neg (Nat.not_lt.2 (Nat.le_add_left m s)), if_pos (by omega),
    Nat.add_sub_cancel]

theorem exchange_of_le (h : m + n ≤ s) : exchange m n s = s := by
  rw [exchange, if_neg (by omega), if_neg (by omega)]

/-- Exchanged twice, the two groups stand as before. -/
theorem exchange_exchange (m n s : Nat) : exchange n m (exchange m n s) = s := by
  rcases Nat.lt_or_ge s m with hs | hs
  · rw [exchange_of_lt hs, exchange_add_of_lt hs]
  rcases Nat.lt_or_ge s (m + n) with hs' | hs'
  · obtain ⟨t, rfl⟩ := Nat.exists_eq_add_of_le' hs
    have ht : t < n := by omega
    rw [exchange_add_of_lt ht, exchange_of_lt ht]
  · rw [exchange_of_le hs', exchange_of_le (Nat.add_comm m n ▸ hs')]

theorem exchange_injective (m n : Nat) : (exchange m n).Injective :=
  Function.LeftInverse.injective (exchange_exchange m n)

theorem exchange_lt_iff : exchange m n s < m + n ↔ s < m + n := by
  rw [exchange]
  split <;> [skip; split] <;> omega

end Exchange

namespace PositionGraph

open Transducer

variable {g : PositionGraph} {s : StateId} {ρ σ : StateId → StateId}

/-! ### Numbers of graphs -/

/-- Only the numbers of occurrences matter for the renumbered graph. -/
theorem renumber_congr (h : ∀ s ∈ g.ids, ρ s = σ s) : g.renumber ρ = g.renumber σ := by
  induction g with
  | position p => rw [renumber, renumber, h p.state (List.mem_singleton_self _)]
  | union l r out ihl ihr =>
    rw [ids_union, List.forall_mem_append] at h
    rw [renumber, renumber, ihl h.1, ihr h.2]
  | concat l r out ihl ihr =>
    rw [ids_concat, List.forall_mem_append] at h
    rw [renumber, renumber, ihl h.1, ihr h.2]
  | star b out ih => rw [renumber, renumber, ih h]

theorem renumber_id (g : PositionGraph) : g.renumber id = g := by
  induction g with
  | position p => rfl
  | union l r out ihl ihr | concat l r out ihl ihr => rw [renumber, ihl, ihr]
  | star b out ih => rw [renumber, ih]

theorem renumber_renumber (g : PositionGraph) :
    (g.renumber ρ).renumber σ = g.renumber (σ ∘ ρ) := by
  induction g with
  | position p => rfl
  | union l r out ihl ihr | concat l r out ihl ihr =>
    rw [renumber, renumber, renumber, ihl, ihr]
  | star b out ih => rw [renumber, renumber, renumber, ih]

/-! ### The machine -/

section

variable (hρ : ρ.Injective) (hbound : ρ g.bound = (g.renumber ρ).bound)
  (hlt : ∀ s, ρ s < (g.renumber ρ).bound ↔ s < g.bound)

include hρ hbound hlt

/-- The rows of the table are the same, each by its new number. -/
theorem getElem?_rows_renumber (s : StateId) :
    (g.renumber ρ).rows[ρ s]? =
      g.rows[s]?.map fun row ↦ (row.1.map (·.renumber ρ), row.2) := by
  rcases Nat.lt_trichotomy s g.bound with hs | rfl | hs
  · rw [getElem?_rows_of_lt hs, getElem?_rows_of_lt ((hlt s).2 hs), follow_renumber, last_renumber,
      Numbered.valuesAt_map hρ, Numbered.valuesAt_map hρ, edgesTo_renumber hρ, List.map_id]
    rfl
  · rw [hbound, getElem?_rows_bound, getElem?_rows_bound, first_renumber, edgesTo_renumber hρ,
      empty?_renumber]
    rfl
  · have hbeyond : (g.renumber ρ).bound < ρ s := by
      refine Nat.lt_of_le_of_ne (Nat.le_of_not_lt fun h ↦ ?_) fun heq ↦ ?_
      · exact Nat.lt_asymm hs ((hlt s).1 h)
      · exact Nat.ne_of_lt hs (hρ (hbound.trans heq))
    rw [getElem?_rows_eq_none hs, getElem?_rows_eq_none hbeyond]
    rfl

/-- **The machine of the renumbered graph is the machine under the new numbers.** -/
theorem relabelled_ofGraph : (ofGraph g).Relabelled (ofGraph (g.renumber ρ)) ρ where
  injective := hρ
  initial := hbound.symm
  edges s := by
    rw [toList_edges_ofGraph, toList_edges_ofGraph, getElem?_rows_renumber hρ hbound hlt]
    -- both machines sort the edges, each by its own numbers
    refine (Ascending.sort_perm _).trans ?_
    refine List.Perm.trans ?_ ((Ascending.sort_perm _).map _).symm
    rcases g.rows[s]? with - | row
    · exact .nil
    · exact .rfl
  final?_eq s := by
    rw [final?_ofGraph_eq_bind, final?_ofGraph_eq_bind, getElem?_rows_renumber hρ hbound hlt]
    cases g.rows[s]? <;> rfl

end

end PositionGraph

end Transduction
