import Transduction.Proofs.Transducer.Arrivals
import Transduction.Transducer.Buffers

/-!
# Recording arrivals in flat memory

The cells of flat memory are read and written by a row and a place in the row. When the memory is
laid out for a word and a machine, nothing is left of what it held (`Buffers.reset_eq`), every
position has a cell for every state, and no two of them share one (`eq_of_mul_add_eq`). `Shows` says
what the cells hold; a cell that is written changes nothing else (`Shows.set?`).

Recording the arrivals over one symbol looks for clashes in the cells. It finds the clash that the
arrivals have (`record_of_clashAfter?_eq_some`), and if they have none, it fills their row
(`record_of_clashAfter?_eq_none`).
-/

namespace Transduction

/-! ### Cells -/

/-- A row and a place in it are determined by where the cell lies. -/
theorem eq_of_mul_add_eq {n p q s t : Nat} (hs : s < n) (ht : t < n)
    (h : p * n + s = q * n + t) : p = q ∧ s = t := by
  have hn : 0 < n := Nat.zero_lt_of_lt hs
  have hdiv := congrArg (· / n) h
  have hmod := congrArg (· % n) h
  simp only [Nat.mul_comm _ n, Nat.mul_add_div hn, Nat.mul_add_mod, Nat.div_eq_of_lt hs,
    Nat.div_eq_of_lt ht, Nat.mod_eq_of_lt hs, Nat.mod_eq_of_lt ht, Nat.add_zero] at hdiv hmod
  exact ⟨hdiv, hmod⟩

theorem mul_add_lt {n p length s : Nat} (hp : p ≤ length) (hs : s < n) :
    p * n + s < (length + 1) * n := by
  rw [Nat.succ_mul]
  exact Nat.add_lt_add_of_le_of_lt (Nat.mul_le_mul_right n hp) hs

namespace Buffers

variable {b : Buffers} {length size p : Nat} {picture picture' : Nat → StateId → Option Step}
  {s : StateId}

/-- The memory is laid out for a word of the given length and the given number of states, and its
cells hold what the picture shows. -/
structure Shows (b : Buffers) (length size : Nat) (picture : Nat → StateId → Option Step) :
    Prop where
  /-- A row has a cell for each state. -/
  stride : b.stride = size
  /-- There is a row for each position. -/
  size_cells : b.cells.size = (length + 1) * size
  /-- The cells are as in the picture. -/
  cell? : ∀ {j s}, j ≤ length → s < size → b.cell? j s = some (picture j s)

/-- **Nothing is left when the memory is laid out**, whatever it held. -/
theorem reset_eq (b : Buffers) (length size : Nat) :
    b.reset length size =
      ⟨size, Array.replicate ((length + 1) * size) none, #[], #[]⟩ := by
  simp [reset, resize]

theorem shows_reset (b : Buffers) (length size : Nat) :
    (b.reset length size).Shows length size fun _ _ ↦ none := by
  rw [reset_eq]
  refine ⟨rfl, Array.size_replicate, fun {j s} hj hs ↦ ?_⟩
  rw [Buffers.cell?, Array.getElem?_replicate, if_pos (mul_add_lt hj hs)]

/-- What the memory shows depends on its cells only. -/
theorem Shows.withStates (h : b.Shows length size picture) (frontier next : Array StateId) :
    Shows { b with frontier, next } length size picture :=
  ⟨h.stride, h.size_cells, h.cell?⟩

/-- Only the cells in the memory matter for the picture. -/
theorem Shows.congr (h : b.Shows length size picture)
    (heq : ∀ j ≤ length, ∀ s < size, picture j s = picture' j s) :
    b.Shows length size picture' :=
  ⟨h.stride, h.size_cells, fun {j s} hj hs ↦ heq j hj s hs ▸ h.cell? hj hs⟩

/-- **A cell can be written, and no other cell is changed by it.** -/
theorem Shows.set? (h : b.Shows length size picture) (step : Step) (hp : p ≤ length)
    (hs : s < size) :
    ∃ cells, b.set? p s step = some { b with cells } ∧
      Shows { b with cells } length size
        fun j t ↦ if j = p ∧ t = s then some step else picture j t := by
  have hlt : p * b.stride + s < b.cells.size := by
    rw [h.stride, h.size_cells]
    exact mul_add_lt hp hs
  refine ⟨b.cells.setIfInBounds (p * b.stride + s) (some step), if_pos hlt, h.stride, ?_, ?_⟩
  · rw [Array.size_setIfInBounds]
    exact h.size_cells
  · intro j t hj ht
    have hcell := h.cell? hj ht
    rw [Buffers.cell?] at hcell ⊢
    show (b.cells.setIfInBounds (p * b.stride + s) (some step))[j * b.stride + t]? = _
    by_cases hjt : j = p ∧ t = s
    · rw [if_pos hjt, hjt.1, hjt.2, Array.getElem?_setIfInBounds_self_of_lt hlt]
    · -- rows of one stride do not overlap, so another cell has another place
      have hne : p * b.stride + s ≠ j * b.stride + t := by
        intro heq
        rw [h.stride] at heq
        obtain ⟨rfl, rfl⟩ := eq_of_mul_add_eq hs ht heq
        exact hjt ⟨rfl, rfl⟩
      rw [if_neg hjt, Array.getElem?_setIfInBounds_ne hne, hcell]

/-- Arrivals are recorded one after the other, and a failure ends it. -/
theorem record_append (b : Buffers) (p : Nat) (l k : List Arrival) :
    b.record p (l ++ k) = (b.record p l).bind fun r ↦
      match r with
      | (.error e, b) => some (.error e, b)
      | (.ok (), b) => b.record p k := by
  induction l generalizing b with
  | nil => rfl
  | cons a l ih =>
    rw [List.cons_append, record, record]
    rcases b.cell? p a.target with - | cell
    · rfl
    dsimp only [bind, Option.bind_some]
    rcases cell.bind (·.source?) with - | first
    · rcases b.set? p a.target a.step with - | b'
      · rfl
      · exact ih _
    · rfl

end Buffers

namespace Transducer

variable {m : Transducer} {b : Buffers} {t : Trellis} {length position : Nat}
  {seen column : List Arrival} {a c : Arrival}

/-! ### One row -/

/-- The cells when the trellis has been written up to `position`, and the arrivals in `seen`, the
last one first, have been recorded in the row after it. -/
def picture (m : Transducer) (t : Trellis) (position : Nat) (seen : List Arrival) :
    Nat → StateId → Option Step
  | 0, s => if s = m.initial then some .seed else none
  | j + 1, s =>
    if j < position then (t.arrivalAt? j s).map (·.step)
    else if j = position then (seen.find? (·.target = s)).map (·.step)
    else none

/-- The row that is being written shows the arrivals so far. -/
theorem picture_self (m : Transducer) (t : Trellis) (position : Nat) (seen : List Arrival)
    (s : StateId) :
    m.picture t position seen (position + 1) s = (seen.find? (·.target = s)).map (·.step) := by
  rw [picture, if_neg (Nat.lt_irrefl position), if_pos rfl]

/-- One more arrival changes the cell of the state that it enters. -/
theorem picture_cons (m : Transducer) (t : Trellis) (position : Nat) (seen : List Arrival)
    (a : Arrival) (j : Nat) (s : StateId) :
    m.picture t position (a :: seen) j s =
      if j = position + 1 ∧ s = a.target then some a.step else m.picture t position seen j s := by
  rcases j with - | j
  · rfl
  · rw [picture, picture, List.find?_cons]
    by_cases hj : j = position
    · subst hj
      by_cases hs : s = a.target
      · subst hs
        simp
      · simp [hs, Ne.symm hs]
    · simp [hj]

/-- A second arrival at a state ends the recording. -/
theorem record_cons_of_find?_eq_some (rest : List Arrival)
    (h : b.Shows length m.size (m.picture t position seen)) (hp : position < length)
    (ha : a.target < m.size) (hfind : seen.find? (·.target = a.target) = some c) :
    b.record (position + 1) (a :: rest) =
      some (.error (.paths (position + 1) a.target c.source a.source), b) := by
  rw [Buffers.record, h.cell? hp ha, picture_self, hfind]
  rfl

/-- A first arrival at a state is recorded. -/
theorem record_cons_of_find?_eq_none (rest : List Arrival)
    (h : b.Shows length m.size (m.picture t position seen)) (hp : position < length)
    (ha : a.target < m.size) (hfind : seen.find? (·.target = a.target) = none) :
    ∃ cells, b.record (position + 1) (a :: rest) =
        Buffers.record (position + 1) { b with cells, next := b.next.push a.target } rest ∧
      Buffers.Shows { b with cells, next := b.next.push a.target } length m.size
        (m.picture t position (a :: seen)) := by
  obtain ⟨cells, hset, hshows⟩ := h.set? a.step hp ha
  refine ⟨cells, ?_, ?_⟩
  · rw [Buffers.record, h.cell? hp ha, picture_self, hfind]
    dsimp only [bind, Option.bind_some, Option.map_none]
    rw [hset]
    rfl
  · exact (hshows.withStates b.frontier (b.next.push a.target)).congr fun j _ s _ ↦
      (picture_cons m t position seen a j s).symm

/-- **A clash is found where it is on the trellis.** -/
theorem record_of_clashAfter?_eq_some (h : b.Shows length m.size (m.picture t position seen))
    (hp : position < length) (hcolumn : ∀ a ∈ column, a.target < m.size)
    (hclash : clashAfter? seen column = some (a, c)) :
    ∃ b', b.record (position + 1) column =
      some (.error (.paths (position + 1) c.target a.source c.source), b') := by
  induction column generalizing b seen with
  | nil => cases hclash
  | cons d rest ih =>
    obtain ⟨hd, hrest⟩ := List.forall_mem_cons.1 hcolumn
    rw [clashAfter?] at hclash
    rcases hfind : seen.find? (·.target = d.target) with - | first
    · rw [hfind] at hclash
      obtain ⟨cells, hrecord, hshows⟩ := record_cons_of_find?_eq_none rest h hp hd hfind
      rw [hrecord]
      exact ih hshows hrest hclash
    · rw [hfind] at hclash
      cases hclash
      exact ⟨b, record_cons_of_find?_eq_some rest h hp hd hfind⟩

/-- **Without a clash the arrivals are recorded in their row**, and the states that they enter are
listed in their order. -/
theorem record_of_clashAfter?_eq_none (h : b.Shows length m.size (m.picture t position seen))
    (hp : position < length) (hcolumn : ∀ a ∈ column, a.target < m.size)
    (hclash : clashAfter? seen column = none) :
    ∃ b', b.record (position + 1) column = some (.ok (), b') ∧
      b'.Shows length m.size (m.picture t position (column.reverse ++ seen)) ∧
      b'.next.toList = b.next.toList ++ column.map (·.target) := by
  induction column generalizing b seen with
  | nil => exact ⟨b, rfl, h, (List.append_nil _).symm⟩
  | cons d rest ih =>
    obtain ⟨hd, hrest⟩ := List.forall_mem_cons.1 hcolumn
    rw [clashAfter?] at hclash
    rcases hfind : seen.find? (·.target = d.target) with - | first
    · rw [hfind] at hclash
      -- a target that has not been seen is written and pushed
      obtain ⟨cells, hrecord, hshows⟩ := record_cons_of_find?_eq_none rest h hp hd hfind
      obtain ⟨b', hb', hshows', hnext⟩ := ih hshows hrest hclash
      refine ⟨b', hrecord.trans hb', ?_, ?_⟩
      · rwa [List.reverse_cons, List.append_assoc, List.singleton_append]
      · rw [hnext, Array.toList_push, List.append_assoc, List.map_cons, List.singleton_append]
    · rw [hfind] at hclash
      cases hclash

/-- Recorded edge by edge, the arrivals of a symbol are those of the frontier. -/
theorem recordFrom_eq (b : Buffers) (p : Nat) (x : Symbol) {sources : List StateId}
    (h : ∀ s ∈ sources, s < m.size) :
    m.recordFrom p x b sources = b.record p (m.arrivals sources x) := by
  induction sources generalizing b with
  | nil => rfl
  | cons s sources ih =>
    obtain ⟨hs, hsources⟩ := List.forall_mem_cons.1 h
    have hsplit : m.arrivals (s :: sources) x = m.arrivals [s] x ++ m.arrivals sources x :=
      m.arrivals_append [s] sources x
    rw [recordFrom, if_pos hs, hsplit, Buffers.record_append]
    rcases b.record p (m.arrivals [s] x) with - | ⟨e | ⟨⟩, b'⟩
    · rfl
    · rfl
    · exact ih b' hsources

end Transducer

end Transduction
