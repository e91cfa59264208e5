import Transduction.Proofs.Transducer.Frontier
import Transduction.Proofs.Transducer.Recording

/-!
# Working memory carries nothing over

An evaluation on flat memory goes along with one on a trellis. `Mirrors` says that the rows hold
what the columns hold, up to the symbols that have been read, and that the rows after them are
blank. Memory that has been laid out mirrors any trellis before the first symbol
(`exists_mirrors_zero`), and each symbol without a clash keeps this (`Mirrors.step`): the column of
its arrivals is written and their row is filled. A clash ends both readings with the same error; a
position that no state reaches ends only the reading on the memory, but then no state is reached at
the end of the word either (`Mirrors.exists_readAll`).

So the answer is the same, and it depends neither on what the memory held nor on what the trellis
held (`evaluateOn_eq`, `evaluateWith_fst`). No cell and no state outside of their tables is needed
on the way: an evaluation on flat memory always answers.
-/

namespace Transduction

namespace Transducer

variable {m : Transducer} {b : Buffers} {t t' : Trellis} {length position : Nat}
  {column : List Arrival} {a c : Arrival} {x : Symbol} {w : List Symbol}
  {frontier : List StateId}

/-! ### The whole word -/

/-- The memory mirrors the trellis of an evaluation that has read `position` symbols. -/
structure Mirrors (m : Transducer) (length position : Nat) (b : Buffers) (frontier : List StateId)
    (t : Trellis) : Prop where
  /-- The rows hold what the columns hold, and those after them are blank. -/
  shows : b.Shows length m.size (m.picture t position [])
  /-- The states that have been reached are listed in their order. -/
  toList_frontier : b.frontier.toList = frontier
  /-- They are states of the machine. -/
  lt_size : ∀ s ∈ frontier, s < m.size
  /-- The columns that are read have been written. -/
  le_size : position ≤ t.columns.size
  /-- Every arrival of theirs is by an edge of the machine. -/
  edge : ∀ {j s a}, j < position → t.arrivalAt? j s = some a →
    a.source < m.size ∧ ∃ e, (m.edges a.source)[a.index]? = some e

/-- A column read from its end gives the same arrivals, if no state is entered twice. -/
theorem find?_reverse_target (h : (column.map (·.target)).Nodup) (s : StateId) :
    column.reverse.find? (·.target = s) = column.find? (·.target = s) := by
  rcases hfind : column.find? (·.target = s) with - | c
  · rw [hfind]
    rw [List.find?_eq_none] at hfind ⊢
    exact fun d hd ↦ hfind d (List.mem_reverse.1 hd)
  · obtain rfl : c.target = s := by simpa using List.find?_some hfind
    rw [hfind]
    refine find?_target_eq_some ?_ (List.mem_reverse.2 (List.mem_of_find?_eq_some hfind))
    rw [List.map_reverse]
    exact List.nodup_reverse.2 h

/-- The row that has been filled is the column that is written. -/
theorem picture_write (hle : position ≤ t.columns.size) (hnodup : (column.map (·.target)).Nodup)
    (j : Nat) (s : StateId) :
    m.picture t position column.reverse j s =
      m.picture (t.write position column) (position + 1) [] j s := by
  rcases j with - | j
  · rfl
  rw [picture, picture]
  rcases Nat.lt_trichotomy j position with hj | rfl | hj
  · rw [if_pos hj, if_pos (Nat.lt_succ_of_lt hj), Trellis.arrivalAt?_write_of_lt hle hj]
  · rw [if_neg (Nat.lt_irrefl j), if_pos rfl, if_pos (Nat.lt_succ_self j),
      Trellis.arrivalAt?_write_self hle, find?_reverse_target hnodup]
  · rw [if_neg (Nat.lt_asymm hj), if_neg (Nat.ne_of_gt hj), if_neg (Nat.not_lt.2 hj)]
    split <;> rfl

/-- Every arrival is at a state of the machine. -/
theorem target_lt_of_mem_arrivals {sources : List StateId} :
    ∀ a ∈ m.arrivals sources x, a.target < m.size := by
  intro a ha
  obtain ⟨-, e, he, -, htarget⟩ := mem_arrivals.1 ha
  exact htarget ▸ target_lt_size he

/-- How a reading on the memory ends, next to one on the trellis. -/
inductive EndsAs (m : Transducer) (length : Nat) :
    Except EvalError (List StateId) × Trellis → Except EvalError Bool × Buffers → Prop
  /-- Both meet the same clash. -/
  | clash (e : EvalError) (t : Trellis) (b : Buffers) : m.EndsAs length (.error e, t) (.error e, b)
  /-- Both go to the end of the word. -/
  | done {b : Buffers} {frontier : List StateId} {t : Trellis}
      (h : m.Mirrors length length b frontier t) : m.EndsAs length (.ok frontier, t) (.ok true, b)
  /-- The one on the memory stops where no state is reached, and none is reached at the end. -/
  | stopped (t : Trellis) (b : Buffers) : m.EndsAs length (.ok [], t) (.ok false, b)

/-- No state is reached from none. -/
theorem advanceAll_nil (m : Transducer) (position : Nat) (t : Trellis) (w : List Symbol) :
    ∃ t', m.advanceAll position [] t w = (.ok [], t') := by
  induction w generalizing position t with
  | nil => exact ⟨t, rfl⟩
  | cons x w ih => exact ih (position + 1) _

namespace Mirrors

/-- Recorded from the frontier in memory, the arrivals are those from the frontier of the
trellis. -/
theorem recordFrom_eq_record (h : m.Mirrors length position b frontier t) (b₀ : Buffers) (p : Nat)
    (x : Symbol) :
    m.recordFrom p x b₀ b.frontier.toList = b₀.record p (m.arrivals frontier x) := by
  rw [h.toList_frontier]
  exact recordFrom_eq b₀ p x h.lt_size

/-- A clash at a symbol ends the reading. -/
theorem recordFrom_of_clash? (h : m.Mirrors length position b frontier t)
    (hp : position < length) (hclash : clash? (m.arrivals frontier x) = some (a, c)) :
    ∃ b', m.recordFrom (position + 1) x { b with next := b.next.take 0 } b.frontier.toList =
      some (.error (.paths (position + 1) c.target a.source c.source), b') := by
  rw [h.recordFrom_eq_record]
  exact record_of_clashAfter?_eq_some (h.shows.withStates _ _) hp target_lt_of_mem_arrivals hclash

/-- **A symbol without a clash is mirrored.** -/
theorem step (h : m.Mirrors length position b frontier t) (hp : position < length)
    (hclash : clash? (m.arrivals frontier x) = none) :
    ∃ b', m.recordFrom (position + 1) x { b with next := b.next.take 0 } b.frontier.toList =
        some (.ok (), b') ∧
      m.Mirrors length (position + 1) b'.swap ((m.arrivals frontier x).map (·.target))
        (t.write position (m.arrivals frontier x)) := by
  have hnodup := clash?_eq_none_iff.1 hclash
  obtain ⟨b', hrecord, hshows, hnext⟩ := record_of_clashAfter?_eq_none
    (h.shows.withStates b.frontier (b.next.take 0)) hp target_lt_of_mem_arrivals hclash
  rw [List.append_nil] at hshows
  refine ⟨b', ?_, ?_, ?_, ?_, Trellis.lt_size_write h.le_size, ?_⟩
  · rw [h.recordFrom_eq_record, hrecord]
  · -- the cells of the new position are written, all others stay
    exact (hshows.withStates b'.next b'.frontier).congr fun j _ s _ ↦
      picture_write h.le_size hnodup j s
  · show b'.next.toList = _
    simpa using hnext
  · intro s hs
    obtain ⟨a, ha, rfl⟩ := List.mem_map.1 hs
    exact target_lt_of_mem_arrivals a ha
  · intro j s a hj hat
    rcases Nat.lt_or_eq_of_le (Nat.le_of_lt_succ hj) with hlt | rfl
    · rw [Trellis.arrivalAt?_write_of_lt h.le_size hlt] at hat
      exact h.edge hlt hat
    · rw [Trellis.arrivalAt?_write_self h.le_size] at hat
      obtain ⟨hsource, e, he, -, -⟩ := mem_arrivals.1 (List.mem_of_find?_eq_some hat)
      exact ⟨h.lt_size _ hsource, e, he⟩

/-- **Reading a word on the memory ends as on the trellis.** -/
theorem exists_readAll (h : m.Mirrors length position b frontier t)
    (hlength : position + w.length = length) :
    ∃ r, m.readAll position b w = some r ∧
      m.EndsAs length (m.advanceAll position frontier t w) r := by
  induction w generalizing position b frontier t with
  | nil => exact ⟨_, rfl, .done (hlength ▸ h)⟩
  | cons x w ih =>
    rw [List.length_cons] at hlength
    have hp : position < length := by omega
    rw [advanceAll, readAll]
    rcases hclash : clash? (m.arrivals frontier x) with - | ⟨a, c⟩
    · obtain ⟨b', hrecord, hmirrors⟩ := h.step hp hclash
      rw [hrecord]
      dsimp only [bind, Option.bind_some]
      by_cases hempty : b'.swap.frontier.isEmpty
      · -- the reading stops, while the one on the trellis goes on with no state
        have hnil : (m.arrivals frontier x).map (·.target) = [] := by
          rw [← hmirrors.toList_frontier]
          simpa using hempty
        obtain ⟨t', hread⟩ := m.advanceAll_nil (position + 1) (t.write position _) w
        rw [if_pos hempty, hnil, hread]
        exact ⟨_, rfl, .stopped t' b'.swap⟩
      · rw [if_neg hempty]
        exact ih hmirrors (by omega)
    · obtain ⟨b', hrecord⟩ := h.recordFrom_of_clash? hp hclash
      rw [hrecord]
      exact ⟨_, rfl, .clash _ t b'⟩

/-- **The memory gives the same output back.** -/
theorem backtrackOn_eq (h : m.Mirrors length length b frontier t) {n : Nat} (hn : n ≤ length)
    {s : StateId} (hs : s < m.size) (out : Output) :
    m.backtrackOn b s out n = some (m.backtrack t s out n) := by
  induction n generalizing s out with
  | zero =>
    rw [backtrackOn, backtrack]
    by_cases hinitial : s = m.initial
    · rw [if_pos hinitial, if_pos hinitial, h.shows.cell? hn hs, picture, if_pos hinitial]
      rfl
    · rw [if_neg hinitial, if_neg hinitial]
      rfl
  | succ n ih =>
    rw [backtrackOn, backtrack, h.shows.cell? hn hs, picture, if_pos (Nat.lt_of_succ_le hn)]
    rcases hat : t.arrivalAt? n s with - | a
    · rfl
    · obtain ⟨hsource, e, he⟩ := h.edge hn hat
      dsimp only [bind, Option.bind_some, Option.map_some, Arrival.step]
      rw [he]
      exact ih (Nat.le_of_succ_le hn) hsource _

end Mirrors

/-! ### Acceptance -/

theorem getElem?_states {s : StateId} (hs : s < m.size) :
    ∃ row, m.states[s]? = some row ∧ m.final? s = row.final? := by
  have hlt : s < m.states.size := hs
  refine ⟨m.states[s], Array.getElem?_eq_getElem hlt, ?_⟩
  rw [final?, Array.getElem?_eq_getElem hlt, Option.bind_some]

/-- After an accepting state, the next one is an error. -/
theorem soleAfter?_some {first : StateId} {states : List StateId} (h : ∀ s ∈ states, s < m.size) :
    m.soleAfter? (some first) states = some (
      match m.accepting states with
      | [] => .ok (some first)
      | x :: _ => .error (.acceptance first x.1)) := by
  induction states with
  | nil => rfl
  | cons s states ih =>
    obtain ⟨hs, hstates⟩ := List.forall_mem_cons.1 h
    obtain ⟨row, hrow, hfinal⟩ := getElem?_states hs
    rw [soleAfter?, hrow, accepting, List.filterMap_cons, hfinal, ← accepting]
    dsimp only [bind, Option.bind_some]
    rcases row.final? with - | out
    · exact ih hstates
    · rfl

/-- **The only accepting state is found**, or the first two. -/
theorem soleAfter?_none {states : List StateId} (h : ∀ s ∈ states, s < m.size) :
    m.soleAfter? none states = some ((m.soleAccepting? states).map (·.map (·.1))) := by
  induction states with
  | nil => rfl
  | cons s states ih =>
    obtain ⟨hs, hstates⟩ := List.forall_mem_cons.1 h
    obtain ⟨row, hrow, hfinal⟩ := getElem?_states hs
    rw [soleAfter?, hrow, soleAccepting?, accepting, List.filterMap_cons, hfinal, ← accepting]
    dsimp only [bind, Option.bind_some]
    rcases row.final? with - | out
    · exact ih hstates
    · dsimp only [Option.map_some]
      rw [soleAfter?_some hstates]
      rcases m.accepting states with - | ⟨y, l⟩ <;> rfl

theorem mem_accepting_of_soleAccepting? {states : List StateId} {x : StateId × Output}
    (h : m.soleAccepting? states = .ok (some x)) : x ∈ m.accepting states := by
  rw [soleAccepting?] at h
  rcases hacc : m.accepting states with - | ⟨y, - | ⟨z, l⟩⟩
  all_goals rw [hacc] at h; cases h
  exact List.mem_singleton_self x

/-! ### Evaluations -/

/-- Before the first symbol the memory that has been laid out mirrors any trellis. -/
theorem exists_mirrors_zero (m : Transducer) (length : Nat) (b : Buffers) (t : Trellis) :
    ∃ b', (b.reset length m.size).set? 0 m.initial .seed = some b' ∧
      m.Mirrors length 0 { b' with frontier := b'.frontier.push m.initial } [m.initial] t := by
  obtain ⟨cells, hset, hshows⟩ := (Buffers.shows_reset b length m.size).set? .seed
    (Nat.zero_le length) m.initial_lt
  refine ⟨_, hset, (hshows.withStates _ _).congr fun j _ s _ ↦ ?_, ?_, ?_, Nat.zero_le _, ?_⟩
  · rcases j with - | j <;> simp [picture]
  · rw [Buffers.reset_eq]
    rfl
  · exact List.forall_mem_singleton.2 m.initial_lt
  · intro j s a hj
    exact absurd hj (Nat.not_lt_zero j)

/-- **An evaluation on flat memory answers as one on a trellis**, whatever the memory and the
trellis hold, and it needs no cell and no state outside of their tables. -/
theorem evaluateOn_eq (m : Transducer) (b : Buffers) (t : Trellis) (w : List Symbol) :
    ∃ b', m.evaluateOn b w = some ((m.evaluateWith t w).1, b') := by
  obtain ⟨b₀, hset, hmirrors⟩ := exists_mirrors_zero m w.length b t
  obtain ⟨r, hread, hends⟩ := hmirrors.exists_readAll (Nat.zero_add w.length)
  rw [evaluateOn, hset, evaluateWith]
  dsimp only [bind, Option.bind_some]
  rw [hread]
  dsimp only [Option.bind_some]
  generalize m.advanceAll 0 [m.initial] t w = outcome at hends
  cases hends with
  | clash e t' b₁ => exact ⟨b₁, rfl⟩
  | stopped t' b₁ => exact ⟨b₁, rfl⟩
  | @done b₁ frontier t' hend =>
    dsimp only
    rw [hend.toList_frontier, soleAfter?_none hend.lt_size]
    rcases hsole : m.soleAccepting? frontier with e | - | ⟨s, out⟩
    · exact ⟨b₁, rfl⟩
    · exact ⟨b₁, rfl⟩
    · -- the state that accepts is one of the machine, and it has the final output that was found
      obtain ⟨hs, hout⟩ := mem_accepting.1 (mem_accepting_of_soleAccepting? hsole)
      obtain ⟨row, hrow, hfinal⟩ := getElem?_states (hend.lt_size s hs)
      rw [hfinal] at hout
      dsimp only [Option.bind_some, Except.map, Option.map_some]
      rw [hrow]
      dsimp only [Option.bind_some]
      rw [hout, hend.backtrackOn_eq (Nat.le_refl _) (hend.lt_size s hs)]
      exact ⟨b₁, rfl⟩

/-- What a trellis holds at the beginning does not matter either. -/
theorem evaluateWith_fst (m : Transducer) (t : Trellis) (w : List Symbol) :
    (m.evaluateWith t w).1 = m.evaluate w := by
  obtain ⟨b, hb⟩ := m.evaluateOn_eq .empty t w
  obtain ⟨b', hb'⟩ := m.evaluateOn_eq .empty .empty w
  exact (Prod.mk.inj (Option.some.inj (hb.symm.trans hb'))).1

end Transducer

/-- **Working memory carries nothing from one evaluation to the next.** Any machines evaluate any
words in turn, on memory that has not been used, that was made for some machine or that is left from
other evaluations: each answer is the one that the machine gives by itself. -/
theorem evaluateEach_eq (b : Buffers) (calls : List (Transducer × List Symbol)) :
    ∃ b', evaluateEach b calls = some (calls.map fun c ↦ c.1.evaluate c.2, b') := by
  induction calls generalizing b with
  | nil => exact ⟨b, rfl⟩
  | cons c calls ih =>
    obtain ⟨b₁, hfirst⟩ := c.1.evaluateOn_eq b .empty c.2
    obtain ⟨b₂, hrest⟩ := ih b₁
    refine ⟨b₂, ?_⟩
    rw [evaluateEach, hfirst]
    dsimp only [bind, Option.bind_some]
    rw [hrest]
    rfl

end Transduction
