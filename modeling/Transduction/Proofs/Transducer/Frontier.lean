import Transduction.Proofs.Transducer.Arrivals
import Transduction.Transducer.Evaluate
import Transduction.Transducer.Run

/-!
# The frontier of an evaluation

`Tracks` says what an evaluation knows after part of a word. Its frontier holds the states that the
computations over this part lead to, each of them is reached by one computation only, and the
trellis gives the output of that computation back.

One symbol without a clash keeps it (`Tracks.step`): two computations into one state would be two
arrivals there, since the sources are tracked already. The column that is written lies behind all
columns that were read before, so what they record stays (`backtrack_congr`). Reading a word is the
induction on this step (`Tracks.advanceAll`).

An evaluation that returns an answer is therefore exact: with an output there is one accepting
computation and it emits that output (`acceptingRun_of_evaluateWith`); without, there is none
(`not_acceptingRun_of_evaluateWith`). The trellis may have been used before: tracking begins with
any trellis (`Tracks.initial`).
-/

namespace Transduction

/-! ### Columns -/

namespace Trellis

variable {t : Trellis} {i j : Nat} {column : List Arrival}

theorem lt_size_write (hi : i ≤ t.columns.size) : i < (t.write i column).columns.size := by
  rw [write]
  split
  · next hlt => simpa using hlt
  · next hle =>
    show i < (t.columns.push column).size
    rw [Array.size_push]
    omega

/-- Writing a column leaves the columns before it. -/
theorem arrivalAt?_write_of_lt (hi : i ≤ t.columns.size) (hj : j < i) (s : StateId) :
    (t.write i column).arrivalAt? j s = t.arrivalAt? j s := by
  rw [write]
  split
  · have hne : i ≠ j := by omega
    rw [arrivalAt?, arrivalAt?, Array.getElem?_setIfInBounds_ne hne]
  · have hlt : j < t.columns.size := by omega
    rw [arrivalAt?, arrivalAt?, Array.getElem?_push, if_neg (Nat.ne_of_lt hlt)]

/-- A column that is written can be read. -/
theorem arrivalAt?_write_self (hi : i ≤ t.columns.size) (s : StateId) :
    (t.write i column).arrivalAt? i s = column.find? (·.target = s) := by
  rw [write]
  split
  · next hlt =>
    rw [arrivalAt?, Array.getElem?_setIfInBounds_self_of_lt hlt]
    rfl
  · have heq : i = t.columns.size := by omega
    rw [arrivalAt?, heq, Array.getElem?_push_size]
    rfl

end Trellis

/-- Where no state is entered twice, an arrival is found by the state that it enters. -/
theorem find?_target_eq_some {column : List Arrival} (hnodup : (column.map (·.target)).Nodup)
    {a : Arrival} (ha : a ∈ column) : column.find? (·.target = a.target) = some a := by
  obtain ⟨b, hb⟩ : ∃ b, column.find? (·.target = a.target) = some b := by
    refine Option.isSome_iff_exists.1 (List.find?_isSome.2 ⟨a, ha, ?_⟩)
    exact decide_eq_true rfl
  have htarget : b.target = a.target := by simpa using List.find?_some hb
  rw [hb, List.inj_on_of_nodup_map hnodup (List.mem_of_find?_eq_some hb) ha htarget]

namespace Transducer

variable {m : Transducer}

/-! ### The last step of a computation -/

namespace Run

variable {s t : StateId} {w : List Symbol} {x : Symbol} {is : List Nat} {i : Nat} {o : Output}
  {e : Edge}

/-- One more symbol, over one more edge. -/
theorem snoc (h : m.Run s w is t o) (he : (m.edges t)[i]? = some e) (hx : x ∈ e.range) :
    m.Run s (w ++ [x]) (is ++ [i]) e.target (o ++ e.out) := by
  have hlast : m.Run t [x] [i] e.target (e.out ++ []) := .cons he hx (.nil e.target)
  rw [List.append_nil] at hlast
  exact h.append hlast

/-- The last symbol of a word is read over the last edge of the computation. -/
theorem exists_snoc (h : m.Run s (w ++ [x]) is t o) :
    ∃ js i u p e, is = js ++ [i] ∧ o = p ++ e.out ∧ m.Run s w js u p ∧
      (m.edges u)[i]? = some e ∧ x ∈ e.range ∧ e.target = t := by
  obtain ⟨u, js, ks, p, q, rfl, rfl, hw, hlast⟩ := h.split
  rcases hlast with - | ⟨he, hx, htail⟩
  rcases htail with - | -
  exact ⟨js, _, u, p, _, rfl, by rw [List.append_nil], hw, he, hx, rfl⟩

end Run

/-- The indices of an accepting computation determine what it emits. -/
theorem AcceptingRun.output_eq {w : List Symbol} {is : List Nat} {o p : Output}
    (h : m.AcceptingRun w is o) (k : m.AcceptingRun w is p) : o = p := by
  obtain ⟨s, q, f, hrun, hf, rfl⟩ := h
  obtain ⟨t, q', f', hrun', hf', rfl⟩ := k
  obtain ⟨rfl, rfl⟩ := hrun.eq_of_indices hrun'
  rw [Option.some.inj (hf.symm.trans hf')]

/-! ### Tracking -/

/-- What an evaluation knows after the word `u`: its frontier and its trellis hold one computation
for each state that can be reached, and there are no others. -/
structure Tracks (m : Transducer) (u : List Symbol) (frontier : List StateId) (t : Trellis) :
    Prop where
  /-- No state is listed twice. -/
  nodup : frontier.Nodup
  /-- The frontier holds the states that can be reached. -/
  mem_iff : ∀ {s}, s ∈ frontier ↔ ∃ is o, m.Run m.initial u is s o
  /-- A state is reached by one computation only. -/
  unique : ∀ {s is js o p}, m.Run m.initial u is s o → m.Run m.initial u js s p → is = js
  /-- The columns that are read have been written. -/
  length_le : u.length ≤ t.columns.size
  /-- The trellis gives the output of a computation back. -/
  backtrack : ∀ {s is o}, m.Run m.initial u is s o → ∀ out,
    m.backtrack t s out u.length = .ok (o ++ out)

/-- Backtracking reads the columns of the word only. -/
theorem backtrack_congr {t t' : Trellis} {n : Nat}
    (h : ∀ j < n, ∀ s, t'.arrivalAt? j s = t.arrivalAt? j s) (s : StateId) (out : Output) :
    m.backtrack t' s out n = m.backtrack t s out n := by
  induction n generalizing s out with
  | zero => rfl
  | succ n ih =>
    have ih' := ih fun j hj ↦ h j (Nat.lt_succ_of_lt hj)
    rw [Transducer.backtrack, Transducer.backtrack, h n (Nat.lt_succ_self n)]
    simp only [ih']

namespace Tracks

variable {u v : List Symbol} {x : Symbol} {frontier frontier' : List StateId} {t t' : Trellis}

/-- Before the first symbol, the initial state is tracked, whatever the trellis holds. -/
theorem initial (m : Transducer) (t : Trellis) : m.Tracks [] [m.initial] t where
  nodup := List.nodup_singleton _
  mem_iff {s} := by
    rw [List.mem_singleton]
    constructor
    · rintro rfl
      exact ⟨[], [], .nil _⟩
    · rintro ⟨is, o, h⟩
      cases h
      rfl
  unique h k := by
    cases h
    cases k
    rfl
  length_le := Nat.zero_le _
  backtrack h out := by
    cases h
    exact if_pos rfl

/-- A computation over one more symbol arrives from the frontier. -/
theorem mem_arrivals_of_run (h : m.Tracks u frontier t) {js : List Nat} {i : Nat} {s : StateId}
    {p : Output} {e : Edge} (hrun : m.Run m.initial u js s p) (he : (m.edges s)[i]? = some e)
    (hx : x ∈ e.range) : ⟨s, i, e.target⟩ ∈ m.arrivals frontier x :=
  mem_arrivals.2 ⟨h.mem_iff.2 ⟨js, p, hrun⟩, e, he, hx, rfl⟩

/-- **A symbol without a clash is tracked.** -/
theorem step (h : m.Tracks u frontier t) (hclash : clash? (m.arrivals frontier x) = none) :
    m.Tracks (u ++ [x]) ((m.arrivals frontier x).map (·.target))
      (t.write u.length (m.arrivals frontier x)) := by
  have hnodup := clash?_eq_none_iff.1 hclash
  have hlength : (u ++ [x]).length = u.length + 1 := List.length_append
  refine ⟨hnodup, fun {s} ↦ ?_, fun {s is js o p} hrun hrun' ↦ ?_, ?_, fun {s is o} hrun out ↦ ?_⟩
  · -- the states that are entered are those that one more edge leads to
    rw [List.mem_map]
    refine ⟨fun h' ↦ ?_, fun h' ↦ ?_⟩
    · obtain ⟨a, ha, rfl⟩ := h'
      obtain ⟨hsource, e, he, hx, htarget⟩ := mem_arrivals.1 ha
      obtain ⟨js, p, hrun⟩ := h.mem_iff.1 hsource
      exact ⟨js ++ [a.index], p ++ e.out, htarget ▸ hrun.snoc he hx⟩
    · obtain ⟨is, o, hrun⟩ := h'
      obtain ⟨js, i, s', p, e, -, -, hinit, he, hx, htarget⟩ := hrun.exists_snoc
      exact ⟨_, h.mem_arrivals_of_run hinit he hx, htarget⟩
  · obtain ⟨is', i, s₁, o', e, rfl, -, hinit, he, hx, htarget⟩ := hrun.exists_snoc
    obtain ⟨js', j, s₂, p', f, rfl, -, hinit', he', hx', htarget'⟩ := hrun'.exists_snoc
    -- both last steps enter `s`, so they are one arrival
    have harrival : (⟨s₁, i, e.target⟩ : Arrival) = ⟨s₂, j, f.target⟩ :=
      List.inj_on_of_nodup_map hnodup (h.mem_arrivals_of_run hinit he hx)
        (h.mem_arrivals_of_run hinit' he' hx') (htarget.trans htarget'.symm)
    obtain ⟨rfl, rfl, -⟩ := Arrival.mk.inj harrival
    rw [h.unique hinit hinit']
  · rw [hlength]
    exact Trellis.lt_size_write h.length_le
  · -- the last column gives the last step, and the columns before it are as they were
    obtain ⟨is', i, s₁, o', e, -, rfl, hinit, he, hx, rfl⟩ := hrun.exists_snoc
    have hfind := find?_target_eq_some hnodup (h.mem_arrivals_of_run hinit he hx)
    rw [hlength, Transducer.backtrack, Trellis.arrivalAt?_write_self h.length_le, hfind]
    dsimp only
    rw [he]
    dsimp only
    rw [backtrack_congr (fun j hj ↦ Trellis.arrivalAt?_write_of_lt h.length_le hj),
      h.backtrack hinit, List.append_assoc]

/-- **A word that is read to its end is tracked.** -/
theorem advanceAll (h : m.Tracks u frontier t)
    (hread : m.advanceAll u.length frontier t v = (.ok frontier', t')) :
    m.Tracks (u ++ v) frontier' t' := by
  induction v generalizing u frontier t with
  | nil =>
    cases hread
    rwa [List.append_nil]
  | cons x v ih =>
    rw [Transducer.advanceAll] at hread
    rcases hclash : clash? (m.arrivals frontier x) with - | ⟨a, b⟩
    · rw [hclash] at hread
      have hlength : (u ++ [x]).length = u.length + 1 := List.length_append
      have htracks := ih (h.step hclash) (by rw [hlength]; exact hread)
      rwa [List.append_assoc] at htracks
    · rw [hclash] at hread
      cases hread

/-- The accepting computations are those of the accepting states of the frontier. -/
theorem acceptingRun_iff (h : m.Tracks u frontier t) {is : List Nat} {o : Output} :
    m.AcceptingRun u is o ↔ ∃ s p f, (s, f) ∈ m.accepting frontier ∧
      m.Run m.initial u is s p ∧ o = p ++ f := by
  refine ⟨fun h' ↦ ?_, fun h' ↦ ?_⟩
  · obtain ⟨s, p, f, hrun, hf, ho⟩ := h'
    exact ⟨s, p, f, mem_accepting.2 ⟨h.mem_iff.2 ⟨is, p, hrun⟩, hf⟩, hrun, ho⟩
  · obtain ⟨s, p, f, hmem, hrun, ho⟩ := h'
    exact ⟨s, p, f, hrun, (mem_accepting.1 hmem).2, ho⟩

end Tracks

/-! ### Answers -/

/-- An evaluation that cannot read the word to its end fails as the reading does. -/
theorem evaluateWith_eq_error_of_advanceAll {t t' : Trellis} {w : List Symbol} {e : EvalError}
    (h : m.advanceAll 0 [m.initial] t w = (.error e, t')) : (m.evaluateWith t w).1 = .error e := by
  rw [evaluateWith, h]

/-- **What an evaluation answers that has read the word to its end**: nothing if no state of the
frontier accepts, the output of the computation to the accepting state if there is one, and a
failure if there are more. -/
theorem evaluateWith_of_advanceAll {t t' : Trellis} {w : List Symbol} {frontier : List StateId}
    (h : m.advanceAll 0 [m.initial] t w = (.ok frontier, t')) :
    (m.accepting frontier = [] ∧ (m.evaluateWith t w).1 = .ok none) ∨
      (∃ s f is p, m.accepting frontier = [(s, f)] ∧ m.Run m.initial w is s p ∧
        (m.evaluateWith t w).1 = .ok (some (p ++ f))) ∨
      ∃ x y l, m.accepting frontier = x :: y :: l ∧
        (m.evaluateWith t w).1 = .error (.acceptance x.1 y.1) := by
  have htracks : m.Tracks w frontier t' := (Tracks.initial m t).advanceAll h
  rw [evaluateWith, h]
  dsimp only
  rcases hacc : m.accepting frontier with - | ⟨⟨s, f⟩, - | ⟨y, l⟩⟩
  all_goals rw [soleAccepting?, hacc]; dsimp only
  · exact .inl ⟨rfl, rfl⟩
  · have hs : (s, f) ∈ m.accepting frontier := hacc ▸ List.mem_cons_self
    obtain ⟨is, p, hrun⟩ := htracks.mem_iff.1 (mem_accepting.1 hs).1
    rw [htracks.backtrack hrun]
    exact .inr (.inl ⟨s, f, is, p, rfl, hrun, rfl⟩)
  · exact .inr (.inr ⟨(s, f), y, l, rfl, rfl⟩)

/-- An evaluation that has read the word to its end answers if one state of the frontier at most
accepts. -/
theorem exists_evaluateWith_of_advanceAll {t t' : Trellis} {w : List Symbol}
    {frontier : List StateId} (h : m.advanceAll 0 [m.initial] t w = (.ok frontier, t'))
    (hle : (m.accepting frontier).length ≤ 1) : ∃ r, (m.evaluateWith t w).1 = .ok r := by
  rcases evaluateWith_of_advanceAll h with
    ⟨-, heval⟩ | ⟨s, f, is, p, -, -, heval⟩ | ⟨x, y, l, hacc, -⟩
  · exact ⟨none, heval⟩
  · exact ⟨some (p ++ f), heval⟩
  · rw [hacc] at hle
    simp at hle

/-- An evaluation that returns an answer has tracked the whole word: no state of the frontier
accepts, or one does and the output is that of the computation to it. -/
theorem tracks_of_evaluateWith {t : Trellis} {w : List Symbol} {r : Option Output}
    (h : (m.evaluateWith t w).1 = .ok r) :
    ∃ frontier t', m.Tracks w frontier t' ∧
      ((r = none ∧ m.accepting frontier = []) ∨
        ∃ s f is p, r = some (p ++ f) ∧ m.accepting frontier = [(s, f)] ∧
          m.Run m.initial w is s p) := by
  rcases hread : m.advanceAll 0 [m.initial] t w with ⟨e | frontier, t'⟩
  · cases (evaluateWith_eq_error_of_advanceAll hread).symm.trans h
  · refine ⟨frontier, t', (Tracks.initial m t).advanceAll hread, ?_⟩
    rcases evaluateWith_of_advanceAll hread with
      ⟨hacc, heval⟩ | ⟨s, f, is, p, hacc, hrun, heval⟩ | ⟨x, y, l, -, heval⟩
    · exact .inl ⟨Except.ok.inj (h.symm.trans heval), hacc⟩
    · exact .inr ⟨s, f, is, p, Except.ok.inj (h.symm.trans heval), hacc, hrun⟩
    · cases heval.symm.trans h

/-- **An output is that of the only accepting computation.** -/
theorem acceptingRun_of_evaluateWith {t : Trellis} {w : List Symbol} {o : Output}
    (h : (m.evaluateWith t w).1 = .ok (some o)) :
    ∃ is, m.AcceptingRun w is o ∧ ∀ js p, m.AcceptingRun w js p → js = is := by
  obtain ⟨frontier, t', htracks, ⟨hr, -⟩ | ⟨s, f, is, p, hr, hacc, hrun⟩⟩ :=
    tracks_of_evaluateWith h
  · cases hr
  · have ho : o = p ++ f := Option.some.inj hr
    have hs : (s, f) ∈ m.accepting frontier := hacc ▸ List.mem_cons_self
    refine ⟨is, htracks.acceptingRun_iff.2 ⟨s, p, f, hs, hrun, ho⟩, ?_⟩
    intro js q hjs
    obtain ⟨s', q', f', hs', hrun', -⟩ := htracks.acceptingRun_iff.1 hjs
    rw [hacc, List.mem_singleton] at hs'
    cases hs'
    exact htracks.unique hrun' hrun

/-- **Without an output there is no accepting computation.** -/
theorem not_acceptingRun_of_evaluateWith {t : Trellis} {w : List Symbol}
    (h : (m.evaluateWith t w).1 = .ok none) (is : List Nat) (o : Output) :
    ¬ m.AcceptingRun w is o := by
  intro hrun
  obtain ⟨frontier, t', htracks, ⟨-, hacc⟩ | ⟨s, f, is, p, hr, -⟩⟩ := tracks_of_evaluateWith h
  · obtain ⟨s, p, f, hs, -, -⟩ := htracks.acceptingRun_iff.1 hrun
    rw [hacc] at hs
    exact List.not_mem_nil hs
  · cases hr

/-- A word for which an evaluation returns an answer has at most one accepting computation. -/
theorem acceptingRun_unique_of_evaluateWith {t : Trellis} {w : List Symbol} {r : Option Output}
    (h : (m.evaluateWith t w).1 = .ok r) {is js : List Nat} {o p : Output}
    (his : m.AcceptingRun w is o) (hjs : m.AcceptingRun w js p) : is = js := by
  rcases r with - | q
  · exact absurd his (not_acceptingRun_of_evaluateWith h is o)
  · obtain ⟨ks, -, hunique⟩ := acceptingRun_of_evaluateWith h
    rw [hunique is o his, hunique js p hjs]

end Transducer

end Transduction
