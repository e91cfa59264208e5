import Mathlib.Data.Multiset.Bind
import Transduction.Proofs.Transducer.Frontier
import Transduction.Transducer.Answer

/-!
# Machines with one skeleton

The skeleton of a machine is what remains of it without its outputs, without the order of its edges
and without the numbers of its states: from each state some edges, each with its range and its
target, and which states accept. A machine fits a skeleton if its states are those of the skeleton
by other names; it may have further states, which are then never entered.

The skeleton alone says where an evaluation fails. Reading a symbol, the machine enters the states
that the skeleton enters, each as often (`Fits.step`), and there is a clash exactly when one of them
is entered twice. So the machine reads a word as the skeleton does (`Fits.advanceAll`): as far, and
to the same states. At the end as many of these accept (`Fits.length_accepting`). Two machines that
fit one skeleton therefore give the same answers if they emit the same outputs
(`Fits.sameAnswer`).
-/

namespace Transduction

/-- What a machine is without its outputs: states, edges between them, and where words are
accepted. -/
structure Skeleton (σ : Type) where
  /-- The state that a word begins in. -/
  initial : σ
  /-- The ranges and targets of the edges of a state, as often as it has such an edge. -/
  edges : σ → Multiset (SymbolRange × σ)
  /-- The states that accept. -/
  accepts : σ → Bool

namespace Skeleton

variable {σ : Type}

/-- The states that are entered from some states over a symbol, as often as there are edges. -/
def step (K : Skeleton σ) (F : Multiset σ) (x : Symbol) : Multiset σ :=
  F.bind fun i ↦ ((K.edges i).filter fun e ↦ x ∈ e.1).map (·.2)

/-- The states that are reached from some states over the rest of a word, `position` symbols having
been read; or else the number of symbols after which a state is entered twice. -/
def read [DecidableEq σ] (K : Skeleton σ) :
    Nat → Multiset σ → List Symbol → Except Nat (Multiset σ)
  | _, F, [] => .ok F
  | position, F, x :: w =>
    if (K.step F x).Nodup then K.read (position + 1) (K.step F x) w else .error (position + 1)

/-- The machine has the given skeleton, whose state `i` is its state `ν i`. -/
structure Fits (K : Skeleton σ) (m : Transducer) (ν : σ → StateId) : Prop where
  /-- Different states have different numbers. -/
  injective : ν.Injective
  /-- Words begin in the same state. -/
  initial : m.initial = ν K.initial
  /-- Each state has the edges that the skeleton says. -/
  edges : ∀ i, (((m.edges (ν i)).toList.map fun e ↦ (e.range, e.target)) :
    Multiset (SymbolRange × StateId)) = (K.edges i).map (Prod.map id ν)
  /-- The same states accept. -/
  accepts : ∀ i, (m.final? (ν i)).isSome = K.accepts i

/-- A machine has read as far as its skeleton: to the same states, or up to the symbol over which
some state is entered twice. -/
inductive Follows (ν : σ → StateId) :
    Except Nat (Multiset σ) → Except EvalError (List StateId) → Prop
  /-- The word has been read. -/
  | ok {F : Multiset σ} {frontier : List StateId} (states : ↑frontier = F.map ν) :
    Follows ν (.ok F) (.ok frontier)
  /-- Some state is entered twice. -/
  | error (position : Nat) (target source source' : StateId) :
    Follows ν (.error position) (.error (.paths position target source source'))

variable {K : Skeleton σ} {m m' : Transducer} {ν ν' : σ → StateId} {F : Multiset σ}
  {frontier : List StateId}

namespace Fits

/-! ### One symbol -/

/-- The matches of a state lead where the edges of the skeleton do that read the symbol. -/
theorem targets_matching (h : K.Fits m ν) (i : σ) (x : Symbol) :
    (((m.matching (ν i) x).map (·.1.target)) : Multiset StateId) =
      (((K.edges i).filter fun e ↦ x ∈ e.1).map (·.2)).map ν := by
  have hedges : (((m.edges (ν i)).toList.filter fun e ↦ x ∈ e.range).map (·.target) :
      Multiset StateId) = (((((m.edges (ν i)).toList.map fun e ↦ (e.range, e.target)) :
        Multiset (SymbolRange × StateId)).filter fun e ↦ x ∈ e.1).map (·.2)) := by
    rw [Multiset.filter_coe, Multiset.map_coe, List.filter_map, List.map_map]
    rfl
  rw [Multiset.coe_eq_coe.2 (m.perm_targets_matching (ν i) x), hedges, h.edges i,
    Multiset.filter_map, Multiset.map_map, Multiset.map_map]
  rfl

/-- **Over a symbol, the machine enters the states that the skeleton enters**, each as often. -/
theorem step (h : K.Fits m ν) (hF : ↑frontier = F.map ν) (x : Symbol) :
    (((m.arrivals frontier x).map (·.target)) : Multiset StateId) = (K.step F x).map ν := by
  have htargets : (m.arrivals frontier x).map (·.target) =
      frontier.flatMap fun s ↦ (m.matching s x).map (·.1.target) := by
    rw [Transducer.arrivals, List.map_flatMap]
    refine List.flatMap_congr fun s _ ↦ ?_
    rw [List.map_map]
    rfl
  calc (((m.arrivals frontier x).map (·.target)) : Multiset StateId)
      = (frontier : Multiset StateId).bind fun s ↦ ((m.matching s x).map (·.1.target)) := by
        rw [htargets, Multiset.coe_bind]
    _ = F.bind fun i ↦ (((K.edges i).filter fun e ↦ x ∈ e.1).map (·.2)).map ν := by
        rw [hF, Multiset.bind_map]
        exact Multiset.bind_congr fun i _ ↦ h.targets_matching i x
    _ = (K.step F x).map ν := by rw [Skeleton.step, Multiset.map_bind]

/-- A frontier clashes exactly when the skeleton enters a state twice. -/
theorem clash?_eq_none_iff (h : K.Fits m ν) (hF : ↑frontier = F.map ν) (x : Symbol) :
    clash? (m.arrivals frontier x) = none ↔ (K.step F x).Nodup := by
  rw [Transduction.clash?_eq_none_iff, ← Multiset.coe_nodup, h.step hF,
    Multiset.nodup_map_iff_of_injective h.injective]

/-! ### A word -/

/-- **The machine reads a word as the skeleton does.** -/
theorem advanceAll [DecidableEq σ] (h : K.Fits m ν) (hF : ↑frontier = F.map ν) (position : Nat)
    (t : Trellis) (w : List Symbol) :
    Follows ν (K.read position F w) (m.advanceAll position frontier t w).1 := by
  induction w generalizing F frontier position t with
  | nil => exact .ok hF
  | cons x w ih =>
    rw [read, Transducer.advanceAll]
    rcases hclash : clash? (m.arrivals frontier x) with - | ⟨a, b⟩
    · rw [if_pos ((h.clash?_eq_none_iff hF x).1 hclash)]
      exact ih (h.step hF x) (position + 1) _
    · have hnodup : ¬ (K.step F x).Nodup := fun hnodup ↦ by
        rw [(h.clash?_eq_none_iff hF x).2 hnodup] at hclash
        cases hclash
      rw [if_neg hnodup]
      exact .error _ _ _ _

/-- As many states accept as in the skeleton. -/
theorem length_accepting (h : K.Fits m ν) (hF : ↑frontier = F.map ν) :
    (m.accepting frontier).length = F.countP (K.accepts · = true) := by
  have hlength : (m.accepting frontier).length =
      (frontier : Multiset StateId).countP fun s ↦ (m.final? s).isSome := by
    rw [Transducer.accepting, List.length_filterMap_eq_countP, Multiset.coe_countP]
    simp only [Option.isSome_map, Bool.decide_eq_true]
  rw [hlength, hF, Multiset.countP_map, Multiset.countP_eq_card_filter]
  simp only [h.accepts]

end Fits

/-! ### Answers -/

/-- Machines that read a word to equally many accepting states give the same answer if the outputs
of one are outputs of the other. -/
theorem sameAnswer_of_advanceAll {w : List Symbol} {frontier' : List StateId} {t t' : Trellis}
    (hread : m.advanceAll 0 [m.initial] .empty w = (.ok frontier, t))
    (hread' : m'.advanceAll 0 [m'.initial] .empty w = (.ok frontier', t'))
    (hlength : (m.accepting frontier).length = (m'.accepting frontier').length)
    (hout : ∀ is o, m.AcceptingRun w is o → ∃ js, m'.AcceptingRun w js o) :
    SameAnswer (m.evaluate w) (m'.evaluate w) := by
  rw [Transducer.evaluate, Transducer.evaluate]
  rcases Transducer.evaluateWith_of_advanceAll hread with
      ⟨hacc, heval⟩ | ⟨s, f, is, p, hacc, -, heval⟩ | ⟨x, y, l, hacc, heval⟩ <;>
    rcases Transducer.evaluateWith_of_advanceAll hread' with
      ⟨hacc', heval'⟩ | ⟨s', f', is', p', hacc', -, heval'⟩ | ⟨x', y', l', hacc', heval'⟩
  all_goals rw [hacc, hacc'] at hlength
  · rw [heval, heval']
    exact .ok none
  · cases hlength
  · cases hlength
  · cases hlength
  · -- the output of one machine is an output of the other, which has no second one
    obtain ⟨ks, hks, -⟩ := Transducer.acceptingRun_of_evaluateWith heval
    obtain ⟨js, hjs⟩ := hout ks _ hks
    obtain ⟨ks', hks', hunique⟩ := Transducer.acceptingRun_of_evaluateWith heval'
    obtain rfl := hunique js _ hjs
    rw [heval, heval', hks'.output_eq hjs]
    exact .ok _
  · cases hlength
  · cases hlength
  · cases hlength
  · rw [heval, heval']
    exact .acceptance _ _ _ _

/-- **Machines with one skeleton and the same outputs give the same answers**: the same output, or
the same failure after as many symbols. -/
theorem Fits.sameAnswer [DecidableEq σ] (h : K.Fits m ν) (h' : K.Fits m' ν') {w : List Symbol}
    (hout : ∀ is o, m.AcceptingRun w is o → ∃ js, m'.AcceptingRun w js o) :
    SameAnswer (m.evaluate w) (m'.evaluate w) := by
  have hinitial : ([m.initial] : Multiset StateId) = ({K.initial} : Multiset σ).map ν := by
    rw [h.initial]
    rfl
  have hinitial' : ([m'.initial] : Multiset StateId) = ({K.initial} : Multiset σ).map ν' := by
    rw [h'.initial]
    rfl
  -- each machine follows the reading of the skeleton, so the two end alike
  have hfollows := h.advanceAll hinitial 0 .empty w
  have hfollows' := h'.advanceAll hinitial' 0 .empty w
  rcases hread : m.advanceAll 0 [m.initial] .empty w with ⟨r, t⟩
  rcases hread' : m'.advanceAll 0 [m'.initial] .empty w with ⟨r', t'⟩
  rw [hread] at hfollows
  rw [hread'] at hfollows'
  generalize K.read 0 {K.initial} w = outcome at hfollows hfollows'
  cases hfollows with
  | ok hF =>
    cases hfollows' with
    | ok hF' =>
      have hlength := (h.length_accepting hF).trans (h'.length_accepting hF').symm
      exact sameAnswer_of_advanceAll hread hread' hlength hout
  | error position target s s' =>
    cases hfollows' with
    | error _ target' s₂ s₂' =>
      rw [Transducer.evaluate, Transducer.evaluate,
        Transducer.evaluateWith_eq_error_of_advanceAll hread,
        Transducer.evaluateWith_eq_error_of_advanceAll hread']
      exact .paths _ _ _ _ _ _ _

end Skeleton

end Transduction
